import Spkdfs.Common.Inode

namespace Spkdfs

/-- A value of the JSON library. Its objects are kept in the order of their keys, and all its
numbers here are integers. -/
inductive Json
  | null
  | boolean (b : Bool)
  | number (n : Int)
  | string (s : Str)
  | array (elements : List Json)
  | object (fields : List (String × Json))

/-- The members of an object. -/
abbrev Fields := List (String × Json)

/-- `j[key] = value`. -/
def Fields.set (key : String) (value : Json) : Fields → Fields
  | [] => [(key, value)]
  | (k, v) :: fields =>
    if key < k then (key, value) :: (k, v) :: fields
    else if key = k then (key, value) :: fields
    else (k, v) :: Fields.set key value fields

/-- The object of an initializer list. -/
def Fields.ofList (members : List (String × Json)) : Fields :=
  members.foldl (fun fields (key, value) ↦ fields.set key value) []

namespace Json

def typeName : Json → String
  | .null => "null"
  | .boolean _ => "boolean"
  | .number _ => "number"
  | .string _ => "string"
  | .array _ => "array"
  | .object _ => "object"

def find (key : String) : Json → Option Json
  | .object fields => fields.lookup key
  | _ => none

def atKey (key : String) : Json → Except Fault Json
  | .object fields =>
    match fields.lookup key with
    | some value => .ok value
    | none => .error (.runtime
        ("[json.exception.out_of_range.403] key '" ++ key ++ "' not found").toList)
  | j => .error (.runtime
      ("[json.exception.type_error.304] cannot use at() with " ++ j.typeName).toList)

/-- The exception of `get` for a value of another type. -/
def mistyped (expected : String) (j : Json) : Fault :=
  .runtime ("[json.exception.type_error.302] type must be " ++ expected ++ ", but is " ++
    j.typeName).toList

def getString : Json → Except Fault Str
  | .string s => .ok s
  | j => .error (mistyped "string" j)

def getBool : Json → Except Fault Bool
  | .boolean b => .ok b
  | j => .error (mistyped "boolean" j)

def getUint64 : Json → Except Fault Nat
  | .number n => .ok (BitVec.ofInt 64 n).toNat
  | j => .error (mistyped "number" j)

/-- `get<int>` also takes a boolean. -/
def getInt : Json → Except Fault Int
  | .number n => .ok (BitVec.ofInt 32 n).toInt
  | .boolean b => .ok b.toNat
  | j => .error (mistyped "number" j)

def getVector {α : Type} (read : Json → Except Fault α) : Json → Except Fault (List α)
  | .array elements => elements.mapM read
  | j => .error (mistyped "array" j)

/-- `j[i]`, which no bound is checked for. -/
def element (i : Nat) : Json → Except Fault Json
  | .array elements => .ok (elements.getD i .null)
  | j => .error (.runtime ("[json.exception.type_error.305] cannot use operator[] " ++
      "with a numeric argument with " ++ j.typeName).toList)

end Json

/-- The printer and the parser of the JSON library; a text that is no document is discarded. -/
structure JsonText where
  dump : Json → Str
  parse : Str → Option Json

/-- The document is read as it was printed. -/
def JsonText.Reads (text : JsonText) (j : Json) : Prop := text.parse (text.dump j) = some j

section

variable {key k : String} {value : Json} {fields : Fields}

theorem Fields.lookup_set :
    (fields.set key value).lookup k = if k = key then some value else fields.lookup k := by
  by_cases hk : k = key
  · subst hk
    rw [if_pos rfl]
    induction fields with
    | nil => simp [Fields.set]
    | cons member fields ih =>
      obtain ⟨k', v'⟩ := member
      rw [Fields.set]
      split
      · simp
      · split
        · simp
        · rename_i hne
          have hk' : (k == k') = false := beq_eq_false_iff_ne.mpr hne
          rw [List.lookup_cons, hk']
          exact ih
  · rw [if_neg hk]
    have hkey : (k == key) = false := beq_eq_false_iff_ne.mpr hk
    induction fields with
    | nil => simp [Fields.set, List.lookup_cons, hkey]
    | cons member fields ih =>
      obtain ⟨k', v'⟩ := member
      rw [Fields.set]
      split
      · rw [List.lookup_cons, hkey]
      · split
        · rename_i heq
          subst heq
          rw [List.lookup_cons, List.lookup_cons, hkey]
        · rw [List.lookup_cons, List.lookup_cons, ih]

theorem Json.atKey_set :
    (Json.object (fields.set key value)).atKey k =
      if k = key then .ok value else (Json.object fields).atKey k := by
  simp only [Json.atKey, Fields.lookup_set]
  by_cases hk : k = key
  · simp [hk]
  · simp [hk]

theorem Json.find_set :
    (Json.object (fields.set key value)).find k =
      if k = key then some value else (Json.object fields).find k := Fields.lookup_set

theorem Json.getUint64_number {n : Nat} (h : n < 2 ^ 64) : (Json.number n).getUint64 = .ok n := by
  rw [Json.getUint64, BitVec.toNat_ofInt, Except.ok.injEq]
  omega

theorem Json.getInt_number {n : Int} (h : -2 ^ 31 ≤ n ∧ n < 2 ^ 31) :
    (Json.number n).getInt = .ok n := by
  rw [Json.getInt, Except.ok.injEq, BitVec.toInt_ofInt]
  exact Int.bmod_eq_of_le (by omega) (by omega)

theorem Json.getVector_map {α : Type} {read : Json → Except Fault α} {write : α → Json}
    {xs : List α} (h : ∀ x ∈ xs, read (write x) = .ok x) :
    (Json.array (xs.map write)).getVector read = .ok xs := by
  rw [Json.getVector, mapM_eq_ok, List.forall₂_map_left_iff]
  exact List.forall₂_same.mpr h

end

end Spkdfs
