import Mathlib.Data.List.Nodup
import Mathlib.Logic.Function.Basic
import Spkdfs.Library.Directory

namespace Spkdfs

open Library

structure Bucket (K V : Type) where
  list : List (K × V) := []
  size : Nat
  depth : Nat

namespace Bucket

variable {K V : Type} [DecidableEq K]

def isFull (b : Bucket K V) : Bool := b.list.length = b.size

def incrementDepth (b : Bucket K V) : Bucket K V := { b with depth := b.depth + 1 }

/-- Whether the key is there, and what the reference to a value holds afterwards. -/
def find (b : Bucket K V) (key : K) (value : V) : Bool × V :=
  match b.list.find? (·.1 = key) with
  | some element => (true, element.2)
  | none => (false, value)

def remove (b : Bucket K V) (key : K) : Bool × Bucket K V :=
  match b.list.find? (·.1 = key) with
  | some _ => (true, { b with list := b.list.eraseP (·.1 = key) })
  | none => (false, b)

/-- The value of the first pair with the key is set. -/
def assign (key : K) (value : V) : List (K × V) → List (K × V)
  | [] => []
  | element :: list =>
    if element.1 = key then (element.1, value) :: list else element :: assign key value list

def insert (b : Bucket K V) (key : K) (value : V) : Bool × Bucket K V :=
  match b.list.find? (·.1 = key) with
  | some _ => (true, { b with list := assign key value b.list })
  | none => if b.isFull then (false, b) else (true, { b with list := b.list ++ [(key, value)] })

end Bucket

/-- A pointer to a bucket is its place in `heap`, where every bucket that was made stays. The masks of
the hash are exact as long as the global depth is at most 30. -/
structure ExtendibleHashTable (K V : Type) where
  globalDepth : Nat
  bucketSize : Nat
  numBuckets : Nat
  dir : List (Option Nat)
  heap : List (Bucket K V)

namespace ExtendibleHashTable

variable {K V : Type}

/-- The constructor. -/
def new (bucketSize : Nat) : ExtendibleHashTable K V where
  globalDepth := 0
  bucketSize
  numBuckets := 1
  dir := [some 0]
  heap := [{ size := bucketSize, depth := 0 }]

def indexOf (hash : K → Nat) (t : ExtendibleHashTable K V) (key : K) : Nat :=
  hash key &&& ((1 <<< t.globalDepth) - 1)

/-- `dir_[index]` with the bucket it points to. -/
def bucketAt (t : ExtendibleHashTable K V) (index : Nat) : Option (Nat × Bucket K V) := do
  let p ← (← t.dir[index]?)
  return (p, ← t.heap[p]?)

def store (t : ExtendibleHashTable K V) (p : Nat) (b : Bucket K V) : ExtendibleHashTable K V :=
  { t with heap := t.heap.set p b }

variable [DecidableEq K] (hash : K → Nat)

def find (t : ExtendibleHashTable K V) (key : K) (value : V) : Option (Bool × V) := do
  let (_, bucket) ← t.bucketAt (t.indexOf hash key)
  return bucket.find key value

def remove (t : ExtendibleHashTable K V) (key : K) : Option (Bool × ExtendibleHashTable K V) := do
  let (p, bucket) ← t.bucketAt (t.indexOf hash key)
  let (removed, bucket) := bucket.remove key
  return (removed, t.store p bucket)

/-- The loop over the directory from `i` on. -/
def redirect (p even odd oldDepth : Nat) : Nat → Nat → List (Option Nat) → List (Option Nat)
  | 0, _, dir => dir
  | fuel + 1, i, dir =>
    if i < dir.length then
      redirect p even odd oldDepth fuel (i + 2 ^ oldDepth) <|
        if dir[i]? = some none ∨ dir[i]? = some (some p) then
          dir.set i (some (if (i >>> oldDepth) &&& 1 = 0 then even else odd))
        else dir
    else dir

/-- The loop over the items of the bucket that was full. -/
def reinsert (t : ExtendibleHashTable K V) :
    List (K × V) → Option (ExtendibleHashTable K V)
  | [] => some t
  | (key, value) :: items => do
    let (p, bucket) ← t.bucketAt (t.indexOf hash key)
    reinsert (t.store p (bucket.insert key value).2) items

def redistributeBucket (t : ExtendibleHashTable K V) (p : Nat) (bucket : Bucket K V)
    (index : Nat) : Option (ExtendibleHashTable K V) :=
  let oldDepth := bucket.depth
  let bucket := bucket.incrementDepth
  let newBucket : Bucket K V := { size := t.bucketSize, depth := bucket.depth }
  let even := t.heap.length
  let odd := t.heap.length + 1
  reinsert hash
    { t with
      heap := t.heap.set p bucket ++ [newBucket, newBucket]
      numBuckets := t.numBuckets + 1
      dir := redirect p even odd oldDepth t.dir.length (index % 2 ^ oldDepth) t.dir }
    bucket.list.reverse

/-- The loop that makes the new half of the directory point to the buckets of the old half. -/
def fillNull (dir : List (Option Nat)) : List (Option Nat) :=
  let oldDirSize := dir.length >>> 1
  (List.range' oldDirSize (dir.length - oldDirSize)).foldl (fun dir i ↦
    if dir[i]? = some none then dir.set i (dir[i - oldDirSize]?).join else dir) dir

def resize (n : Nat) (dir : List (Option Nat)) : List (Option Nat) :=
  dir.take n ++ List.replicate (n - dir.length) none

/-- One turn of the loop of `Insert`, in which the bucket at the index is full. -/
def splitBucket (t : ExtendibleHashTable K V) (p : Nat) (bucket : Bucket K V) (index : Nat) :
    Option (ExtendibleHashTable K V) :=
  if bucket.depth = t.globalDepth then do
    let globalDepth := t.globalDepth + 1
    let t ← redistributeBucket hash
      { t with globalDepth, dir := resize (2 ^ globalDepth) t.dir } p bucket index
    return { t with dir := fillNull t.dir }
  else redistributeBucket hash t p bucket index

/-- `Insert`, if its loop ends within so many turns. -/
def insert (t : ExtendibleHashTable K V) (key : K) (value : V) :
    Nat → Option (ExtendibleHashTable K V)
  | 0 => none
  | fuel + 1 => do
    let index := t.indexOf hash key
    let (p, bucket) ← t.bucketAt index
    match bucket.insert key value with
    | (true, bucket) => return t.store p bucket
    | (false, _) => insert (← splitBucket hash t p bucket index) key value fuel

end ExtendibleHashTable

end Spkdfs
