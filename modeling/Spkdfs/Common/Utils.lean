import Spkdfs.Library.Components

namespace Spkdfs

open Library

/-- A `std::string`, as the list of its characters. -/
abbrev Str := List Char

instance : LawfulBEq Str := inferInstance

def root : Str := ['/']
def dot : Str := ['.']
def dotdot : Str := ['.', '.']

def isSkipped (name : Str) : Bool := name = [] ∨ name = dot

def components (path : Str) : List Str :=
  resolve isSkipped dotdot (path.head? == some '/') (path.splitOn '/')

/-- `std::filesystem::path::lexically_normal` with POSIX paths. -/
def lexicallyNormal (path : Str) : Str :=
  if path = [] then []
  else
    let rooted := path.head? == some '/'
    let names := path.splitOn '/'
    let kept := components path
    -- the separator after a directory outlives the name that followed it and vanished
    let trailing := kept ≠ [] ∧ kept.getLast? ≠ some dotdot ∧
      (names.getLast? = some [] ∨ names.getLast? = some dot ∨ names.getLast? = some dotdot)
    let res := (if rooted then root else []) ++ ['/'].intercalate kept ++
      (if trailing then ['/'] else [])
    if res = [] then dot else res

def simplifyPath (path : Str) : Str :=
  let res := lexicallyNormal path
  if res.length > 1 ∧ res.getLast? = some '/' then res.dropLast else res

/-- `std::filesystem::path::parent_path`; a path without a relative part is its own parent. -/
def getParentPath (path : Str) : Str :=
  if path.all (· == '/') then path
  else
    let dir := dirPart '/' path
    let parent := (dir.reverse.dropWhile (· == '/')).reverse
    if parent = [] then dir.take 1 else parent

def filename (path : Str) : Str := basePart '/' path

def render (rooted : Bool) (names : List Str) : Str :=
  if rooted then '/' :: ['/'].intercalate names
  else if names = [] then dot else ['/'].intercalate names

/-- Resolved components that are names: not empty and without a separator. -/
structure Canonical (rooted : Bool) (names : List Str) : Prop where
  resolved : Resolved isSkipped dotdot rooted names
  plain : ∀ name ∈ names, '/' ∉ name

namespace Canonical

variable {rooted : Bool} {names : List Str} {name : Str}

theorem nil : Canonical rooted [] := ⟨Resolved.nil, by simp⟩

theorem ne_nil (h : Canonical rooted names) (hn : name ∈ names) : name ≠ [] := by
  rintro rfl
  exact absurd (h.resolved.kept [] hn) (by decide)

theorem dropLast (h : Canonical rooted (names ++ [name])) : Canonical rooted names :=
  ⟨h.resolved.dropLast, fun n hn ↦ h.plain n (List.mem_append_left _ hn)⟩

theorem of_split (path : Str) :
    Canonical rooted (resolve isSkipped dotdot rooted (path.splitOn '/')) :=
  ⟨resolved_resolve _, fun _ hn ↦ notMem_of_mem_splitOn '/' (mem_of_mem_resolve hn)⟩

theorem getLast_ne (h : Canonical rooted names) : (['/'].intercalate names).getLast? ≠ some '/' := by
  rcases List.eq_nil_or_concat' names with rfl | ⟨ns, n, rfl⟩
  · simp
  · rw [getLast_intercalate (h.ne_nil (by simp))]
    exact fun hl ↦ h.plain n (by simp) (List.mem_of_getLast? hl)

end Canonical

theorem intercalate_ne_nil {rooted : Bool} {names : List Str} (h : Canonical rooted names)
    (hn : names ≠ []) : ['/'].intercalate names ≠ [] := by
  obtain ⟨ns, n, rfl⟩ := (List.eq_nil_or_concat' names).resolve_left hn
  have hl : (['/'].intercalate (ns ++ [n])).getLast? = n.getLast? :=
    getLast_intercalate (h.ne_nil (by simp))
  intro he
  rw [he] at hl
  exact h.ne_nil (by simp) (List.getLast?_eq_none_iff.mp hl.symm)

theorem render_ne_nil (rooted : Bool) {names : List Str} (h : Canonical rooted names) :
    render rooted names ≠ [] := by
  cases rooted with
  | true => simp [render]
  | false =>
    by_cases hn : names = []
    · simp [render, hn, dot]
    · simpa [render, hn] using intercalate_ne_nil h hn

theorem getLast_render {rooted : Bool} {names : List Str} (h : Canonical rooted names)
    (hn : names ≠ []) : (render rooted names).getLast? ≠ some '/' := by
  have hi := intercalate_ne_nil h hn
  have hl := h.getLast_ne
  cases rooted with
  | true => simpa [render, List.getLast?_cons_of_ne_nil hi] using hl
  | false => simpa [render, hn] using hl

theorem canonical_components (path : Str) :
    Canonical (path.head? == some '/') (components path) := .of_split path

theorem lexicallyNormal_cases {path : Str} (hp : path ≠ []) :
    lexicallyNormal path = render (path.head? == some '/') (components path) ∨
      components path ≠ [] ∧
        lexicallyNormal path = render (path.head? == some '/') (components path) ++ ['/'] := by
  have hc := canonical_components path
  unfold lexicallyNormal
  simp only [if_neg hp]
  generalize (path.head? == some '/') = rooted at hc ⊢
  generalize components path = kept at hc ⊢
  by_cases hk : kept = []
  · subst hk
    left
    cases rooted <;> simp [render, root]
  · have hi := intercalate_ne_nil hc hk
    cases rooted <;> simp only [render, root, if_true, Bool.false_eq_true, if_false, hk]
    all_goals split_ifs <;> simp_all

theorem simplifyPath_eq {path : Str} (hp : path ≠ []) :
    simplifyPath path = render (path.head? == some '/') (components path) := by
  have hc := canonical_components path
  have hne := render_ne_nil _ hc
  unfold simplifyPath
  rcases lexicallyNormal_cases hp with he | ⟨hk, he⟩
  · rw [he]
    by_cases hk : components path = []
    · rw [hk]
      cases path.head? == some '/' <;> decide
    · exact if_neg fun h ↦ getLast_render hc hk h.2
  · have hpos := List.length_pos_iff.mpr hne
    rw [he, if_pos ⟨by simp; omega, by simp⟩, List.dropLast_concat]

theorem simplifyPath_ne_nil {path : Str} (h : path ≠ []) : simplifyPath path ≠ [] := by
  rw [simplifyPath_eq h]
  exact render_ne_nil _ (canonical_components path)

theorem head_render {rooted : Bool} {names : List Str} (h : Canonical rooted names) :
    ((render rooted names).head? == some '/') = rooted := by
  cases rooted with
  | true => simp [render]
  | false =>
    cases names with
    | nil => decide
    | cons n ns =>
      cases n with
      | nil => exact absurd rfl (h.ne_nil (List.mem_cons_self : [] ∈ [] :: ns))
      | cons c n =>
        have hc : c ≠ '/' := fun he ↦ h.plain (c :: n) (by simp) (by simp [he])
        cases ns <;> simp [render, List.intercalate_cons_cons, hc]

theorem components_render {rooted : Bool} {names : List Str} (h : Canonical rooted names) :
    components (render rooted names) = names := by
  have hfix := resolve_of_resolved h.resolved
  rw [components, head_render h]
  by_cases hn : names = []
  · subst hn
    cases rooted <;> decide
  have hsplit := List.splitOn_intercalate '/' h.plain hn
  cases rooted with
  | true =>
    rw [render, if_pos rfl, splitOn_cons_self, hsplit]
    exact hfix
  | false => simpa [render, hn, hsplit] using hfix

theorem simplifyPath_render {rooted : Bool} {names : List Str} (h : Canonical rooted names) :
    simplifyPath (render rooted names) = render rooted names := by
  rw [simplifyPath_eq (render_ne_nil _ h), head_render h, components_render h]

theorem simplifyPath_idem (path : Str) :
    simplifyPath (simplifyPath path) = simplifyPath path := by
  by_cases hp : path = []
  · subst hp
    rfl
  · rw [simplifyPath_eq hp, simplifyPath_render (canonical_components path)]

theorem ne_nil_of_rooted {path : Str} (h : path.head? = some '/') : path ≠ [] := by
  rintro rfl
  cases h

/-- A path as `Inode::set_fullpath` leaves it. -/
structure FullPath where
  str : Str
  simplified : simplifyPath str = str
deriving DecidableEq

namespace FullPath

@[ext] theorem ext {p q : FullPath} (h : p.str = q.str) : p = q := by
  cases p
  cases q
  congr

def ofStr (path : Str) : FullPath := ⟨simplifyPath path, simplifyPath_idem path⟩

@[simp] theorem str_ofStr (path : Str) : (ofStr path).str = simplifyPath path := rfl

@[simp] theorem ofStr_str (p : FullPath) : ofStr p.str = p := FullPath.ext p.simplified

theorem eq_render (p : FullPath) :
    p.str = [] ∨ ∃ rooted names, Canonical rooted names ∧ p.str = render rooted names := by
  by_cases hp : p.str = []
  · exact .inl hp
  · exact .inr ⟨_, _, canonical_components p.str, p.simplified.symm.trans (simplifyPath_eq hp)⟩

end FullPath

def joinPath (dir name : Str) : Str :=
  if dir = [] then name else if dir = root then '/' :: name else dir ++ '/' :: name

theorem trim_append {text : Str} (h : text.getLast? ≠ some '/') :
    ((text ++ ['/']).reverse.dropWhile (· == '/')).reverse = text := by
  rcases List.eq_nil_or_concat' text with rfl | ⟨t, c, rfl⟩
  · rfl
  · have hc : c ≠ '/' := by simpa using h
    simp [hc]

theorem not_all_slash (text : Str) {name : Str} (hs : '/' ∉ name) (hn : name ≠ []) :
    ¬ (text ++ name).all (· == '/') = true := by
  obtain ⟨c, hc⟩ := List.exists_mem_of_ne_nil name hn
  simp only [List.all_append, Bool.and_eq_true, not_and, List.all_eq_true, beq_iff_eq]
  intro _ hall
  exact hs (hall c hc ▸ hc)

theorem getParentPath_append (text : Str) {name : Str} (hs : '/' ∉ name) (hn : name ≠ [])
    (hl : text.getLast? ≠ some '/') :
    getParentPath (text ++ '/' :: name) = if text = [] then root else text := by
  have hall : ¬ (text ++ '/' :: name).all (· == '/') = true := by
    simpa using not_all_slash (text ++ ['/']) hs hn
  rw [getParentPath, if_neg hall]
  simp only [dirPart_append text hs, trim_append hl]
  split_ifs with h
  · simp [h, root]
  · rfl

theorem getParentPath_of_notMem {name : Str} (hs : '/' ∉ name) : getParentPath name = [] := by
  by_cases hn : name = []
  · subst hn
    rfl
  have hall := not_all_slash [] hs hn
  rw [List.nil_append] at hall
  rw [getParentPath, if_neg hall]
  simp [dirPart_of_notMem hs]

def renderParent (rooted : Bool) (names : List Str) : Str :=
  if names = [] then if rooted then root else [] else render rooted names

theorem renderParent_true (names : List Str) : renderParent true names = render true names := by
  by_cases hn : names = [] <;> simp [renderParent, render, hn, root]

theorem render_concat {rooted : Bool} {names : List Str} {name : Str}
    (h : Canonical rooted (names ++ [name])) :
    render rooted (names ++ [name]) = joinPath (renderParent rooted names) name := by
  by_cases hn : names = []
  · subst hn
    cases rooted <;> simp [render, renderParent, joinPath, root]
  · have hr : render rooted names ≠ [] := render_ne_nil _ h.dropLast
    have hroot : render rooted names ≠ root := by
      intro he
      exact getLast_render h.dropLast hn (by simp [he, root])
    rw [renderParent, if_neg hn, joinPath, if_neg hr, if_neg hroot]
    cases rooted <;> simp [render, intercalate_concat '/' hn, hn]

theorem parent_and_name {rooted : Bool} {names : List Str} {name : Str}
    (h : Canonical rooted (names ++ [name])) :
    getParentPath (render rooted (names ++ [name])) = renderParent rooted names ∧
      filename (render rooted (names ++ [name])) = name := by
  have hs : '/' ∉ name := h.plain name (by simp)
  have hne : name ≠ [] := h.ne_nil (by simp)
  rw [render_concat h]
  by_cases hn : names = []
  · subst hn
    cases rooted with
    | true =>
      have hp := getParentPath_append [] hs hne (by simp)
      have hf := basePart_append [] hs
      exact ⟨by simpa [renderParent, joinPath, root] using hp,
        by simpa [filename, renderParent, joinPath, root] using hf⟩
    | false =>
      exact ⟨getParentPath_of_notMem hs, basePart_of_notMem hs⟩
  · have hl := getLast_render h.dropLast hn
    have hr : render rooted names ≠ [] := render_ne_nil _ h.dropLast
    have hroot : render rooted names ≠ root := fun he ↦ hl (by simp [he, root])
    rw [renderParent, if_neg hn, joinPath, if_neg hr, if_neg hroot]
    exact ⟨(getParentPath_append _ hs hne hl).trans (if_neg hr), basePart_append _ hs⟩

theorem simplifyPath_renderParent {rooted : Bool} {names : List Str}
    (h : Canonical rooted names) :
    simplifyPath (renderParent rooted names) = renderParent rooted names := by
  by_cases hn : names = []
  · subst hn
    cases rooted <;> decide
  · rw [renderParent, if_neg hn, simplifyPath_render h]

namespace FullPath

theorem cases_names (p : FullPath) :
    p.str = [] ∨ p.str = root ∨ p.str = dot ∨
      ∃ rooted names name, Canonical rooted (names ++ [name]) ∧
        p.str = render rooted (names ++ [name]) := by
  rcases p.eq_render with h | ⟨rooted, names, hc, h⟩
  · exact .inl h
  rcases List.eq_nil_or_concat' names with rfl | ⟨ns, n, rfl⟩
  · cases rooted with
    | true => exact .inr (.inl h)
    | false => exact .inr (.inr (.inl h))
  · exact .inr (.inr (.inr ⟨rooted, ns, n, hc, h⟩))

theorem simplified_parent (p : FullPath) :
    simplifyPath (getParentPath p.str) = getParentPath p.str := by
  rcases p.cases_names with h | h | h | ⟨rooted, names, name, hc, h⟩
  · rw [h]; decide
  · rw [h]; decide
  · rw [h]; decide
  · rw [h, (parent_and_name hc).1, simplifyPath_renderParent hc.dropLast]

def parent (p : FullPath) : FullPath := ⟨getParentPath p.str, p.simplified_parent⟩

@[simp] theorem str_parent (p : FullPath) : p.parent.str = getParentPath p.str := rfl

theorem joinPath_parent (p : FullPath) : joinPath p.parent.str (filename p.str) = p.str := by
  rcases p.cases_names with h | h | h | ⟨rooted, names, name, hc, h⟩
  · rw [str_parent, h]; decide
  · rw [str_parent, h]; decide
  · rw [str_parent, h]; decide
  · obtain ⟨hp, hf⟩ := parent_and_name hc
    rw [str_parent, h, hp, hf]
    exact (render_concat hc).symm

theorem eq_of_parent_eq {p q : FullPath} (hp : p.parent = q.parent)
    (hf : filename p.str = filename q.str) : p = q := by
  ext1
  rw [← p.joinPath_parent, ← q.joinPath_parent, hp, hf]

theorem slash_notMem_filename (p : FullPath) : '/' ∉ filename p.str := by
  rcases p.cases_names with h | h | h | ⟨rooted, names, name, hc, h⟩
  · rw [h]; decide
  · rw [h]; decide
  · rw [h]; decide
  · rw [h, (parent_and_name hc).2]
    exact hc.plain name (by simp)

theorem parent_ne {p : FullPath} (hn : p.str ≠ []) (hr : p.str ≠ root) : p.parent ≠ p := by
  intro he
  have hj := p.joinPath_parent
  rcases p.cases_names with h | h | h | ⟨rooted, names, name, hc, h⟩
  · exact hn h
  · exact hr h
  · rw [h] at hj
    rw [he, h] at hj
    exact absurd hj (by decide)
  · rw [he, joinPath, if_neg hn, if_neg hr] at hj
    simp at hj

def Absolute (p : FullPath) : Prop := p.str.head? = some '/'

instance (p : FullPath) : Decidable p.Absolute := inferInstanceAs (Decidable (_ = _))

theorem absolute_ofStr {path : Str} (h : path.head? = some '/') : (ofStr path).Absolute := by
  have hc := head_render (canonical_components path)
  rw [← simplifyPath_eq (ne_nil_of_rooted h)] at hc
  simpa [h, Absolute] using hc

theorem Absolute.ne_nil {p : FullPath} (h : p.Absolute) : p.str ≠ [] := ne_nil_of_rooted h

theorem Absolute.cases_names {p : FullPath} (h : p.Absolute) :
    p.str = root ∨ ∃ names name, Canonical true (names ++ [name]) ∧
      p.str = render true (names ++ [name]) := by
  rcases p.cases_names with he | he | he | ⟨rooted, names, name, hc, he⟩
  · exact absurd he h.ne_nil
  · exact .inl he
  · rw [Absolute, he] at h
    cases h
  · have hr : rooted = true := by
      rw [← head_render hc, ← he]
      simpa [Absolute] using h
    subst hr
    exact .inr ⟨names, name, hc, he⟩

theorem Absolute.parent {p : FullPath} (h : p.Absolute) : p.parent.Absolute := by
  rw [Absolute, str_parent]
  rcases h.cases_names with he | ⟨names, name, hc, he⟩
  · rw [he]
    decide
  · rw [he, (parent_and_name hc).1, renderParent_true]
    rfl

theorem absolute_of_parent {p : FullPath} (h : p.parent.Absolute) : p.Absolute := by
  have hj := p.joinPath_parent
  rw [Absolute] at h ⊢
  rw [← hj, joinPath]
  split_ifs with h₁ h₂
  · rw [h₁] at h
    cases h
  · rfl
  · rw [List.head?_append_of_ne_nil _ h₁, h]

theorem Absolute.simplifyPath_parent {p : FullPath} (h : p.Absolute) (hr : p.str ≠ root) :
    simplifyPath (p.parent.str ++ '/' :: filename p.str) = p.str := by
  obtain ⟨names, name, hc, he⟩ := h.cases_names.resolve_left hr
  obtain ⟨hp, hf⟩ := parent_and_name hc
  have hplain : '/' ∉ name := hc.plain name (by simp)
  rw [str_parent, he, hp, hf, renderParent_true]
  have hhead : ((render true names ++ '/' :: name).head? == some '/') = true := by
    simp [render]
  have hcomp : components (render true names ++ '/' :: name) = names ++ [name] := by
    rw [components, hhead, List.splitOn_append_cons_self, List.splitOn_eq_singleton hplain]
    rw [resolve_concat (hc.resolved.kept name (by simp)) hc.resolved.last_ne]
    have hd := components_render hc.dropLast
    rw [components, head_render hc.dropLast] at hd
    rw [hd]
  rw [simplifyPath_eq (by simp), hhead, hcomp]

end FullPath

end Spkdfs
