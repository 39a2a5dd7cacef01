import Mathlib.Logic.Function.Iterate
import Spkdfs.Common.Inode

namespace Spkdfs

open Library

/-- A string as the store takes it for a key. -/
structure PathKey (path : Str) : Prop where
  rooted : path.head? = some '/'
  names : path ≠ root → ∀ name ∈ path.tail.splitOn '/', name ≠ [] ∧ name ≠ dot ∧ name ≠ dotdot
  trailing : path ≠ root → path.getLast? ≠ some '/'
  fixed : simplifyPath path = path

/-- The rules of lexical resolution lead from the components of the path to these names. -/
def ResolvesTo (path : Str) (names : List Str) : Prop :=
  Relation.ReflTransGen (Rewrites isSkipped dotdot (path.head? == some '/')) (path.splitOn '/') names

variable {path other : Str} {names : List Str}

theorem isSkipped_dotdot : isSkipped dotdot = false := by decide

theorem simplifyPath_of_rooted (h : path.head? = some '/') :
    simplifyPath path = render true (components path) := by
  rw [simplifyPath_eq (ne_nil_of_rooted h), h, beq_self_eq_true]

theorem canonical_of_rooted (h : path.head? = some '/') : Canonical true (components path) := by
  have hc := canonical_components path
  rwa [h, beq_self_eq_true] at hc

theorem Canonical.ne_dot {rooted : Bool} (h : Canonical rooted names) : dot ∉ names := by
  intro hn
  exact absurd (h.resolved.kept dot hn) (by decide)

theorem Canonical.ne_dotdot (h : Canonical true names) : dotdot ∉ names := by
  obtain ⟨n, rest, he, hrest, hn⟩ := h.resolved.lead
  rw [he, hn rfl]
  exact hrest

theorem render_eq_root_iff (h : Canonical true names) : render true names = root ↔ names = [] := by
  constructor
  · intro he
    by_contra hne
    exact getLast_render h hne (by rw [he]; rfl)
  · rintro rfl
    rfl

theorem pathKey_render (h : Canonical true names) : PathKey (render true names) where
  rooted := rfl
  names hr name hname := by
    have hne : names ≠ [] := fun he ↦ hr ((render_eq_root_iff h).mpr he)
    have htail : (render true names).tail = ['/'].intercalate names := rfl
    rw [htail, List.splitOn_intercalate '/' h.plain hne] at hname
    refine ⟨h.ne_nil hname, ?_, ?_⟩
    · rintro rfl
      exact h.ne_dot hname
    · rintro rfl
      exact h.ne_dotdot hname
  trailing hr := getLast_render h fun he ↦ hr ((render_eq_root_iff h).mpr he)
  fixed := simplifyPath_render h

theorem pathKey_simplifyPath (h : path.head? = some '/') : PathKey (simplifyPath path) := by
  rw [simplifyPath_of_rooted h]
  exact pathKey_render (canonical_of_rooted h)

/-- The spellings of one key are those that resolve to the same names. -/
theorem simplifyPath_eq_iff (h : path.head? = some '/') (ho : other.head? = some '/') :
    simplifyPath path = simplifyPath other ↔
      ∃ names, ResolvesTo path names ∧ ResolvesTo other names := by
  have hjoin : (∃ names, ResolvesTo path names ∧ ResolvesTo other names) ↔
      components path = components other := by
    simp only [ResolvesTo, components, h, ho, beq_self_eq_true]
    exact join_rewrites_iff isSkipped_dotdot
  rw [hjoin, simplifyPath_of_rooted h, simplifyPath_of_rooted ho]
  constructor
  · intro he
    rw [← components_render (canonical_of_rooted h), he, components_render (canonical_of_rooted ho)]
  · intro he
    rw [he]

namespace FullPath

variable {p : FullPath}

theorem filename_ne_nil (h : p.Absolute) (hr : p.str ≠ root) : filename p.str ≠ [] := by
  obtain ⟨names, name, hc, he⟩ := h.cases_names.resolve_left hr
  rw [he, (parent_and_name hc).2]
  exact hc.ne_nil (by simp)

theorem length_parent_lt (h : p.Absolute) (hr : p.str ≠ root) :
    p.parent.str.length < p.str.length := by
  have hname := List.length_pos_iff.mpr (filename_ne_nil h hr)
  have hjoin := congrArg List.length p.joinPath_parent
  rw [joinPath, if_neg h.parent.ne_nil] at hjoin
  by_cases hroot : p.parent.str = root
  · rw [if_pos hroot, List.length_cons] at hjoin
    rw [hroot, root, List.length_singleton]
    omega
  · rw [if_neg hroot, List.length_append, List.length_cons] at hjoin
    omega

theorem exists_iterate_parent (h : p.Absolute) : ∃ k, getParentPath^[k] p.str = root := by
  induction hlength : p.str.length using Nat.strong_induction_on generalizing p with
  | h length ih =>
    by_cases hr : p.str = root
    · exact ⟨0, hr⟩
    · have hlt := length_parent_lt h hr
      rw [hlength] at hlt
      obtain ⟨k, hk⟩ := ih p.parent.str.length hlt h.parent rfl
      exact ⟨k + 1, hk⟩

theorem pathKey (h : p.Absolute) : PathKey p.str := by
  rw [← p.simplified]
  exact pathKey_simplifyPath h

end FullPath

/-- What `simplify_path` makes of a path that begins with a slash is a key; it is the same key
exactly for the spellings that resolve to the same names, the key of the parent and the name give it
back, and the parents lead to the root. -/
theorem simplifyPath_canonical (h : path.head? = some '/') :
    PathKey (simplifyPath path) ∧
      (∀ other : Str, other.head? = some '/' →
        (simplifyPath path = simplifyPath other ↔
          ∃ names, ResolvesTo path names ∧ ResolvesTo other names)) ∧
      (simplifyPath path ≠ root →
        PathKey (getParentPath (simplifyPath path)) ∧
          (getParentPath (simplifyPath path)).length < (simplifyPath path).length ∧
          simplifyPath (getParentPath (simplifyPath path) ++ '/' :: filename (simplifyPath path)) =
            simplifyPath path) ∧
      ∃ k, getParentPath^[k] (simplifyPath path) = root := by
  have habsolute : (FullPath.ofStr path).Absolute := FullPath.absolute_ofStr h
  refine ⟨pathKey_simplifyPath h, fun other ho ↦ simplifyPath_eq_iff h ho, fun hr ↦ ?_,
    FullPath.exists_iterate_parent habsolute⟩
  exact ⟨FullPath.pathKey habsolute.parent, FullPath.length_parent_lt habsolute hr,
    habsolute.simplifyPath_parent hr⟩

theorem simplifyPath_canonical_dots :
    "/../a//./b/..".toList.head? = some '/' ∧ simplifyPath "/../a//./b/..".toList = "/a".toList ∧
      PathKey (simplifyPath "/../a//./b/..".toList) := by
  have h : "/../a//./b/..".toList.head? = some '/' := by decide
  exact ⟨h, by decide, (simplifyPath_canonical h).1⟩

end Spkdfs
