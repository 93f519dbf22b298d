-- SUMMARY: A path leads to a place whose own path leads there as well.
import KeyExpansion.FileTree
import KeyExpansion.Proofs.Path

/-! # Places that paths lead to

A walk comes to a place through directories only, and the place is never a link. So the
names of the place lead to it too: a canonical path is canonical itself, and no other place
has the same one. -/

namespace KeyExpansion.FileTree

variable {tree : FileTree} {here place : Place} {part : String} {parts : List String} {p q : Path}

/-- A part that is looked up by its name. -/
structure IsName (part : String) : Prop where
  not_void : Path.isVoid part = false
  ne_up : part ≠ ".."
  not_mem : '/' ∉ part.toList

/-- A place in directories, at which no link stands. -/
inductive IsReached (tree : FileTree) : Place → Prop where
  | root : IsReached tree []
  | down {above : Place} {part : String} {node : FileNode} (reached : IsReached tree above)
      (directory : tree.isDirectory above = true) (name : IsName part)
      (stands : tree.node? (above ++ [part]) = some node)
      (no_link : ∀ target, node ≠ .link target) : IsReached tree (above ++ [part])

namespace IsReached

theorem dropLast (h : tree.IsReached place) : tree.IsReached place.dropLast := by
  cases h with
  | root => exact .root
  | down reached => rwa [List.dropLast_concat]

theorem isName (h : tree.IsReached place) : ∀ part ∈ place, IsName part := by
  induction h with
  | root => simp
  | down _ _ name _ _ ih => exact List.forall_mem_append.mpr ⟨ih, by simpa using name⟩

/-- The names of the place lead there. -/
theorem walk_append (h : tree.IsReached place) (parts : List String) :
    tree.walk [] (place ++ parts) = tree.walk place parts := by
  induction h generalizing parts with
  | root => rfl
  | @down above part node _ directory name stands no_link ih =>
    rw [List.append_assoc, List.singleton_append, ih, walk]
    simp only [directory, name.not_void, beq_iff_eq, name.ne_up, stands]
    cases node with
    | link target => exact absurd rfl (no_link target)
    | file | directory => rfl

end IsReached

/-! ## Walks -/

/-- A walk comes to a place that is reached, or to a link in one. -/
def Walk.EndsWell (tree : FileTree) : Walk → Prop
  | .arrived place => tree.IsReached place
  | .missing => True
  | .follow start parts => tree.IsReached start ∧ ∀ part ∈ parts, '/' ∉ part.toList

theorem endsWell_walk (hhere : tree.IsReached here) (hparts : ∀ part ∈ parts, '/' ∉ part.toList) :
    (tree.walk here parts).EndsWell tree := by
  induction parts generalizing here with
  | nil => exact hhere
  | cons part parts ih =>
    obtain ⟨hpart, hparts⟩ := List.forall_mem_cons.mp hparts
    rw [walk]
    split
    · exact trivial
    · next hdirectory =>
      split
      · exact ih hhere hparts
      · next hvoid =>
        split
        · exact ih hhere.dropLast hparts
        · next hup =>
          have hname : IsName part := ⟨by simpa using hvoid, by simpa using hup, hpart⟩
          split
          · exact trivial
          · next target _ =>
            refine ⟨?_, List.forall_mem_append.mpr ⟨target.not_mem_parts, hparts⟩⟩
            rw [linkStart]
            split
            · exact .root
            · exact hhere
          · next node hlink hnode =>
            exact ih (hhere.down (by simpa using hdirectory) hname hnode hlink) hparts

theorem isReached_of_chase {links : Nat} (hhere : tree.IsReached here)
    (hparts : ∀ part ∈ parts, '/' ∉ part.toList) (h : tree.chase links here parts = some place) :
    tree.IsReached place := by
  have hend := endsWell_walk hhere hparts
  induction links generalizing here parts with
  | zero =>
    rw [chase] at h
    split at h
    · next hwalk =>
      cases h
      rwa [hwalk] at hend
    · cases h
    · cases h
  | succ links ih =>
    rw [chase] at h
    split at h
    · next hwalk =>
      cases h
      rwa [hwalk] at hend
    · cases h
    · next hwalk =>
      rw [hwalk] at hend
      exact ih hend.1 hend.2 h (endsWell_walk hend.1 hend.2)

theorem isReached_of_locate? (h : tree.locate? p = some place) : tree.IsReached place := by
  rw [locate?] at h
  split at h
  · cases h
  · exact isReached_of_chase .root p.not_mem_parts h

/-! ## The path of a place -/

theorem walk_root (parts : List String) : tree.walk [] ("" :: parts) = tree.walk [] parts := rfl

theorem parts_pathOf_nil : (pathOf []).parts = ["", ""] := by
  decide

theorem parts_pathOf (hplace : place ≠ []) (hnames : ∀ part ∈ place, IsName part) :
    (pathOf place).parts = "" :: place :=
  Path.parts_root_intercalate hplace fun part hpart => (hnames part hpart).not_mem

/-- The path of a place leads there. -/
theorem locate?_pathOf (h : tree.locate? p = some place) : tree.locate? (pathOf place) = some place := by
  have hreached := isReached_of_locate? h
  have hwalk : tree.walk [] (pathOf place).parts = .arrived place := by
    rcases eq_or_ne place [] with rfl | hne
    · rw [parts_pathOf_nil]
      rfl
    · have hnames := hreached.walk_append []
      rw [List.append_nil] at hnames
      rw [parts_pathOf hne hreached.isName, walk_root, hnames, walk]
  have htext : (pathOf place).text ≠ "" := by
    simp [pathOf]
  rw [locate?, if_neg (by simpa using htext), chase, hwalk]

/-- A canonical path is its own. -/
theorem canonical?_canonical? (h : tree.canonical? p = some q) : tree.canonical? q = some q := by
  obtain ⟨place, hplace, rfl⟩ := Option.map_eq_some_iff.mp h
  rw [canonical?, locate?_pathOf hplace]
  rfl

/-- Paths with one canonical path lead to one place. -/
theorem locate?_eq_of_canonical? {r : Path} (hp : tree.canonical? p = some r)
    (hq : tree.canonical? q = some r) : tree.locate? p = tree.locate? q := by
  obtain ⟨place, hplace, rfl⟩ := Option.map_eq_some_iff.mp hp
  obtain ⟨other, hother, hpath⟩ := Option.map_eq_some_iff.mp hq
  rw [hplace, hother, ← locate?_pathOf hplace, ← hpath, locate?_pathOf hother]

/-- Paths with one canonical path lead to one text. -/
theorem text?_eq_of_canonical? {r : Path} (hp : tree.canonical? p = some r)
    (hq : tree.canonical? q = some r) : tree.text? p = tree.text? q := by
  rw [text?, text?, content?, content?, locate?_eq_of_canonical? hp hq]

end KeyExpansion.FileTree
