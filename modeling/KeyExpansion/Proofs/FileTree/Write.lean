-- SUMMARY: A text that has been written to a path is read there.
import KeyExpansion.FileTree
import Mathlib.Data.List.Basic

/-! # Writing to a file tree

Writing changes what stands at one place, where a file stood or nothing. So every way that led
somewhere leads there still, and the way to the path that was written to leads to that place. -/

namespace KeyExpansion.FileTree

variable {tree : FileTree} {here place : Place} {parts more : List String} {p : Path} {links : Nat}
  {content : Content}

/-! ## Ways in several parts -/

/-- How a walk goes on behind another one. -/
def Walk.andThen (tree : FileTree) (more : List String) : Walk → Walk
  | .arrived place => tree.walk place more
  | .missing => .missing
  | .follow start parts => .follow start (parts ++ more)

theorem walk_append_parts (here : Place) (parts more : List String) :
    tree.walk here (parts ++ more) = (tree.walk here parts).andThen tree more := by
  induction parts generalizing here with
  | nil => rfl
  | cons part parts ih =>
    rw [List.cons_append, walk, walk]
    split
    · rfl
    · split
      · exact ih here
      · split
        · exact ih here.dropLast
        · split
          · rfl
          · rw [Walk.andThen, List.append_assoc]
          · exact ih (here ++ [part])

/-- How a way leads to a place: without a link on it, or through the first one. -/
inductive Reaches (tree : FileTree) (place : Place) : Nat → Place → List String → Prop where
  | arrived {links : Nat} {here : Place} {parts : List String}
      (way : tree.walk here parts = .arrived place) : Reaches tree place links here parts
  | follow {links : Nat} {here start : Place} {parts further : List String}
      (way : tree.walk here parts = .follow start further)
      (rest : Reaches tree place links start further) : Reaches tree place (links + 1) here parts

theorem chase_eq_some : tree.chase links here parts = some place ↔
    tree.Reaches place links here parts := by
  constructor
  · intro h
    induction links generalizing here parts with
    | zero =>
      rw [chase] at h
      split at h
      · next hway => exact .arrived (Option.some.inj h ▸ hway)
      · cases h
      · cases h
    | succ links ih =>
      rw [chase] at h
      split at h
      · next hway => exact .arrived (Option.some.inj h ▸ hway)
      · cases h
      · next hway => exact .follow hway (ih h)
  · intro h
    induction h with
    | arrived way => rw [chase, way]
    | follow way _ ih =>
      rw [chase, way]
      exact ih

/-- A way that leads somewhere leads there with more links as well. -/
theorem Reaches.mono {fewer : Nat} (h : tree.Reaches place fewer here parts) (hle : fewer ≤ links) :
    tree.Reaches place links here parts := by
  induction h generalizing links with
  | arrived way => exact .arrived way
  | follow way _ ih =>
    obtain ⟨links, rfl⟩ := Nat.exists_eq_succ_of_ne_zero (Nat.ne_zero_of_lt hle)
    exact .follow way (ih (Nat.le_of_succ_le_succ hle))

theorem Reaches.unique {links' : Nat} {place' : Place} (h : tree.Reaches place links here parts)
    (h' : tree.Reaches place' links' here parts) : place = place' := by
  have hmost := chase_eq_some.mpr (h.mono (Nat.le_max_left links links'))
  rw [chase_eq_some.mpr (h'.mono (Nat.le_max_right links links'))] at hmost
  exact (Option.some.inj hmost).symm

/-- A way leads on from where its first part leads. -/
theorem Reaches.split (h : tree.Reaches place links here (parts ++ more)) : ∃ middle left,
    tree.Reaches middle links here parts ∧ tree.Reaches place left middle more := by
  generalize hwhole : parts ++ more = whole at h
  induction h generalizing parts with
  | arrived way =>
    rw [← hwhole, walk_append_parts] at way
    cases hfirst : tree.walk _ parts with
    | arrived middle =>
      rw [hfirst] at way
      exact ⟨middle, 0, .arrived hfirst, .arrived way⟩
    | missing =>
      rw [hfirst] at way
      cases way
    | follow start parts =>
      rw [hfirst] at way
      cases way
  | follow way rest ih =>
    rw [← hwhole, walk_append_parts] at way
    cases hfirst : tree.walk _ parts with
    | arrived middle =>
      rw [hfirst] at way
      exact ⟨middle, _, .arrived hfirst, .follow way rest⟩
    | missing =>
      rw [hfirst] at way
      cases way
    | follow start parts =>
      rw [hfirst] at way
      obtain ⟨rfl, hfurther⟩ := Walk.follow.inj way
      obtain ⟨middle, left, hmiddle, hrest⟩ := ih hfurther
      exact ⟨middle, left, .follow hfirst hmiddle, hrest⟩

/-! ## Putting a file -/

/-- Nothing but a file stands at a place. -/
def IsFree (tree : FileTree) (place : Place) : Prop :=
  place ≠ [] ∧ ∀ node, tree.node? place = some node → ∃ content, node = .file content

theorem node?_put (hplace : place ≠ []) (node : FileNode) (other : Place) :
    (tree.put place node).node? other = if other = place then some node else tree.node? other := by
  by_cases hempty : other = []
  · subst hempty
    rw [if_neg (Ne.symm hplace)]
    rfl
  · have hisEmpty : other.isEmpty = false := by simpa using hempty
    rw [node?, node?, hisEmpty, if_neg Bool.false_ne_true, if_neg Bool.false_ne_true, put,
      List.find?_cons]
    by_cases hsame : other = place
    · subst hsame
      simp
    · have hother : (place == other) = false := by simpa using Ne.symm hsame
      have hkept : (tree.entries.filter (·.1 != place)).find? (·.1 == other)
          = tree.entries.find? (·.1 == other) := by
        rw [List.find?_filter]
        congr 1
        funext entry
        by_cases hentry : entry.1 = other
        · simp [hentry, hsame]
        · simp [hentry]
      simp only [hother, hkept, if_neg hsame]

/-- A file in the stead of another one or of nothing changes no directory. -/
theorem isDirectory_put (h : tree.IsFree place) (content : Content) (other : Place) :
    (tree.put place (.file content)).isDirectory other = tree.isDirectory other := by
  obtain ⟨hplace, hfree⟩ := h
  rw [isDirectory, isDirectory, node?_put hplace]
  split
  · next hsame =>
    subst hsame
    cases hnode : tree.node? other with
    | none => rfl
    | some node =>
      obtain ⟨old, rfl⟩ := hfree node hnode
      rfl
  · rfl

theorem walk_put (h : tree.IsFree place) (content : Content) (hwalk : tree.walk here parts ≠ .missing) :
    (tree.put place (.file content)).walk here parts = tree.walk here parts := by
  fun_induction tree.walk here parts with
  | case1 here => rfl
  | case2 => exact absurd rfl hwalk
  | case3 here part parts hdirectory hvoid ih =>
    rw [walk, isDirectory_put h, if_neg hdirectory, if_pos hvoid, ih hwalk]
  | case4 here part parts hdirectory hvoid hup ih =>
    rw [walk, isDirectory_put h, if_neg hdirectory, if_neg hvoid, if_pos hup, ih hwalk]
  | case5 => exact absurd rfl hwalk
  | case6 here part parts hdirectory hvoid hup target hnode =>
    have hother : here ++ [part] ≠ place := by
      rintro rfl
      obtain ⟨old, hold⟩ := h.2 _ hnode
      cases hold
    rw [walk, isDirectory_put h, if_neg hdirectory, if_neg hvoid, if_neg hup, node?_put h.1,
      if_neg hother, hnode]
  | case7 here part parts hdirectory hvoid hup node hnoLink hnode ih =>
    obtain ⟨kept, hkept, hkeptNoLink⟩ : ∃ kept,
        (tree.put place (.file content)).node? (here ++ [part]) = some kept ∧
          ∀ target, kept ≠ .link target := by
      rw [node?_put h.1]
      split
      · exact ⟨.file content, rfl, by simp⟩
      · exact ⟨node, hnode, hnoLink⟩
    rw [walk, isDirectory_put h, if_neg hdirectory, if_neg hvoid, if_neg hup, hkept]
    cases kept with
    | file old => exact ih hwalk
    | directory => exact ih hwalk
    | link target => exact absurd rfl (hkeptNoLink target)

/-- A way that leads somewhere leads there still. -/
theorem Reaches.put {other : Place} (hway : tree.Reaches other links here parts)
    (h : tree.IsFree place) (content : Content) :
    (tree.put place (.file content)).Reaches other links here parts := by
  induction hway with
  | arrived way => exact .arrived ((walk_put h content (by simp [way])).trans way)
  | follow way _ ih => exact .follow ((walk_put h content (by simp [way])).trans way) ih

/-! ## Writing -/

/-- How writing comes to a place: in a directory, or through a link that stands there. -/
inductive Leads (tree : FileTree) (place : Place) : Nat → Place → List String → Prop where
  | here {links : Nat} {here directory : Place} {before : List String} {last : String}
      (name : Path.isVoid last = false ∧ last ≠ "..")
      (found : tree.chase mostLinks here before = some directory)
      (isDirectory : tree.isDirectory directory = true)
      (place_eq : place = directory ++ [last])
      (free : ∀ node, tree.node? place = some node → ∃ content, node = .file content) :
      Leads tree place links here (before ++ [last])
  | link {links : Nat} {here directory : Place} {before : List String} {last : String} {target : Path}
      (name : Path.isVoid last = false ∧ last ≠ "..")
      (found : tree.chase mostLinks here before = some directory)
      (isDirectory : tree.isDirectory directory = true)
      (stands : tree.node? (directory ++ [last]) = some (.link target))
      (further : Leads tree place links (linkStart directory target) target.parts) :
      Leads tree place (links + 1) here (before ++ [last])

theorem leads_of_writtenAt? (h : tree.writtenAt? links here parts = some place) :
    tree.Leads place links here parts := by
  fun_induction tree.writtenAt? links here parts with
  | case1 | case2 | case3 | case4 | case5 | case7 => cases h
  | case6 here parts last hlast hname directory hfound hdirectory target links hstands ih =>
    obtain ⟨before, rfl⟩ := List.getLast?_eq_some_iff.mp hlast
    rw [List.dropLast_concat] at hfound
    exact .link (by simpa using hname) hfound (by simpa using hdirectory) hstands (ih h)
  | case8 links here parts last hlast hname directory hfound hdirectory hother hlink hend =>
    obtain ⟨before, rfl⟩ := List.getLast?_eq_some_iff.mp hlast
    rw [List.dropLast_concat] at hfound
    obtain rfl := Option.some.inj h
    refine .here (by simpa using hname) hfound (by simpa using hdirectory) rfl fun node hnode => ?_
    cases node with
    | file content => exact ⟨content, rfl⟩
    | directory => exact absurd hnode hother
    | link target =>
      cases links with
      | zero => exact absurd rfl (hend target hnode)
      | succ links => exact absurd rfl (hlink target links hnode)

/-- The last part of a way, seen from the directory that the others lead to. -/
theorem walk_last {directory : Place} {last : String} (hname : Path.isVoid last = false ∧ last ≠ "..")
    (hdirectory : tree.isDirectory directory = true) {node : FileNode}
    (hnode : tree.node? (directory ++ [last]) = some node) : tree.walk directory [last] =
      match node with
      | .link target => .follow (linkStart directory target) target.parts
      | _ => .arrived (directory ++ [last]) := by
  rw [walk]
  simp only [hdirectory, hname.1, Bool.not_true, Bool.false_eq_true, if_false, beq_iff_eq, hname.2,
    hnode]
  cases node with
  | link target => simp only [List.append_nil]
  | file content => rfl
  | directory => rfl

theorem Leads.isFree (h : tree.Leads place links here parts) : tree.IsFree place := by
  induction h with
  | here _ _ _ place_eq free => exact ⟨by simp [place_eq], free⟩
  | link _ _ _ _ _ ih => exact ih

/-- The way that was written to leads to the place that was written at. -/
theorem Leads.eq_of_reaches {left : Nat} {other : Place} (h : tree.Leads place links here parts)
    (hreaches : (tree.put place (.file content)).Reaches other left here parts) : other = place := by
  have hfree := h.isFree
  induction h generalizing left with
  | @here _ _ _ _ last name found isDirectory place_eq free =>
    obtain ⟨middle, left, hmiddle, hrest⟩ := hreaches.split
    obtain rfl := hmiddle.unique ((chase_eq_some.mp found).put hfree content)
    have hnode : (tree.put place (.file content)).node? (middle ++ [last]) = some (.file content) := by
      rw [node?_put hfree.1, if_pos place_eq.symm]
    rw [← isDirectory_put hfree content] at isDirectory
    have hlast := walk_last name isDirectory hnode
    cases hrest with
    | arrived way => exact (Walk.arrived.inj (way.symm.trans hlast)).trans place_eq.symm
    | follow way => cases way.symm.trans hlast
  | @link _ _ _ _ last target name found isDirectory stands further ih =>
    obtain ⟨middle, left, hmiddle, hrest⟩ := hreaches.split
    obtain rfl := hmiddle.unique ((chase_eq_some.mp found).put hfree content)
    have hother : middle ++ [last] ≠ place := by
      rintro rfl
      obtain ⟨old, hold⟩ := hfree.2 _ stands
      cases hold
    have hnode : (tree.put place (.file content)).node? (middle ++ [last]) = some (.link target) := by
      rw [node?_put hfree.1, if_neg hother, stands]
    rw [← isDirectory_put hfree content] at isDirectory
    have hlast := walk_last name isDirectory hnode
    cases hrest with
    | arrived way => cases way.symm.trans hlast
    | follow way rest =>
      obtain ⟨rfl, rfl⟩ := Walk.follow.inj (way.symm.trans hlast)
      exact ih rest

/-- If the path leads anywhere, the text that was written to it is read there. -/
theorem text?_of_write? {after : FileTree} {text : String} (h : tree.write? p text = some after)
    (hexists : after.exists_ p = true) : after.text? p = some text := by
  obtain ⟨place, hplace, rfl⟩ := Option.map_eq_some_iff.mp h
  obtain ⟨other, hother⟩ := Option.isSome_iff_exists.mp hexists
  have hchase := hother
  rw [locate?] at hchase
  split at hchase
  · cases hchase
  · have hleads := leads_of_writtenAt? hplace
    obtain rfl := hleads.eq_of_reaches (chase_eq_some.mp hchase)
    rw [text?, content?, hother, Option.bind_some, node?_put hleads.isFree.1, if_pos rfl]

end KeyExpansion.FileTree
