-- SUMMARY: The graph of references between the texts of keys.
import KeyExpansion.Key.Make
import Mathlib.Data.List.Chain
import Mathlib.Logic.Relation

/-! # The graph of references

Over a table of texts the texts of keys make a graph: a name refers to the key that its
value names, and a template to the names of its fields. -/

namespace KeyExpansion

open Relation (ReflTransGen)

variable {S : String → Option Value} {root : String}

/-- The key of one text refers to that of another. -/
inductive Refers (S : String → Option Value) : String → String → Prop where
  /-- The direct name of a single key is bound to a text that is written like a key. -/
  | direct {name text : String} {k : Key} (single : hasBrace name = false)
      (bound : S (directName name) = some (.str text)) (opens : '{' ∈ text.toList)
      (names : Key.ofText text = .ok k) (notNull : k.isNull = false) : Refers S name k.text
  /-- The direct name is bound to nothing, and the indirect one to a text that names a key. -/
  | lifted {name text : String} {k : Key} (single : hasBrace name = false)
      (unbound : S (directName name) = none) (bound : S (indirectName name) = some (.str text))
      (names : Key.ofReference text = .ok k) (notNull : k.isNull = false) : Refers S name k.text
  /-- A template refers to the names of its fields. -/
  | field {text : String} {k sub : Key} (makes : Key.ofText text = .ok k) (mem : sub ∈ k.subkeys) :
      Refers S text sub.text

/-- A path from the root that follows no reference of a text to itself. -/
structure IsWalk (S : String → Option Value) (root : String) (walk : List String) : Prop where
  head : walk.head? = some root
  step : walk.IsChain fun s t => Refers S s t ∧ s ≠ t

namespace IsWalk

theorem single : IsWalk S root [root] :=
  ⟨rfl, .singleton _⟩

theorem snoc {walk : List String} {s t : String} (h : IsWalk S root (walk ++ [s]))
    (hrefers : Refers S s t) (hne : s ≠ t) : IsWalk S root (walk ++ [s] ++ [t]) := by
  refine ⟨?_, List.isChain_append.mpr ⟨h.step, .singleton _, ?_⟩⟩
  · rw [List.head?_append, h.head]
    rfl
  · intro x hx y hy
    obtain rfl : s = x := by simpa using hx
    obtain rfl : t = y := by simpa using hy
    exact ⟨hrefers, hne⟩

theorem refers {walk : List String} (h : IsWalk S root walk) : walk.IsChain (Refers S) :=
  h.step.imp fun _ _ hst => hst.1

/-- A path that comes back to a text it has passed goes around a cycle that is more than a
reference of a text to itself. -/
theorem exists_cycle {walk : List String} {s : String} (h : IsWalk S root walk)
    (hlast : walk.getLast? = some s) (hmem : s ∈ walk.dropLast) :
    ∃ t, ReflTransGen (Refers S) root s ∧ Refers S s t ∧ ReflTransGen (Refers S) t s ∧ s ≠ t := by
  obtain ⟨before, after, hsplit⟩ := List.append_of_mem hmem
  have hwalk : walk = before ++ s :: (after ++ [s]) := by
    rw [← List.dropLast_append_getLast? s hlast, hsplit]
    simp
  have hreach {u : String} {path : List String} (hne : path ≠ []) (hchain : path.IsChain (Refers S))
      (hhead : path.head? = some u) (hend : path.getLast? = some s) : ReflTransGen (Refers S) u s := by
    have hpath := List.relationReflTransGen_of_exists_isChain path hchain hne
    rwa [List.head_eq_iff_head?_eq_some hne |>.mpr hhead,
      List.getLast_eq_iff_getLast?_eq_some hne |>.mpr hend] at hpath
  obtain ⟨hbefore, hafter⟩ := List.isChain_split.mp (hwalk ▸ h.step)
  obtain ⟨t, rest, hrest⟩ := List.exists_cons_of_ne_nil (l := after ++ [s]) (by simp)
  rw [hrest] at hafter
  obtain ⟨⟨hst, hne⟩, htail⟩ := List.isChain_cons_cons.mp hafter
  refine ⟨t, ?_, hst, ?_, hne⟩
  · refine hreach (by simp) (hbefore.imp fun _ _ h => h.1) ?_ (by simp)
    have hhead := h.head
    rw [hwalk] at hhead
    cases before with
    | nil => simpa using hhead
    | cons b before => simpa using hhead
  · refine hreach (by simp) (htail.imp fun _ _ h => h.1) rfl ?_
    rw [← hrest]
    simp

/-- A path does not leave a text that refers to nothing else. -/
theorem length_le_one {walk : List String} (h : IsWalk S root walk)
    (hself : ∀ t, Refers S root t → t = root) : walk.length ≤ 1 := by
  obtain ⟨hhead, hstep⟩ := h
  match walk with
  | [] => simp
  | [_] => simp
  | s :: t :: rest =>
    obtain rfl : s = root := by simpa using hhead
    obtain ⟨⟨hst, hne⟩, -⟩ := List.isChain_cons_cons.mp hstep
    exact absurd (hself t hst).symm hne

end IsWalk

theorem eq_of_reflTransGen_refers {s : String} (hself : ∀ t, Refers S root t → t = root)
    (h : ReflTransGen (Refers S) root s) : s = root := by
  induction h with
  | refl => rfl
  | tail _ hlast ih => exact hself _ (ih ▸ hlast)

end KeyExpansion
