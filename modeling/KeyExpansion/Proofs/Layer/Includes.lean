-- SUMMARY: Which file includes which, in a machine whose files all resolve.
import KeyExpansion.Layer.Discovery
import KeyExpansion.Proofs.Except
import Mathlib.Data.List.Perm.Subperm
import Mathlib.Logic.Relation

/-! # Includes

The files of a machine and what they include make a graph on canonical paths. A canonical
path is that of a place in the file tree, so there are no more files than entries. -/

namespace KeyExpansion

namespace Machine

variable {m : Machine}

/-- The files that a layer includes. A layer without includes needs no path. -/
def includesOf (m : Machine) (layer : Layer) : Except Error (List Path) :=
  if layer.includes.isEmpty then pure [] else m.resolveIncludes layer

/-- The file at a path includes the one at another. -/
def Includes (m : Machine) (p q : Path) : Prop :=
  ∃ layer targets, m.load p = .ok layer ∧ m.includesOf layer = .ok targets ∧ q ∈ targets

/-- Files at canonical paths, whose includes all lead to files among them. -/
structure Serves (m : Machine) (files : List (Path × Layer)) : Prop where
  canonical : ∀ file ∈ files, m.canonical? file.1 = some file.1
  load_eq : ∀ file ∈ files, m.load file.1 = .ok file.2
  includes : ∀ file ∈ files, ∃ targets, m.includesOf file.2 = .ok targets ∧
    ∀ q ∈ targets, ∃ layer, (q, layer) ∈ files

variable {files : List (Path × Layer)} {p q : Path} {layer : Layer}

theorem load_eq_ok {text : String} (htext : m.files.text? (m.fromHere p) = some text)
    (hlayer : Layer.ofText text = .ok layer) : m.load p = .ok { layer with path := some p } := by
  rw [load, htext]
  simp only [hlayer]
  rfl

namespace Serves

variable (h : m.Serves files)

include h

/-- What a file includes is what its layer says. -/
theorem includes_iff (hfile : (p, layer) ∈ files) {targets : List Path}
    (htargets : m.includesOf layer = .ok targets) : m.Includes p q ↔ q ∈ targets := by
  constructor
  · rintro ⟨other, others, hload, hothers, hq⟩
    obtain rfl : layer = other := Except.ok.inj ((h.load_eq _ hfile).symm.trans hload)
    obtain rfl : targets = others := Except.ok.inj (htargets.symm.trans hothers)
    exact hq
  · intro hq
    exact ⟨layer, targets, h.load_eq _ hfile, htargets, hq⟩

theorem exists_of_includes (hfile : (p, layer) ∈ files) (hpq : m.Includes p q) :
    ∃ other, (q, other) ∈ files := by
  obtain ⟨targets, htargets, hserved⟩ := h.includes _ hfile
  exact hserved q ((h.includes_iff hfile htargets).mp hpq)

end Serves

/-! ## There are no more files than entries -/

theorem exists_entry_of_node? {tree : FileTree} {place : Place} {content : Content}
    (h : tree.node? place = some (.file content)) : ∃ entry ∈ tree.entries, entry.1 = place := by
  rw [FileTree.node?] at h
  split at h
  · cases h
  · obtain ⟨entry, hentry, -⟩ := Option.map_eq_some_iff.mp h
    exact ⟨entry, List.mem_of_find?_eq_some hentry, by simpa using List.find?_some hentry⟩

theorem exists_content_of_text? {tree : FileTree} {p : Path} {text : String}
    (h : tree.text? p = some text) :
    ∃ place, tree.locate? p = some place ∧ ∃ content, tree.node? place = some (.file content) := by
  have hcontent : tree.content? p ≠ none := by
    intro hnone
    simp [FileTree.text?, hnone] at h
  obtain ⟨content, hcontent⟩ := Option.ne_none_iff_exists'.mp hcontent
  rw [FileTree.content?] at hcontent
  split at hcontent
  · next found hfound =>
    obtain ⟨place, hplace, hnode⟩ := Option.bind_eq_some_iff.mp hfound
    exact ⟨place, hplace, found, hnode⟩
  · cases hcontent

/-- A file that is loaded from a canonical path stands at a place of the tree. -/
theorem exists_entry_of_load (hload : m.load p = .ok layer) (hcanonical : m.canonical? p = some p) :
    ∃ entry ∈ m.files.entries, FileTree.pathOf entry.1 = p := by
  have htext : m.files.text? (m.fromHere p) ≠ none := by
    intro hnone
    simp [load, hnone] at hload
  obtain ⟨text, htext⟩ := Option.ne_none_iff_exists'.mp htext
  obtain ⟨place, hplace, content, hnode⟩ := exists_content_of_text? htext
  obtain ⟨entry, hentry, rfl⟩ := exists_entry_of_node? hnode
  refine ⟨entry, hentry, ?_⟩
  simpa [canonical?, FileTree.canonical?, hplace] using hcanonical

/-- Different files stand at different places. -/
theorem Serves.length_le (h : m.Serves files) {paths : List Path} (hnodup : paths.Nodup)
    (hpaths : ∀ p ∈ paths, ∃ layer, (p, layer) ∈ files) :
    paths.length ≤ m.files.entries.length := by
  have hsubset : paths ⊆ m.files.entries.map fun entry => FileTree.pathOf entry.1 := by
    intro p hp
    obtain ⟨layer, hfile⟩ := hpaths p hp
    obtain ⟨entry, hentry, hpath⟩ :=
      exists_entry_of_load (h.load_eq _ hfile) (h.canonical _ hfile)
    exact List.mem_map.mpr ⟨entry, hentry, hpath⟩
  have hlength := (List.subperm_of_subset hnodup hsubset).length_le
  rwa [List.length_map] at hlength

end Machine

end KeyExpansion
