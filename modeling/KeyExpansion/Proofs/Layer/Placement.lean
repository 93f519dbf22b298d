-- SUMMARY: Files that are put in order stand behind what they include, whatever the machine holds.
import KeyExpansion.Proofs.FileTree
import KeyExpansion.Proofs.Layer.Order

/-! # Where files are placed

A file may be loaded by a path that is not its canonical one, as when a link stands in its
directory. What it includes is then looked up from where the link stands. So files are told
apart by canonical paths, and what a layer includes is asked of the layer, not of its path. -/

namespace KeyExpansion

namespace Machine

open Relation (ReflTransGen)

variable {m : Machine} {file : Path × Layer} {files done : List (Path × Layer)}
  {ordered before middle after : Ordered} {waiting targets : List Path} {path p q : Path}
  {layer layer' : Layer} {layers : List Layer}

/-! ## The file of a layer -/

/-- The file that a layer was read from, by its canonical path. -/
def fileOf? (m : Machine) (layer : Layer) : Option Path :=
  layer.path.bind m.canonical?

/-- The file at a canonical path holds a layer, loaded by some path that leads there. -/
def Holds (m : Machine) (path : Path) (layer : Layer) : Prop :=
  ∃ p, m.load p = .ok layer ∧ m.canonical? p = some path

theorem exists_text_of_load (h : m.load p = .ok layer) :
    ∃ text read, m.files.text? (m.fromHere p) = some text ∧ Layer.ofText text = .ok read ∧
      layer = { read with path := some p } := by
  rw [load] at h
  split at h
  · next text htext =>
    obtain ⟨read, hread, hlayer⟩ := Except.bind_eq_ok.mp h
    exact ⟨text, read, htext, hread, (Except.pure_eq_ok.mp hlayer).symm⟩
  · cases h

theorem path_of_load (h : m.load p = .ok layer) : layer.path = some p := by
  obtain ⟨-, -, -, -, rfl⟩ := exists_text_of_load h
  rfl

theorem Holds.fileOf?_eq (h : m.Holds path layer) : m.fileOf? layer = some path := by
  obtain ⟨p, hload, hcanonical⟩ := h
  rw [fileOf?, path_of_load hload]
  exact hcanonical

/-- However a file is loaded, only the path that is written down may differ. -/
theorem Holds.eq_of_path (h : m.Holds path layer) (h' : m.Holds path layer') :
    layer' = { layer with path := layer'.path } := by
  obtain ⟨p, hload, hp⟩ := h
  obtain ⟨q, hload', hq⟩ := h'
  obtain ⟨text, read, htext, hread, rfl⟩ := exists_text_of_load hload
  obtain ⟨text', read', htext', hread', rfl⟩ := exists_text_of_load hload'
  rw [FileTree.text?_eq_of_canonical? hp hq, htext'] at htext
  cases htext
  cases hread.symm.trans hread'
  rfl

theorem fromHere_pathOf (place : Place) : m.fromHere (FileTree.pathOf place) = FileTree.pathOf place := by
  have hroot : (FileTree.pathOf place).isAbsolute = true := by
    simp [Path.isAbsolute, FileTree.pathOf]
  rw [fromHere, Path.join, if_pos hroot, ite_self]

/-- A canonical path is its own. -/
theorem canonical?_canonical? (h : m.canonical? p = some q) : m.canonical? q = some q := by
  have hq : m.fromHere q = q := by
    obtain ⟨place, -, rfl⟩ := Option.map_eq_some_iff.mp h
    exact fromHere_pathOf place
  rw [canonical?, hq]
  exact FileTree.canonical?_canonical? h

theorem canonical?_of_resolveInclude {base : Path} {text : String}
    (h : m.resolveInclude base text = .ok q) : m.canonical? q = some q := by
  unfold resolveInclude at h
  dsimp only at h
  split at h
  · next found hfound =>
    cases h
    exact canonical?_canonical? hfound
  · cases h

theorem canonical?_of_includesOf (h : m.includesOf layer = .ok targets) (hq : q ∈ targets) :
    m.canonical? q = some q := by
  rw [includesOf] at h
  split at h
  · cases h
    cases hq
  · rw [resolveIncludes] at h
    split at h
    · obtain ⟨text, -, htext⟩ := Except.exists_of_mem_mapM h hq
      exact canonical?_of_resolveInclude htext
    · cases h

/-! ## Placement -/

/-- The files put so far, each once and behind all that its layer includes. -/
inductive IsPlaced (m : Machine) : Ordered → Prop where
  | start : IsPlaced m {}
  | put {ordered : Ordered} {path : Path} {layer : Layer} {targets : List Path}
      (placed : IsPlaced m ordered) (holds : m.Holds path layer) (new : path ∉ ordered.loaded)
      (includes : m.includesOf layer = .ok targets) (included : targets ⊆ ordered.loaded) :
      IsPlaced m { loaded := path :: ordered.loaded, layers := ordered.layers ++ [layer] }

/-- A layer may stand behind others: its file is new, and all that it includes is there. -/
def Follows (m : Machine) (layers : List Layer) (layer : Layer) : Prop :=
  m.fileOf? layer ∉ layers.map m.fileOf? ∧
    ∃ targets, m.includesOf layer = .ok targets ∧ ∀ q ∈ targets, some q ∈ layers.map m.fileOf?

/-- Every file is there once, and behind all that it includes. -/
def WellPlaced (m : Machine) (layers : List Layer) : Prop :=
  ∀ before layer after, layers = before ++ layer :: after → m.Follows before layer

theorem wellPlaced_nil : m.WellPlaced [] := by
  intro before layer after h
  simp at h

theorem wellPlaced_concat :
    m.WellPlaced (layers ++ [layer]) ↔ m.WellPlaced layers ∧ m.Follows layers layer := by
  constructor
  · intro h
    refine ⟨?_, h layers layer [] rfl⟩
    rintro before inner after rfl
    exact h before inner (after ++ [layer]) (by simp)
  · rintro ⟨hlayers, hlast⟩ before inner after heq
    rcases List.eq_nil_or_concat after with rfl | ⟨after, last, rfl⟩
    · obtain ⟨rfl, hinner⟩ := List.append_inj' heq rfl
      obtain rfl := List.singleton_inj.mp hinner
      exact hlast
    · rw [List.concat_eq_append, ← List.cons_append, ← List.append_assoc] at heq
      obtain ⟨hsplit, -⟩ := List.append_inj' heq rfl
      exact hlayers before inner after hsplit

namespace IsPlaced

theorem mem_loaded_iff (h : IsPlaced m ordered) :
    p ∈ ordered.loaded ↔ some p ∈ ordered.layers.map m.fileOf? := by
  induction h with
  | start => simp
  | put _ holds _ _ _ ih => simp [ih, holds.fileOf?_eq, or_comm]

theorem wellPlaced (h : IsPlaced m ordered) : m.WellPlaced ordered.layers := by
  induction h with
  | start => exact wellPlaced_nil
  | put placed holds new includes included ih =>
    refine wellPlaced_concat.mpr ⟨ih, ?_, _, includes, ?_⟩
    · rwa [holds.fileOf?_eq, ← placed.mem_loaded_iff]
    · exact fun q hq => placed.mem_loaded_iff.mp (included hq)

theorem holds_of_mem (h : IsPlaced m ordered) (hlayer : layer ∈ ordered.layers)
    (hfile : m.fileOf? layer = some p) : m.Holds p layer := by
  induction h with
  | start => cases hlayer
  | put _ holds _ _ _ ih =>
    rcases List.mem_append.mp hlayer with hlayer | hlayer
    · exact ih hlayer
    · obtain rfl := List.mem_singleton.mp hlayer
      rw [holds.fileOf?_eq] at hfile
      cases hfile
      exact holds

end IsPlaced

/-! ## Putting one file -/

/-- The file is the one at the path, or includes it, directly or not. -/
def LeadsTo (m : Machine) (file : Path × Layer) (q : Path) : Prop :=
  q = file.1 ∨ ∃ targets, m.includesOf file.2 = .ok targets ∧
    ∃ next ∈ targets, ReflTransGen m.Includes next q

theorem LeadsTo.reflTransGen (hload : m.load p = .ok layer) (h : m.LeadsTo (p, layer) q) :
    ReflTransGen m.Includes p q := by
  rcases h with rfl | ⟨targets, htargets, next, hnext, hreach⟩
  · exact .refl
  · exact .head ⟨layer, targets, hload, htargets, hnext⟩ hreach

/-- What putting a file may do: nothing goes or moves, nothing comes that the file does not
lead to, and no file that waits. -/
structure Extends (m : Machine) (waiting : List Path) (file : Path × Layer) (before after : Ordered) :
    Prop where
  placed : IsPlaced m after
  kept : before.layers <+: after.layers
  reached : ∀ q ∈ after.loaded, q ∈ before.loaded ∨ m.LeadsTo file q
  apart : ∀ w ∈ waiting, w ∉ after.loaded

/-- Placed files stay. -/
theorem Extends.subset (h : Extends m waiting file before after) (hbefore : IsPlaced m before) :
    before.loaded ⊆ after.loaded := by
  intro p hp
  obtain ⟨more, hmore⟩ := h.kept
  rw [h.placed.mem_loaded_iff, ← hmore, List.map_append]
  exact List.mem_append_left _ (hbefore.mem_loaded_iff.mp hp)

/-- A file that may be put while others wait for it. -/
structure IsNext (m : Machine) (waiting : List Path) (file : Path × Layer) (ordered : Ordered) : Prop where
  placed : IsPlaced m ordered
  holds : m.Holds file.1 file.2
  once : file.1 ∉ waiting
  apart : ∀ w ∈ file.1 :: waiting, w ∉ ordered.loaded

/-- A file that may be put extends what is there, if it is put. -/
def PutsNext (m : Machine) (depth : Nat) : Prop :=
  ∀ waiting file ordered, IsNext m waiting file ordered →
    Except.Ends (fun after => Extends m waiting file ordered after ∧ file.1 ∈ after.loaded)
      (fun _ => True) (m.visit depth waiting file.1 file.2 ordered)

/-- What is known after some of the includes of a file. -/
def HasIncluded (m : Machine) (waiting : List Path) (file : Path × Layer) (before : Ordered)
    (done : List Path) (after : Ordered) : Prop :=
  Extends m (file.1 :: waiting) file before after ∧ ∀ q ∈ done, q ∈ after.loaded

theorem putIncluded_extends {depth : Nat} (ih : PutsNext m depth)
    (htargets : m.includesOf file.2 = .ok targets) (hq : q ∈ targets) {done : List Path}
    (hmiddle : HasIncluded m waiting file before done middle) :
    Except.Ends (HasIncluded m waiting file before (done ++ [q])) (fun _ => True)
      (m.putIncluded depth (file.1 :: waiting) middle q) := by
  obtain ⟨hextends, hdone⟩ := hmiddle
  rw [putIncluded]
  split
  · exact Except.ends_error.mpr trivial
  · next hwaits =>
    split
    · next hloaded =>
      exact Except.ends_ok.mpr ⟨hextends, List.forall_mem_append.mpr ⟨hdone, by simpa using hloaded⟩⟩
    · next hloaded =>
      cases hload : m.load q with
      | error e => exact Except.ends_error.mpr trivial
      | ok layer =>
        have hnext : IsNext m (file.1 :: waiting) (q, layer) middle := {
          placed := hextends.placed
          holds := ⟨q, hload, canonical?_of_includesOf htargets hq⟩
          once := by simpa using hwaits
          apart := List.forall_mem_cons.mpr ⟨by simpa using hloaded, hextends.apart⟩ }
        refine (ih _ _ _ hnext).mono ?_ (fun _ => id)
        rintro after ⟨hafter, hmem⟩
        refine ⟨⟨hafter.placed, hextends.kept.trans hafter.kept, ?_, hafter.apart⟩, ?_⟩
        · intro r hr
          rcases hafter.reached r hr with hr | hlead
          · exact hextends.reached r hr
          · exact .inr (.inr ⟨targets, htargets, q, hq, hlead.reflTransGen hload⟩)
        · refine List.forall_mem_append.mpr ⟨?_, by simpa using hmem⟩
          exact fun r hr => hafter.subset hextends.placed (hdone r hr)

theorem visit_extends (depth : Nat) : PutsNext m depth := by
  induction depth with
  | zero => exact fun _ _ _ _ => Except.ends_error.mpr trivial
  | succ depth ih =>
    intro waiting file ordered hnext
    rw [visit_succ]
    cases htargets : m.includesOf file.2 with
    | error e => exact Except.ends_error.mpr trivial
    | ok targets =>
      have hstart : HasIncluded m waiting file ordered [] ordered :=
        ⟨⟨hnext.placed, List.prefix_rfl, fun q hq => .inl hq, hnext.apart⟩, by simp⟩
      show Except.Ends _ _ (targets.foldlM (m.putIncluded depth (file.1 :: waiting)) ordered >>= _)
      refine Except.Ends.bind (Except.ends_foldlM ?_ hstart) ?_
      · exact fun done q now hq hnow => putIncluded_extends ih htargets hq hnow
      · rintro now ⟨hextends, hdone⟩
        obtain ⟨hnew, hapart⟩ := List.forall_mem_cons.mp hextends.apart
        refine Except.ends_ok.mpr ⟨⟨?_, ?_, ?_, ?_⟩, List.mem_cons_self⟩
        · exact hextends.placed.put hnext.holds hnew htargets hdone
        · exact hextends.kept.trans (List.prefix_append _ _)
        · exact List.forall_mem_cons.mpr ⟨.inr (.inl rfl), hextends.reached⟩
        · intro w hw hmem
          rcases List.mem_cons.mp hmem with rfl | hmem
          · exact hnext.once hw
          · exact hapart w hw hmem

/-- A new file that is included is loaded and put. -/
theorem putIncluded_of_load {depth : Nat} (hwaits : q ∉ waiting) (hnew : q ∉ ordered.loaded)
    (hload : m.load q = .ok layer) :
    m.putIncluded depth waiting ordered q = m.visit depth waiting q layer ordered := by
  rw [putIncluded, if_neg (by simpa using hwaits), if_neg (by simpa using hnew), hload]
  rfl

/-- A file that includes one other is put behind it. -/
theorem visit_of_putIncluded {depth : Nat} (hincludes : m.includesOf layer = .ok [q])
    (hput : m.putIncluded depth (path :: waiting) ordered q = .ok after) :
    m.visit (depth + 1) waiting path layer ordered
      = .ok { loaded := path :: after.loaded, layers := after.layers ++ [layer] } := by
  rw [visit_succ, hincludes]
  refine Except.bind_eq_ok.mpr ⟨[q], rfl, Except.bind_eq_ok.mpr ⟨after, ?_, rfl⟩⟩
  rw [List.foldlM_cons, hput]
  rfl

/-! ## Putting all files -/

/-- Put a listed file, if it has not been put yet. -/
def putListed (m : Machine) (depth : Nat) (ordered : Ordered) (file : Path × Layer) :
    Except Error Ordered :=
  if ordered.loaded.contains file.1 then pure ordered else m.visit depth [] file.1 file.2 ordered

theorem order_eq (files : List (Path × Layer)) :
    m.order files = (do
      let ordered ← files.foldlM (m.putListed (m.files.entries.length + 1)) {}
      return ordered.layers) :=
  rfl

theorem putListed_of_not_mem {depth : Nat} (h : file.1 ∉ ordered.loaded) :
    m.putListed depth ordered file = m.visit depth [] file.1 file.2 ordered :=
  if_neg (by simpa using h)

theorem order_cons (hvisit : m.visit (m.files.entries.length + 1) [] path layer {} = .ok ordered) :
    m.order ((path, layer) :: files) = (do
      let ordered ← files.foldlM (m.putListed (m.files.entries.length + 1)) ordered
      return ordered.layers) := by
  rw [order_eq, List.foldlM_cons, putListed_of_not_mem List.not_mem_nil, hvisit]
  rfl

/-- What is known after some of the listed files. -/
structure HasPlaced (m : Machine) (done : List (Path × Layer)) (ordered : Ordered) : Prop where
  placed : IsPlaced m ordered
  put : ∀ file ∈ done, file.1 ∈ ordered.loaded
  reached : ∀ q ∈ ordered.loaded, ∃ file ∈ done, m.LeadsTo file q

theorem HasPlaced.next (h : HasPlaced m done before) (hextends : Extends m [] file before after)
    (hput : file.1 ∈ after.loaded) : HasPlaced m (done ++ [file]) after := by
  refine ⟨hextends.placed, List.forall_mem_append.mpr ⟨?_, by simpa using hput⟩, ?_⟩
  · exact fun other hother => hextends.subset h.placed (h.put other hother)
  · intro q hq
    rcases hextends.reached q hq with hq | hlead
    · obtain ⟨other, hother, hlead⟩ := h.reached q hq
      exact ⟨other, List.mem_append_left _ hother, hlead⟩
    · exact ⟨file, by simp, hlead⟩

theorem putListed_extends {depth : Nat} (hholds : m.Holds file.1 file.2) (h : HasPlaced m done before) :
    Except.Ends (fun after => HasPlaced m (done ++ [file]) after ∧ before.layers <+: after.layers)
      (fun _ => True) (m.putListed depth before file) := by
  by_cases hloaded : file.1 ∈ before.loaded
  · have hsame : Extends m [] file before before :=
      ⟨h.placed, List.prefix_rfl, fun q hq => .inl hq, by simp⟩
    rw [putListed, if_pos (by simpa using hloaded)]
    exact Except.ends_ok.mpr ⟨h.next hsame hloaded, List.prefix_rfl⟩
  · have hnext : IsNext m [] file before := ⟨h.placed, hholds, by simp, by simpa using hloaded⟩
    rw [putListed_of_not_mem hloaded]
    refine (visit_extends depth _ _ _ hnext).mono ?_ (fun _ => id)
    rintro after ⟨hextends, hput⟩
    exact ⟨h.next hextends hput, hextends.kept⟩

theorem foldlM_putListed_extends {depth : Nat} (hholds : ∀ file ∈ files, m.Holds file.1 file.2)
    (h : HasPlaced m done before) :
    Except.Ends (fun after => HasPlaced m (done ++ files) after ∧ before.layers <+: after.layers)
      (fun _ => True) (files.foldlM (m.putListed depth) before) := by
  refine Except.ends_foldlM
    (P := fun done after => HasPlaced m done after ∧ before.layers <+: after.layers) ?_
    ⟨h, List.prefix_rfl⟩
  rintro done file now hfile ⟨hnow, hkept⟩
  refine (putListed_extends (hholds file hfile) hnow).mono ?_ (fun _ => id)
  rintro after ⟨hafter, hmore⟩
  exact ⟨hafter, hkept.trans hmore⟩

/-- The files that come first in the list come first in order, with what they lead to. -/
theorem order_append {more : List (Path × Layer)} (hholds : ∀ file ∈ files ++ more, m.Holds file.1 file.2)
    (h : m.order (files ++ more) = .ok layers) :
    ∃ first last, HasPlaced m files first ∧ HasPlaced m (files ++ more) last ∧
      first.layers <+: last.layers ∧ layers = last.layers := by
  obtain ⟨hfiles, hmore⟩ := List.forall_mem_append.mp hholds
  have hstart : HasPlaced m [] {} := ⟨.start, by simp, by simp⟩
  rw [order_eq, List.foldlM_append] at h
  obtain ⟨last, hlast, hlayers⟩ := Except.bind_eq_ok.mp h
  obtain ⟨first, hfirst, hlast⟩ := Except.bind_eq_ok.mp hlast
  obtain ⟨hfirst, -⟩ := (foldlM_putListed_extends hfiles hstart).1 first hfirst
  obtain ⟨hlast, hkept⟩ := (foldlM_putListed_extends hmore hfirst).1 last hlast
  exact ⟨first, last, hfirst, hlast, hkept, (Except.pure_eq_ok.mp hlayers).symm⟩

end Machine

end KeyExpansion
