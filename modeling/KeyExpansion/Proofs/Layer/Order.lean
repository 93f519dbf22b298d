-- SUMMARY: Files are put in order behind what they include, or a cycle of includes is reported.
import KeyExpansion.Proofs.Layer.Includes
import Mathlib

/-! # The order of files

Putting files in order is a search in depth first. What has been put at any time is a walk
on which every file comes after all that it includes, and the files that wait lead to the
one that is being put. So a file that waits and is included closes a cycle. Conversely no
file of a walk is on a cycle, and a walk has everything that its files lead to. -/

namespace KeyExpansion

namespace Machine

open Relation (ReflTransGen TransGen)

variable {m : Machine} {files listed : List (Path × Layer)} {ordered before after : Ordered}
  {waiting : List Path} {path p q : Path} {layer : Layer} {e : Error}

/-! ## Walks -/

/-- The files put so far, each once and behind those that it includes. -/
inductive IsWalk (m : Machine) (files : List (Path × Layer)) : Ordered → Prop where
  | start : IsWalk m files {}
  | put {ordered : Ordered} {path : Path} {layer : Layer} (walk : IsWalk m files ordered)
      (served : (path, layer) ∈ files) (new : path ∉ ordered.loaded)
      (included : ∀ q, m.Includes path q → q ∈ ordered.loaded) :
      IsWalk m files { loaded := path :: ordered.loaded, layers := ordered.layers ++ [layer] }

/-- Files sorted by what they include, directly or not. -/
structure IsSorted (m : Machine) (files sorted : List (Path × Layer)) : Prop where
  served : sorted ⊆ files
  once : (sorted.map Prod.fst).Nodup
  behind : ∀ before file rest, sorted = before ++ file :: rest →
    ∀ q, TransGen m.Includes file.1 q → q ∈ before.map Prod.fst

namespace IsWalk

theorem mem_of_includes (h : IsWalk m files ordered) (hp : p ∈ ordered.loaded)
    (hpq : m.Includes p q) : q ∈ ordered.loaded := by
  induction h with
  | start => cases hp
  | @put ordered path layer _ _ _ included ih =>
    rcases List.mem_cons.mp hp with rfl | hp
    · exact List.mem_cons_of_mem _ (included q hpq)
    · exact List.mem_cons_of_mem _ (ih hp)

/-- A walk has all that its files lead to. -/
theorem mem_of_reflTransGen (h : IsWalk m files ordered) (hp : p ∈ ordered.loaded)
    (hpq : ReflTransGen m.Includes p q) : q ∈ ordered.loaded := by
  induction hpq with
  | refl => exact hp
  | tail _ hstep ih => exact h.mem_of_includes ih hstep

/-- What a new file leads to was put before it. -/
theorem mem_of_transGen (h : IsWalk m files ordered)
    (included : ∀ q, m.Includes path q → q ∈ ordered.loaded) (hq : TransGen m.Includes path q) :
    q ∈ ordered.loaded := by
  obtain ⟨next, hnext, hrest⟩ := TransGen.head'_iff.mp hq
  exact h.mem_of_reflTransGen (included next hnext) hrest

/-- No file of a walk is on a cycle. -/
theorem not_transGen (h : IsWalk m files ordered) (hp : p ∈ ordered.loaded) :
    ¬ TransGen m.Includes p p := by
  induction h with
  | start => cases hp
  | @put ordered path layer walk _ new included ih =>
    rcases List.mem_cons.mp hp with rfl | hp
    · exact fun hcycle => new (walk.mem_of_transGen included hcycle)
    · exact ih hp

theorem exists_sorted (h : IsWalk m files ordered) :
    ∃ sorted, ordered.layers = sorted.map Prod.snd ∧
      (∀ p, p ∈ ordered.loaded ↔ p ∈ sorted.map Prod.fst) ∧ IsSorted m files sorted := by
  induction h with
  | start => exact ⟨[], rfl, by simp, by simp, by simp, by simp⟩
  | @put ordered path layer walk served new included ih =>
    obtain ⟨sorted, hlayers, hloaded, hsorted⟩ := ih
    refine ⟨sorted ++ [(path, layer)], by simp [hlayers], ?_, ?_, ?_, ?_⟩
    · intro p
      simp [hloaded, or_comm]
    · simpa using ⟨hsorted.served, served⟩
    · rw [hloaded] at new
      rw [List.map_append]
      simpa using hsorted.once.concat new
    · intro before file rest heq q hq
      rcases List.eq_nil_or_concat rest with rfl | ⟨rest, last, rfl⟩
      · obtain ⟨rfl, hfile⟩ := List.append_inj' heq rfl
        obtain rfl : (path, layer) = file := List.singleton_inj.mp hfile
        exact (hloaded q).mp (walk.mem_of_transGen included hq)
      · rw [List.concat_eq_append, ← List.cons_append, ← List.append_assoc] at heq
        obtain ⟨hsplit, -⟩ := List.append_inj' heq rfl
        exact hsorted.behind before file rest hsplit q hq

end IsWalk

/-! ## One file -/

/-- The file leads to a file that includes itself, directly or not. -/
def LeadsToCycle (m : Machine) (p : Path) : Prop :=
  ∃ c, ReflTransGen m.Includes p c ∧ TransGen m.Includes c c

/-- An error for a cycle that a file leads to. -/
def ReportsCycle (m : Machine) (p : Path) (e : Error) : Prop :=
  (∃ q, e = .circularInclude q) ∧ m.LeadsToCycle p

theorem ReportsCycle.of_includes (hpq : m.Includes p q) (h : m.ReportsCycle q e) :
    m.ReportsCycle p e := by
  obtain ⟨herror, c, hreach, hcycle⟩ := h
  exact ⟨herror, c, ReflTransGen.head hpq hreach, hcycle⟩

/-- What is put for a file: nothing goes, nothing comes that the file does not lead to, and no
file that waits. -/
structure Grows (m : Machine) (files : List (Path × Layer)) (waiting : List Path) (path : Path)
    (before after : Ordered) : Prop where
  walk : IsWalk m files after
  kept : before.loaded ⊆ after.loaded
  reached : ∀ q ∈ after.loaded, q ∈ before.loaded ∨ ReflTransGen m.Includes path q
  apart : ∀ w ∈ waiting, w ∉ after.loaded

theorem Grows.trans {middle : Ordered} (h : Grows m files waiting p before middle)
    (hpq : m.Includes p q) (h' : Grows m files waiting q middle after) :
    Grows m files waiting p before after := by
  refine ⟨h'.walk, List.Subset.trans h.kept h'.kept, ?_, h'.apart⟩
  intro r hr
  rcases h'.reached r hr with hr | hreach
  · exact h.reached r hr
  · exact .inr (ReflTransGen.head hpq hreach)

/-- A file that can be put while others wait for it. -/
structure IsDue (m : Machine) (files : List (Path × Layer)) (waiting : List Path) (path : Path)
    (ordered : Ordered) : Prop where
  walk : IsWalk m files ordered
  once : (path :: waiting).Nodup
  served : ∀ w ∈ waiting, ∃ layer, (w, layer) ∈ files
  leads : ∀ w ∈ waiting, TransGen m.Includes w path
  apart : ∀ w ∈ path :: waiting, w ∉ ordered.loaded

/-- A file that waits leads to all that the file being put includes. -/
theorem IsDue.leads_to (h : IsDue m files waiting path ordered) (hq : m.Includes path q) :
    ∀ w ∈ path :: waiting, TransGen m.Includes w q := by
  intro w hw
  rcases List.mem_cons.mp hw with rfl | hw
  · exact .single hq
  · exact (h.leads w hw).tail hq

/-- Put an included file, if it has not been put yet. -/
def putIncluded (m : Machine) (depth : Nat) (waiting : List Path) (ordered : Ordered)
    (included : Path) : Except Error Ordered :=
  if waiting.contains included then throw (.circularInclude included)
  else if ordered.loaded.contains included then return ordered
  else do
    let layer ← m.load included
    m.visit depth waiting included layer ordered

theorem visit_succ (depth : Nat) :
    m.visit (depth + 1) waiting path layer ordered = (do
      let includes ← m.includesOf layer
      let ordered ← includes.foldlM (m.putIncluded depth (path :: waiting)) ordered
      return { loaded := path :: ordered.loaded, layers := ordered.layers ++ [layer] }) := by
  rw [visit, includesOf]
  cases layer.includes.isEmpty <;> rfl

/-- What is known after some of the includes of a file. -/
def HasPut (m : Machine) (files : List (Path × Layer)) (waiting : List Path) (path : Path)
    (before : Ordered) (done : List Path) (after : Ordered) : Prop :=
  Grows m files (path :: waiting) path before after ∧ ∀ q ∈ done, q ∈ after.loaded

/-- A file that is due is put, or a cycle is reported that it leads to. -/
def PutsDue (m : Machine) (files : List (Path × Layer)) (depth : Nat) : Prop :=
  ∀ waiting path layer ordered, (path, layer) ∈ files → IsDue m files waiting path ordered →
    depth + waiting.length = m.files.entries.length + 1 →
    Except.Ends (fun after => Grows m files waiting path ordered after ∧ path ∈ after.loaded)
      (m.ReportsCycle path) (m.visit depth waiting path layer ordered)

/-- There are too few files for the depth to run out. -/
theorem putsDue_zero (h : m.Serves files) : PutsDue m files 0 := by
  intro waiting path layer ordered hfile hdue hdepth
  have hserved : ∀ p ∈ path :: waiting, ∃ layer, (p, layer) ∈ files :=
    List.forall_mem_cons.mpr ⟨⟨layer, hfile⟩, hdue.served⟩
  have hlength := h.length_le hdue.once hserved
  rw [List.length_cons] at hlength
  omega

theorem putIncluded_ends (h : m.Serves files) {depth : Nat} (ih : PutsDue m files depth)
    (hfile : (path, layer) ∈ files) (hdue : IsDue m files waiting path ordered)
    (hdepth : depth + 1 + waiting.length = m.files.entries.length + 1) {done : List Path}
    {now : Ordered} {included : Path} (hincluded : m.Includes path included)
    (hnow : HasPut m files waiting path ordered done now) :
    Except.Ends (HasPut m files waiting path ordered (done ++ [included])) (m.ReportsCycle path)
      (m.putIncluded depth (path :: waiting) now included) := by
  obtain ⟨hgrows, hdone⟩ := hnow
  rw [putIncluded]
  split
  · next hwaits =>
    -- The included file waits, so it leads to itself.
    have hcycle := hdue.leads_to hincluded included (by simpa using hwaits)
    exact Except.ends_error.mpr ⟨⟨included, rfl⟩, included, .single hincluded, hcycle⟩
  · next hwaits =>
    split
    · next hloaded =>
      refine Except.ends_ok.mpr ⟨hgrows, ?_⟩
      exact List.forall_mem_append.mpr ⟨hdone, by simpa using hloaded⟩
    · next hloaded =>
      obtain ⟨target, htarget⟩ := h.exists_of_includes hfile hincluded
      have hnext : IsDue m files (path :: waiting) included now := {
        walk := hgrows.walk
        once := List.nodup_cons.mpr ⟨by simpa using hwaits, hdue.once⟩
        served := List.forall_mem_cons.mpr ⟨⟨layer, hfile⟩, hdue.served⟩
        leads := hdue.leads_to hincluded
        apart := List.forall_mem_cons.mpr ⟨by simpa using hloaded, hgrows.apart⟩ }
      rw [h.load_eq _ htarget]
      refine (ih _ _ _ _ htarget hnext ?_).mono ?_ ?_
      · rw [List.length_cons]
        omega
      · rintro after ⟨hafter, hmem⟩
        refine ⟨hgrows.trans hincluded hafter, List.forall_mem_append.mpr ⟨?_, by simpa using hmem⟩⟩
        exact fun q hq => hafter.kept (hdone q hq)
      · exact fun e he => he.of_includes hincluded

theorem visit_ends (h : m.Serves files) (depth : Nat) : PutsDue m files depth := by
  induction depth with
  | zero => exact putsDue_zero h
  | succ depth ih =>
    intro waiting path layer ordered hfile hdue hdepth
    obtain ⟨targets, htargets, -⟩ := h.includes _ hfile
    have hstart : HasPut m files waiting path ordered [] ordered :=
      ⟨⟨hdue.walk, List.Subset.refl _, fun q hq => .inl hq, hdue.apart⟩, by simp⟩
    rw [visit_succ, htargets]
    show Except.Ends _ _ (targets.foldlM (m.putIncluded depth (path :: waiting)) ordered >>= _)
    refine Except.Ends.bind (Except.ends_foldlM ?_ hstart) ?_
    · intro done included now hmem hnow
      have hincluded := (h.includes_iff hfile htargets).mpr hmem
      exact putIncluded_ends h ih hfile hdue hdepth hincluded hnow
    · rintro now ⟨hgrows, hdone⟩
      obtain ⟨hnew, hapart⟩ := List.forall_mem_cons.mp hgrows.apart
      refine Except.ends_ok.mpr ⟨⟨?_, ?_, ?_, ?_⟩, List.mem_cons_self⟩
      · exact hgrows.walk.put hfile hnew
          fun q hq => hdone q ((h.includes_iff hfile htargets).mp hq)
      · exact fun q hq => List.mem_cons_of_mem path (hgrows.kept hq)
      · exact List.forall_mem_cons.mpr ⟨.inr .refl, hgrows.reached⟩
      · intro w hw hmem
        rcases List.mem_cons.mp hmem with rfl | hmem
        · exact (List.nodup_cons.mp hdue.once).1 hw
        · exact hapart w hw hmem

/-! ## All files -/

/-- What is known after some of the listed files. -/
structure HasListed (m : Machine) (files done : List (Path × Layer)) (ordered : Ordered) : Prop where
  walk : IsWalk m files ordered
  put : ∀ file ∈ done, file.1 ∈ ordered.loaded
  reached : ∀ q ∈ ordered.loaded, ∃ file ∈ done, ReflTransGen m.Includes file.1 q

theorem HasListed.next {done : List (Path × Layer)} {file : Path × Layer}
    (h : HasListed m files done before) (hgrows : Grows m files [] file.1 before after)
    (hput : file.1 ∈ after.loaded) : HasListed m files (done ++ [file]) after := by
  refine ⟨hgrows.walk, List.forall_mem_append.mpr ⟨?_, by simpa using hput⟩, ?_⟩
  · exact fun file hfile => hgrows.kept (h.put file hfile)
  · intro q hq
    rcases hgrows.reached q hq with hq | hreach
    · obtain ⟨other, hother, hreach⟩ := h.reached q hq
      exact ⟨other, List.mem_append_left _ hother, hreach⟩
    · exact ⟨file, by simp, hreach⟩

/-- Listed files are put with all that they lead to, or a cycle is reported that one of them
leads to. -/
theorem order_ends (h : m.Serves files) (hlisted : listed ⊆ files) :
    Except.Ends (fun layers => ∃ ordered, layers = ordered.layers ∧ HasListed m files listed ordered)
      (fun e => ∃ file ∈ listed, m.ReportsCycle file.1 e) (m.order listed) := by
  have hstart : HasListed m files [] {} := ⟨.start, by simp, by simp⟩
  rw [order]
  refine Except.Ends.bind (Except.ends_foldlM ?_ hstart) ?_
  · rintro done ⟨path, layer⟩ ordered hmem hdone
    dsimp only
    split
    · next hloaded =>
      have hsame : Grows m files [] path ordered ordered :=
        ⟨hdone.walk, List.Subset.refl _, fun q hq => .inl hq, by simp⟩
      exact Except.ends_ok.mpr (hdone.next hsame (by simpa using hloaded))
    · next hloaded =>
      have hdue : IsDue m files [] path ordered :=
        ⟨hdone.walk, by simp, by simp, by simp, by simpa using hloaded⟩
      refine (visit_ends h _ _ _ _ _ (hlisted hmem) hdue rfl).mono ?_ ?_
      · rintro after ⟨hgrows, hput⟩
        exact hdone.next hgrows hput
      · exact fun e he => ⟨_, hmem, he⟩
  · intro ordered hdone
    exact Except.ends_ok.mpr ⟨ordered, rfl, hdone⟩

theorem HasListed.not_leadsToCycle (h : HasListed m files listed ordered) :
    ¬ ∃ file ∈ listed, m.LeadsToCycle file.1 := by
  rintro ⟨file, hfile, c, hreach, hcycle⟩
  exact h.walk.not_transGen (h.walk.mem_of_reflTransGen (h.put file hfile) hreach) hcycle

/-- A cycle is reported if a listed file leads to one. Otherwise the files that the listed ones
lead to come out, each once and behind all that it includes, directly or not. -/
theorem order_sorts (h : m.Serves files) (hlisted : listed ⊆ files) :
    ((∃ q, m.order listed = .error (.circularInclude q)) ↔
      ∃ file ∈ listed, m.LeadsToCycle file.1) ∧
    ((¬ ∃ file ∈ listed, m.LeadsToCycle file.1) →
      ∃ sorted, m.order listed = .ok (sorted.map Prod.snd) ∧ IsSorted m files sorted ∧
        ∀ p, p ∈ sorted.map Prod.fst ↔ ∃ file ∈ listed, ReflTransGen m.Includes file.1 p) := by
  obtain ⟨hok, herror⟩ := order_ends h hlisted
  cases horder : m.order listed with
  | error e =>
    obtain ⟨file, hfile, ⟨q, rfl⟩, hcycle⟩ := herror e horder
    have hleads : ∃ file ∈ listed, m.LeadsToCycle file.1 := ⟨file, hfile, hcycle⟩
    exact ⟨⟨fun _ => hleads, fun _ => ⟨q, rfl⟩⟩, fun hnone => absurd hleads hnone⟩
  | ok layers =>
    obtain ⟨ordered, rfl, hlast⟩ := hok layers horder
    obtain ⟨sorted, hlayers, hloaded, hsorted⟩ := hlast.walk.exists_sorted
    refine ⟨⟨?_, fun hleads => absurd hleads hlast.not_leadsToCycle⟩, fun _ => ?_⟩
    · rintro ⟨q, hq⟩
      cases hq
    · refine ⟨sorted, by rw [hlayers], hsorted, ?_⟩
      intro p
      rw [← hloaded]
      constructor
      · exact hlast.reached p
      · rintro ⟨file, hfile, hreach⟩
        exact hlast.walk.mem_of_reflTransGen (hlast.put file hfile) hreach

/-- A file that includes its neighbour, the neighbour, and a file that is its own neighbour. -/
def neighbours : Machine where
  cwd := ⟨"/"⟩
  shell := ⟨"/"⟩
  home := ⟨"/"⟩
  files := ⟨[
    (["a"], .file (.text "api: dkey/v0\nincludes: [b]")),
    (["b"], .file (.text "[dkey/v0]")),
    (["d"], .directory),
    (["d", "b"], .file (.text "api: dkey/v0\nincludes: [b]"))]⟩

def neighbourFiles : List (Path × Layer) := [
  (⟨"/a"⟩, { includes := ["b"], path := some ⟨"/a"⟩ }),
  (⟨"/b"⟩, { path := some ⟨"/b"⟩ }),
  (⟨"/d/b"⟩, { includes := ["b"], path := some ⟨"/d/b"⟩ })]

set_option maxRecDepth 20000 in
theorem ofText_neighbour :
    Layer.ofText "api: dkey/v0\nincludes: [b]" = .ok { includes := ["b"] } := by
  cbv

theorem ofText_alone : Layer.ofText "[dkey/v0]" = .ok {} := by
  cbv

theorem serves_neighbours : neighbours.Serves neighbourFiles where
  canonical := by decide
  load_eq := by
    simp only [neighbourFiles, List.forall_mem_cons]
    exact ⟨load_eq_ok rfl ofText_neighbour, load_eq_ok rfl ofText_alone,
      load_eq_ok rfl ofText_neighbour, by simp⟩
  includes := by
    simp only [neighbourFiles, List.forall_mem_cons]
    exact ⟨⟨[⟨"/b"⟩], rfl, by simp⟩, ⟨[], rfl, by simp⟩, ⟨[⟨"/d/b"⟩], rfl, by simp⟩, by simp⟩

theorem order_sorts_neighbours :
    (∃ sorted, neighbours.order (neighbourFiles.take 1) = .ok (sorted.map Prod.snd) ∧
      IsSorted neighbours neighbourFiles sorted) ∧
    ∃ q, neighbours.order neighbourFiles = .error (.circularInclude q) := by
  have h := serves_neighbours
  have hend (q : Path) : ¬ neighbours.Includes ⟨"/b"⟩ q := by
    have hfile : (⟨"/b"⟩, { path := some ⟨"/b"⟩ }) ∈ neighbourFiles := by simp [neighbourFiles]
    rw [h.includes_iff hfile (show _ = Except.ok [] from rfl)]
    exact List.not_mem_nil
  have hfirst (q : Path) : neighbours.Includes ⟨"/a"⟩ q ↔ q = ⟨"/b"⟩ := by
    have hfile : (⟨"/a"⟩, { includes := ["b"], path := some ⟨"/a"⟩ }) ∈ neighbourFiles := by
      simp [neighbourFiles]
    rw [h.includes_iff hfile (show _ = Except.ok [⟨"/b"⟩] from rfl), List.mem_singleton]
  have hself : (⟨"/d/b"⟩, { includes := ["b"], path := some ⟨"/d/b"⟩ }) ∈ neighbourFiles := by
    simp [neighbourFiles]
  have hacyclic : ¬ ∃ file ∈ neighbourFiles.take 1, neighbours.LeadsToCycle file.1 := by
    rintro ⟨file, hfile, c, hreach, hcycle⟩
    obtain rfl := List.mem_singleton.mp hfile
    -- From the first file only its neighbour is reached, and nothing from there.
    obtain ⟨next, hnext, hback⟩ := TransGen.head'_iff.mp hcycle
    rcases ReflTransGen.cases_head hreach with rfl | ⟨second, hsecond, hrest⟩
    · obtain rfl := (hfirst next).mp hnext
      rcases ReflTransGen.cases_head hback with heq | ⟨third, hthird, -⟩
      · exact absurd heq (by decide)
      · exact hend third hthird
    · obtain rfl := (hfirst second).mp hsecond
      rcases ReflTransGen.cases_head hrest with rfl | ⟨third, hthird, -⟩
      · exact hend next hnext
      · exact hend third hthird
  constructor
  · obtain ⟨sorted, horder, hsorted, -⟩ := (order_sorts h (List.take_subset 1 _)).2 hacyclic
    exact ⟨sorted, horder, hsorted⟩
  · have hcycle : neighbours.Includes ⟨"/d/b"⟩ ⟨"/d/b"⟩ := by
      rw [h.includes_iff hself (show _ = Except.ok [⟨"/d/b"⟩] from rfl), List.mem_singleton]
    exact (order_sorts h (List.Subset.refl _)).1.mpr ⟨_, hself, _, .refl, .single hcycle⟩

end Machine

end KeyExpansion
