-- SUMMARY: Which files of the directory tree apply: those up to the first that does not inherit.
import KeyExpansion.Proofs.Layer.Discovery
import KeyExpansion.Proofs.Path

/-! # Files that inherit

The way up from a directory meets files, with gaps between them. It goes on past a file that lets
its parents in, and stops behind the first that does not. Options decide for the file of the start
directory in its stead; every other file decides for itself. -/

namespace KeyExpansion

namespace Machine

variable {m : Machine} {start directory : Path} {directories : List Path} {options : DiscoveryOptions}
  {goesOn : Path → Layer → Bool} {layer : Layer}

/-- A file that is met: its directory, and its layer or why it has none. -/
abbrev Meeting := Path × Except Error Layer

/-- The source file that a directory has. -/
def fileIn? (m : Machine) (directory : Path) : Option (Except Error Layer) :=
  if m.isFile (sourceIn directory) then some (m.load (sourceIn directory)) else none

/-- The files of directories. -/
def met (m : Machine) (directories : List Path) : List Meeting :=
  directories.filterMap fun directory => (m.fileIn? directory).map (directory, ·)

/-- Does the file of a directory let its parents in, when the start is another one or the same? -/
def inherits (options : DiscoveryOptions) (start directory : Path) (layer : Layer) : Bool :=
  if directory = start then opens options layer else layer.inherit

/-- The first files that are met, none left out: all but the last go on, and the last does not, or
is the last of all. -/
structure IsChain (goesOn : Path → Layer → Bool) (met chain : List Meeting) : Prop where
  nearest : chain <+: met
  inner : ∀ file ∈ chain.dropLast, ∃ layer, file.2 = .ok layer ∧ goesOn file.1 layer = true
  ended : chain = met ∨ ∃ file, chain.getLast? = some file ∧
    ∀ layer, file.2 = .ok layer → goesOn file.1 layer = false

/-- The layers of a chain, the outermost first. A file that cannot be loaded spoils it. -/
def layersOf (chain : List Meeting) : Except Error (List Layer) :=
  List.reverse <$> chain.mapM Prod.snd

/-! ## Chains -/

namespace IsChain

variable {files chain other : List Meeting}

theorem nil : IsChain goesOn [] [] :=
  ⟨List.prefix_rfl, by simp, .inl rfl⟩

/-- A file that goes on is followed by the chain behind it. -/
theorem cons (h : IsChain goesOn files chain) (hgoes : goesOn directory layer = true) :
    IsChain goesOn ((directory, .ok layer) :: files) ((directory, .ok layer) :: chain) where
  nearest := (List.prefix_cons_inj _).mpr h.nearest
  inner := by
    cases chain with
    | nil => simp
    | cons file chain =>
      rw [List.dropLast_cons_of_ne_nil (List.cons_ne_nil _ _)]
      exact List.forall_mem_cons.mpr ⟨⟨layer, rfl, hgoes⟩, h.inner⟩
  ended := by
    rcases h.ended with rfl | ⟨file, hlast, hstops⟩
    · exact .inl rfl
    · refine .inr ⟨file, ?_, hstops⟩
      rw [List.getLast?_cons, hlast]
      rfl

/-- A file that does not go on is the last one. -/
theorem stop {file : Meeting} (hstops : ∀ layer, file.2 = .ok layer → goesOn file.1 layer = false) :
    IsChain goesOn (file :: files) [file] where
  nearest := (List.prefix_cons_inj _).mpr List.nil_prefix
  inner := by simp
  ended := .inr ⟨file, rfl, hstops⟩

theorem stop_error {e : Error} :
    IsChain goesOn ((directory, .error e) :: files) [(directory, .error e)] :=
  .stop fun _ hlayer => by cases hlayer

theorem stop_ok (hstops : goesOn directory layer = false) :
    IsChain goesOn ((directory, .ok layer) :: files) [(directory, .ok layer)] :=
  .stop fun _ hlayer => Except.ok.inj hlayer ▸ hstops

/-- Only where nothing is met the chain is empty. -/
theorem ne_nil (h : IsChain goesOn files chain) (hfiles : files ≠ []) : chain ≠ [] := by
  rintro rfl
  rcases h.ended with rfl | ⟨file, hlast, -⟩
  · exact hfiles rfl
  · cases hlast

theorem eq_of_length_le (h : IsChain goesOn files chain) (hother : IsChain goesOn files other)
    (hlength : chain.length ≤ other.length) : chain = other := by
  obtain ⟨rest, rfl⟩ := List.prefix_of_prefix_length_le h.nearest hother.nearest hlength
  rcases eq_or_ne rest [] with rfl | hrest
  · exact (List.append_nil chain).symm
  · exfalso
    rcases h.ended with rfl | ⟨file, hlast, hstops⟩
    · have hlonger := hother.nearest.length_le
      have hpos := List.length_pos_iff.mpr hrest
      rw [List.length_append] at hlonger
      omega
    · -- The last file of the shorter one stops, but the longer one goes on behind it.
      have hmem : file ∈ (chain ++ rest).dropLast := by
        rw [List.dropLast_append_of_ne_nil hrest]
        exact List.mem_append_left _ (List.mem_of_getLast? hlast)
      obtain ⟨layer, hlayer, hgoes⟩ := hother.inner file hmem
      rw [hstops layer hlayer] at hgoes
      cases hgoes

theorem unique (h : IsChain goesOn files chain) (hother : IsChain goesOn files other) :
    chain = other := by
  rcases le_total chain.length other.length with hlength | hlength
  · exact h.eq_of_length_le hother hlength
  · exact (hother.eq_of_length_le h hlength).symm

end IsChain

theorem layersOf_cons (chain : List Meeting) :
    layersOf ((directory, .ok layer) :: chain) = (· ++ [layer]) <$> layersOf chain := by
  rw [layersOf, layersOf, List.mapM_cons]
  change List.reverse <$> (do let layers ← chain.mapM Prod.snd; return layer :: layers) = _
  cases chain.mapM Prod.snd with
  | error e => rfl
  | ok layers => exact congrArg Except.ok (List.reverse_cons)

theorem length_of_layersOf {chain : List Meeting} {layers : List Layer}
    (h : layersOf chain = .ok layers) : layers.length = chain.length := by
  obtain ⟨found, hfound, rfl⟩ := Except.map_eq_ok.mp h
  rw [List.length_reverse]
  exact (Except.mapM_eq_ok.mp hfound).length_eq.symm

/-! ## The way up -/

theorem fileIn?_eq_none : m.fileIn? directory = none ↔ m.isFile (sourceIn directory) = false := by
  simp [fileIn?]

theorem fileIn?_eq_some {file : Except Error Layer} : m.fileIn? directory = some file ↔
    m.isFile (sourceIn directory) = true ∧ m.load (sourceIn directory) = file := by
  simp [fileIn?]

theorem met_cons_of_none (h : m.fileIn? directory = none) :
    m.met (directory :: directories) = m.met directories := by
  simp [met, h]

theorem met_cons_of_some {file : Except Error Layer} (h : m.fileIn? directory = some file) :
    m.met (directory :: directories) = (directory, file) :: m.met directories := by
  simp [met, h]

theorem met_eq_nil : m.met directories = [] ↔ ∀ directory ∈ directories, m.fileIn? directory = none := by
  simp [met]

/-- Directories above are walked up to the first file that does not let its parents in. -/
theorem climb_eq (hself : ∀ directory ∈ directories, ∀ layer, goesOn directory layer = layer.inherit)
    (found : List Layer) : ∃ chain, IsChain goesOn (m.met directories) chain ∧
      m.climb directories found = (· ++ found) <$> layersOf chain := by
  induction directories generalizing found with
  | nil => exact ⟨[], .nil, rfl⟩
  | cons directory directories ih =>
    obtain ⟨hown, hself⟩ := List.forall_mem_cons.mp hself
    cases hfile : m.isFile (sourceIn directory) with
    | false =>
      obtain ⟨chain, hchain, hclimb⟩ := ih hself found
      refine ⟨chain, by rwa [met_cons_of_none (fileIn?_eq_none.mpr hfile)], ?_⟩
      rw [climb, ← sourceIn, hfile, ← hclimb]
      rfl
    | true =>
      rw [met_cons_of_some (fileIn?_eq_some.mpr ⟨hfile, rfl⟩)]
      cases hload : m.load (sourceIn directory) with
      | error e =>
        refine ⟨_, .stop_error, ?_⟩
        rw [climb, ← sourceIn, hfile, hload]
        rfl
      | ok layer =>
        rw [climb_of_load hfile hload]
        cases hinherit : layer.inherit with
        | true =>
          obtain ⟨chain, hchain, hclimb⟩ := ih hself (layer :: found)
          refine ⟨_, hchain.cons (by rw [hown, hinherit]), ?_⟩
          rw [if_pos rfl, hclimb, layersOf_cons]
          cases layersOf chain with
          | error e => rfl
          | ok layers => simp [Functor.map, Except.map]
        | false =>
          refine ⟨_, .stop_ok (by rw [hown, hinherit]), ?_⟩
          rw [if_neg Bool.false_ne_true, layersOf_cons]
          rfl

theorem inherits_above (start : Path) : ∀ directory ∈ start.ancestors.drop 1, ∀ layer,
    inherits options start directory layer = layer.inherit := by
  intro directory hmem layer
  have hascent := start.isAscent_ancestors
  rw [ancestors_eq] at hascent
  have hne : directory ≠ start := by
    rintro rfl
    exact hascent.not_mem hmem
  rw [inherits, if_neg hne]

/-- The start directory has a file. -/
theorem inTree_eq_of_file {file : Except Error Layer} (h : m.fileIn? start = some file) :
    ∃ chain, IsChain (inherits options start) (m.met start.ancestors) chain ∧
      m.inTree start options = layersOf chain := by
  obtain ⟨hfile, rfl⟩ := fileIn?_eq_some.mp h
  rw [ancestors_eq, met_cons_of_some h]
  have hown (layer : Layer) : inherits options start start layer = opens options layer := if_pos rfl
  cases hload : m.load (sourceIn start) with
  | error e =>
    refine ⟨_, .stop_error, ?_⟩
    rw [inTree]
    dsimp only
    rw [← sourceIn, if_pos hfile, hload]
    rfl
  | ok layer =>
    rw [inTree_of_load hfile hload]
    cases hopens : opens options layer with
    | true =>
      obtain ⟨chain, hchain, hclimb⟩ := climb_eq (m := m) (inherits_above start) [layer]
      refine ⟨_, hchain.cons (by rw [hown, hopens]), ?_⟩
      rw [if_pos rfl, hclimb, layersOf_cons]
    | false =>
      refine ⟨_, .stop_ok (by rw [hown, hopens]), ?_⟩
      rw [if_neg Bool.false_ne_true, layersOf_cons]
      rfl

/-- The start directory has no file, but may do without. -/
theorem inTree_eq_of_none (h : m.fileIn? start = none) (hoption : options.noInherit = false) :
    ∃ chain, IsChain (inherits options start) (m.met start.ancestors) chain ∧
      m.inTree start options = if chain = [] then .error (.notFoundInTree start) else layersOf chain := by
  have hfile := fileIn?_eq_none.mp h
  have habove : ∀ directory ∈ start.ancestors.drop 1, ∀ layer,
      inherits options start directory layer = layer.inherit := inherits_above start
  obtain ⟨chain, hchain, hclimb⟩ := climb_eq (m := m) habove []
  refine ⟨chain, ?_, ?_⟩
  · rw [ancestors_eq, met_cons_of_none h]
    exact hchain
  · rw [inTree]
    dsimp only
    rw [← sourceIn, hfile, hoption]
    change (do
      let found ← m.climb (start.ancestors.drop 1) []
      if found.isEmpty then throw (Error.notFoundInTree start) else return found) = _
    rw [hclimb]
    cases hlayers : layersOf chain with
    | error e =>
      have hne : chain ≠ [] := by
        rintro rfl
        cases hlayers
      rw [if_neg hne]
      rfl
    | ok layers =>
      have hlength := length_of_layersOf hlayers
      cases chain with
      | nil =>
        obtain rfl := List.length_eq_zero_iff.mp hlength
        rfl
      | cons file chain =>
        cases layers with
        | nil => cases hlength
        | cons layer layers =>
          simp [Functor.map, Except.map, bind, Except.bind, pure, Except.pure]

/-- Where the start directory has no file, it is an error not to inherit. Where no directory up to
the root has one, it is an error in any case. Otherwise the layers are those of the files that are
met on the way up to the root, as far as the first that does not inherit, with none left out and
the outermost first. -/
theorem inTree_inherits (m : Machine) (start : Path) (options : DiscoveryOptions) :
    Path.IsAscent start start.ancestors ∧
    (m.fileIn? start = none → options.noInherit = true →
      m.inTree start options = .error (.notFoundAtPath start)) ∧
    ((∀ directory ∈ start.ancestors, m.fileIn? directory = none) → options.noInherit = false →
      m.inTree start options = .error (.notFoundInTree start)) ∧
    ((∃ directory ∈ start.ancestors, m.fileIn? directory ≠ none) →
      (m.fileIn? start = none → options.noInherit = false) →
      ∃ chain, IsChain (inherits options start) (m.met start.ancestors) chain ∧ chain ≠ [] ∧
        m.inTree start options = layersOf chain) := by
  refine ⟨start.isAscent_ancestors, ?_, ?_, ?_⟩
  · intro hnone hoption
    have hfile := fileIn?_eq_none.mp hnone
    rw [inTree]
    dsimp only
    rw [← sourceIn, hfile, hoption]
    rfl
  · intro hnone hoption
    have hstart : start ∈ start.ancestors := by
      rw [ancestors_eq]
      exact List.mem_cons_self
    obtain ⟨chain, hchain, htree⟩ := inTree_eq_of_none (hnone start hstart) hoption
    have hempty : chain = [] := by
      rw [met_eq_nil.mpr hnone] at hchain
      exact List.prefix_nil.mp hchain.nearest
    rw [htree, if_pos hempty]
  · rintro ⟨directory, hmem, hsome⟩ hoption
    have hmet : m.met start.ancestors ≠ [] := fun hnil => hsome (met_eq_nil.mp hnil directory hmem)
    cases hstart : m.fileIn? start with
    | none =>
      obtain ⟨chain, hchain, htree⟩ := inTree_eq_of_none hstart (hoption hstart)
      have hne := hchain.ne_nil hmet
      exact ⟨chain, hchain, hne, by rw [htree, if_neg hne]⟩
    | some file =>
      obtain ⟨chain, hchain, htree⟩ : ∃ chain, IsChain (inherits options start)
          (m.met start.ancestors) chain ∧ m.inTree start options = layersOf chain :=
        inTree_eq_of_file hstart
      exact ⟨chain, hchain, hchain.ne_nil hmet, htree⟩

/-- A directory three levels down, without a file in the second. -/
def gapped : Machine where
  cwd := ⟨"/"⟩
  shell := ⟨"/"⟩
  home := ⟨"/"⟩
  files := ⟨[
    ([".dkey.yaml"], .file (.text "[dkey/v0]")),
    (["a"], .directory),
    (["a", ".dkey.yaml"], .file (.text "[dkey/v0]")),
    (["a", "b"], .directory),
    (["a", "b", "c"], .directory),
    (["a", "b", "c", ".dkey.yaml"], .file (.text "[dkey/v0]"))]⟩

theorem ancestors_gapped :
    (⟨"/a/b/c"⟩ : Path).ancestors = [⟨"/a/b/c"⟩, ⟨"/a/b"⟩, ⟨"/a"⟩, ⟨"/"⟩] := by
  decide

/-- The file of the start directory is made to let its parents in, and the next one above the gap
does not, so that of the root is left out. -/
theorem inTree_inherits_gap :
    gapped.inTree ⟨"/a/b/c"⟩ { forceInherit := true }
      = .ok [{ path := some ⟨"/a/.dkey.yaml"⟩ }, { path := some ⟨"/a/b/c/.dkey.yaml"⟩ }] ∧
    gapped.inTree ⟨"/a/b"⟩ { noInherit := true } = .error (.notFoundAtPath ⟨"/a/b"⟩) ∧
    Machine.inTree default ⟨"/a"⟩ {} = .error (.notFoundInTree ⟨"/a"⟩) := by
  refine ⟨?_, (inTree_inherits gapped _ _).2.1 rfl rfl,
    (inTree_inherits default ⟨"/a"⟩ {}).2.2.1 (by decide) rfl⟩
  let file (path : Path) : Except Error Layer := .ok { path := some path }
  have hfile (directory : Path) (h : gapped.files.text? (gapped.fromHere (sourceIn directory))
      = some "[dkey/v0]") (hthere : gapped.isFile (sourceIn directory) = true) :
      gapped.fileIn? directory = some (file (sourceIn directory)) :=
    fileIn?_eq_some.mpr ⟨hthere, load_eq_ok h ofText_alone⟩
  have hstart := hfile ⟨"/a/b/c"⟩ rfl rfl
  have hgap : gapped.fileIn? ⟨"/a/b"⟩ = none := fileIn?_eq_none.mpr rfl
  have hmet : gapped.met (⟨"/a/b/c"⟩ : Path).ancestors = [(⟨"/a/b/c"⟩, file ⟨"/a/b/c/.dkey.yaml"⟩),
      (⟨"/a"⟩, file ⟨"/a/.dkey.yaml"⟩), (⟨"/"⟩, file ⟨"/.dkey.yaml"⟩)] := by
    rw [ancestors_gapped, met_cons_of_some hstart, met_cons_of_none hgap,
      met_cons_of_some (hfile ⟨"/a"⟩ rfl rfl), met_cons_of_some (hfile ⟨"/"⟩ rfl rfl)]
    rfl
  obtain ⟨chain, hchain, -, htree⟩ :=
    (inTree_inherits gapped ⟨"/a/b/c"⟩ { forceInherit := true }).2.2.2
      ⟨_, by rw [ancestors_gapped]; exact List.mem_cons_self, by simp [hstart]⟩ (by simp)
  rw [hmet] at hchain
  have hstop : IsChain (inherits { forceInherit := true } ⟨"/a/b/c"⟩)
      [(⟨"/a"⟩, file ⟨"/a/.dkey.yaml"⟩), (⟨"/"⟩, file ⟨"/.dkey.yaml"⟩)]
      [(⟨"/a"⟩, file ⟨"/a/.dkey.yaml"⟩)] := by
    refine .stop fun layer hlayer => ?_
    cases hlayer
    rfl
  rw [htree, hchain.unique (hstop.cons rfl)]
  rfl

end Machine

end KeyExpansion
