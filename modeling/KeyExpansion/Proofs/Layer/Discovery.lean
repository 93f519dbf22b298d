-- SUMMARY: Files that are found stand behind what they include, all but the local file.
import KeyExpansion.Proofs.Layer.Placement

/-! # The order of files that are found

Files that are asked for and files of the directory tree are put in order together, so each
is there once and behind all that it includes. The local file is not put with them. It comes
last as it is: what it includes is not loaded, and it may be a file that is there already. -/

namespace KeyExpansion

namespace Machine

variable {m : Machine} {start p : Path} {options : DiscoveryOptions} {texts : List String}
  {layer : Layer} {found layers : List Layer}

/-- The local file of a directory, if there is one. -/
def localOf (m : Machine) (directory : Path) : Except Error (List Layer) :=
  let path := directory.join ⟨localFileName⟩
  if m.isFile path then do return [← m.load path] else return []

/-- The files that are put in order: those asked for, and those of the directory tree. -/
structure Finds (m : Machine) (start : Path) (options : DiscoveryOptions)
    (asked : List (Path × Layer)) (found : List Layer) (tree : List (Path × Layer)) : Prop where
  asked_eq : m.loadIncludes start options.includes = .ok asked
  found_eq : m.inTree start options = .ok found
  identified : found.mapM m.identify = .ok tree

theorem discover_eq (start : Path) (options : DiscoveryOptions) :
    m.discover start options = (do
      let asked ← m.loadIncludes (m.startOf start) options.includes
      let found ← m.inTree (m.startOf start) options
      let tree ← found.mapM m.identify
      let ordered ← m.order (asked ++ tree)
      let rest ← m.localOf (m.startOf start)
      (ordered ++ rest).forM Layer.validate
      return ordered ++ rest) := by
  rw [discover]
  simp only [localOf]
  split <;> simp only [bind_assoc, pure_bind, List.append_nil]

theorem discover_eq_ok :
    m.discover start options = .ok layers ↔
      ∃ asked found tree ordered rest, m.Finds (m.startOf start) options asked found tree ∧
        m.order (asked ++ tree) = .ok ordered ∧ m.localOf (m.startOf start) = .ok rest ∧
        layers = ordered ++ rest ∧ layers.forM Layer.validate = .ok () := by
  simp only [discover_eq, Except.bind_eq_ok, Except.pure_eq_ok]
  constructor
  · rintro ⟨asked, hasked, found, hfound, tree, htree, ordered, hordered, rest, hrest, _, hvalid, rfl⟩
    exact ⟨asked, found, tree, ordered, rest, ⟨hasked, hfound, htree⟩, hordered, hrest, rfl, hvalid⟩
  · rintro ⟨asked, found, tree, ordered, rest, h, hordered, hrest, rfl, hvalid⟩
    exact ⟨asked, h.asked_eq, found, h.found_eq, tree, h.identified, ordered, hordered, rest, hrest,
      (), hvalid, rfl⟩

theorem localOf_of_load {directory : Path} (hfile : m.isFile (directory.join ⟨localFileName⟩) = true)
    (hload : m.load (directory.join ⟨localFileName⟩) = .ok layer) :
    m.localOf directory = .ok [layer] := by
  rw [localOf, if_pos hfile, hload]
  rfl

/-! ## Files of the directory tree -/

/-- The source file of a directory. -/
def sourceIn (directory : Path) : Path :=
  directory.join ⟨fileName⟩

/-- Layers of files of directories, which come nearest first: the layers come the other way. -/
structure StandIn (m : Machine) (directories : List Path) (layers : List Layer) : Prop where
  loaded : ∀ layer ∈ layers, ∃ p, m.load p = .ok layer
  inward : (layers.map Layer.path).Sublist
    (directories.map fun directory => some (sourceIn directory)).reverse

theorem StandIn.cons {directory : Path} {directories : List Path} (h : m.StandIn directories layers)
    (hload : m.load (sourceIn directory) = .ok layer) :
    m.StandIn (directory :: directories) (layers ++ [layer]) := by
  refine ⟨List.forall_mem_append.mpr ⟨h.loaded, by simpa using ⟨_, hload⟩⟩, ?_⟩
  rw [List.map_append, List.map_singleton, path_of_load hload, List.map_cons, List.reverse_cons]
  exact h.inward.append (List.Sublist.refl _)

theorem StandIn.skip {directory : Path} {directories : List Path} (h : m.StandIn directories layers) :
    m.StandIn (directory :: directories) layers := by
  refine ⟨h.loaded, ?_⟩
  rw [List.map_cons, List.reverse_cons]
  exact h.inward.trans (List.sublist_append_left _ _)

theorem standIn_nil (directories : List Path) : m.StandIn directories [] :=
  ⟨by simp, List.nil_sublist _⟩

theorem standIn_of_climb {directories : List Path} (h : m.climb directories found = .ok layers) :
    ∃ above, layers = above ++ found ∧ m.StandIn directories above := by
  induction directories generalizing found with
  | nil =>
    cases h
    exact ⟨[], rfl, standIn_nil []⟩
  | cons directory directories ih =>
    rw [climb] at h
    split at h
    · obtain ⟨layer, hload, h⟩ := Except.bind_eq_ok.mp h
      split at h
      · obtain ⟨above, rfl, habove⟩ := ih h
        exact ⟨above ++ [layer], by simp, habove.cons hload⟩
      · cases h
        exact ⟨[layer], rfl, (standIn_nil directories).cons hload⟩
    · obtain ⟨above, rfl, habove⟩ := ih h
      exact ⟨above, rfl, habove.skip⟩

theorem ancestors_eq (p : Path) : p.ancestors = p :: p.ancestors.drop 1 := by
  rw [Path.ancestors]
  cases p.parts.length <;> rfl

theorem eq_ok_of_nonempty {x : Except Error (List Layer)} {e : Error}
    (h : (do let found ← x; if found.isEmpty then throw e else return found) = .ok found) :
    x = .ok found := by
  obtain ⟨layers, hlayers, h⟩ := Except.bind_eq_ok.mp h
  split at h
  · cases h
  · rwa [← Except.pure_eq_ok.mp h]

theorem standIn_of_inTree (h : m.inTree start options = .ok found) : m.StandIn start.ancestors found := by
  rw [ancestors_eq]
  rw [inTree] at h
  dsimp only at h
  split at h
  · obtain ⟨layer, hload, h⟩ := Except.bind_eq_ok.mp h
    split at h
    · obtain ⟨above, rfl, habove⟩ := standIn_of_climb (eq_ok_of_nonempty h)
      exact habove.cons hload
    · cases eq_ok_of_nonempty h
      exact (standIn_nil _).cons hload
  · split at h
    · cases eq_ok_of_nonempty h
    · obtain ⟨above, rfl, habove⟩ := standIn_of_climb (eq_ok_of_nonempty h)
      simpa using habove.skip

theorem climb_of_load {directory : Path} {directories : List Path}
    (hfile : m.isFile (sourceIn directory) = true) (hload : m.load (sourceIn directory) = .ok layer) :
    m.climb (directory :: directories) found
      = if layer.inherit then m.climb directories (layer :: found) else .ok (layer :: found) := by
  rw [climb, ← sourceIn, if_pos hfile, hload]
  rfl

/-- The file of the start directory is there, and those of the directories above if it opens. -/
theorem inTree_of_load (hfile : m.isFile (sourceIn start) = true)
    (hload : m.load (sourceIn start) = .ok layer) :
    m.inTree start options
      = if opens options layer then m.climb (start.ancestors.drop 1) [layer] else .ok [layer] := by
  rw [inTree]
  dsimp only
  rw [← sourceIn, if_pos hfile, hload]
  change (if opens options layer = true then m.climb (start.ancestors.drop 1) [layer] >>= _
    else pure [layer] >>= _) = _
  split
  · cases hclimb : m.climb (start.ancestors.drop 1) [layer] with
    | error e => rfl
    | ok layers =>
      obtain ⟨above, rfl, -⟩ := standIn_of_climb hclimb
      change (if (above ++ [layer]).isEmpty = true then _ else _) = _
      rw [if_neg (by simp)]
      rfl
  · rfl

/-! ## Every file holds its layer -/

theorem holds_of_loadIncludes {asked : List (Path × Layer)} (h : m.loadIncludes start texts = .ok asked) :
    ∀ file ∈ asked, m.Holds file.1 file.2 := by
  intro file hfile
  obtain ⟨text, -, htext⟩ := Except.exists_of_mem_mapM h hfile
  obtain ⟨path, hpath, htext⟩ := Except.bind_eq_ok.mp htext
  obtain ⟨layer, hload, htext⟩ := Except.bind_eq_ok.mp htext
  cases Except.pure_eq_ok.mp htext
  exact ⟨path, hload, canonical?_of_resolveInclude hpath⟩

theorem holds_of_identify {file : Path × Layer} (hload : m.load p = .ok layer)
    (h : m.identify layer = .ok file) : m.Holds file.1 file.2 := by
  rw [identify, path_of_load hload] at h
  split at h
  · next path hpath =>
    cases h
    exact ⟨p, hload, hpath⟩
  · cases h

namespace Finds

variable {asked tree : List (Path × Layer)} (h : m.Finds start options asked found tree)

include h

theorem holds_of_mem_tree : ∀ file ∈ tree, m.Holds file.1 file.2 := by
  intro file hfile
  obtain ⟨layer, hlayer, hidentify⟩ := Except.exists_of_mem_mapM h.identified hfile
  obtain ⟨p, hload⟩ := (standIn_of_inTree h.found_eq).loaded layer hlayer
  exact holds_of_identify hload hidentify

theorem holds : ∀ file ∈ asked ++ tree, m.Holds file.1 file.2 :=
  List.forall_mem_append.mpr ⟨holds_of_loadIncludes h.asked_eq, h.holds_of_mem_tree⟩

end Finds

/-! ## The local file -/

theorem wellPlaced_append_localOf {ordered rest : List Layer} (hordered : m.WellPlaced ordered)
    (hrest : m.localOf start = .ok rest) :
    m.WellPlaced (ordered ++ rest) ↔ ∀ layer ∈ rest, m.Follows ordered layer := by
  rw [localOf] at hrest
  split at hrest
  · obtain ⟨layer, -, hrest⟩ := Except.bind_eq_ok.mp hrest
    cases hrest
    rw [wellPlaced_concat, and_iff_right hordered, List.forall_mem_singleton]
  · cases hrest
    simpa using hordered

/-- The files that are found are in order up to the local file. With it they are in order
exactly if it is none of the others and includes none but them. -/
theorem discover_wellPlaced_iff (h : m.discover start options = .ok layers) :
    ∃ ordered rest, layers = ordered ++ rest ∧ m.localOf (m.startOf start) = .ok rest ∧
      m.WellPlaced ordered ∧ (m.WellPlaced layers ↔ ∀ layer ∈ rest, m.Follows ordered layer) := by
  obtain ⟨asked, found, tree, ordered, rest, hfinds, horder, hrest, rfl, -⟩ := discover_eq_ok.mp h
  have hholds : ∀ file ∈ (asked ++ tree) ++ [], m.Holds file.1 file.2 := by
    simpa using hfinds.holds
  obtain ⟨-, last, -, hlast, -, rfl⟩ := order_append hholds (by simpa using horder)
  have hordered := hlast.placed.wellPlaced
  exact ⟨last.layers, rest, rfl, hrest, hordered, wellPlaced_append_localOf hordered hrest⟩

/-- Two directories in which the local file includes its neighbour. In the first of them the
other file does so too. -/
def localNeighbours : Machine where
  cwd := ⟨"/"⟩
  shell := ⟨"/"⟩
  home := ⟨"/"⟩
  files := ⟨[
    ([".dkey.yaml"], .file (.text "api: dkey/v0\nincludes: [b]")),
    ([".dkey.local.yaml"], .file (.text "api: dkey/v0\nincludes: [b]")),
    (["b"], .file (.text "[dkey/v0]")),
    (["d"], .directory),
    (["d", ".dkey.yaml"], .file (.text "[dkey/v0]")),
    (["d", ".dkey.local.yaml"], .file (.text "api: dkey/v0\nincludes: [b]")),
    (["d", "b"], .file (.text "[dkey/v0]"))]⟩

/-- What the local file includes is there, because the other file includes it. -/
theorem discover_wellPlaced_iff_neighbour :
    ∃ layers, localNeighbours.discover ⟨"/"⟩ {} = .ok layers ∧ localNeighbours.WellPlaced layers := by
  let main : Layer := { includes := ["b"], path := some ⟨"/.dkey.yaml"⟩ }
  let other : Layer := { includes := ["b"], path := some ⟨"/.dkey.local.yaml"⟩ }
  have hmain : localNeighbours.load ⟨"/.dkey.yaml"⟩ = .ok main := load_eq_ok rfl ofText_neighbour
  have hother : localNeighbours.load ⟨"/.dkey.local.yaml"⟩ = .ok other := load_eq_ok rfl ofText_neighbour
  have hb : localNeighbours.load ⟨"/b"⟩ = .ok { path := some ⟨"/b"⟩ } := load_eq_ok rfl ofText_alone
  have htree : localNeighbours.inTree ⟨"/"⟩ {} = .ok [main] := by
    rw [inTree_of_load rfl hmain]
    rfl
  have hfinds : localNeighbours.Finds ⟨"/"⟩ {} [] [main] [(⟨"/.dkey.yaml"⟩, main)] :=
    ⟨rfl, htree, rfl⟩
  have hput : localNeighbours.putIncluded 7 [⟨"/.dkey.yaml"⟩] {} ⟨"/b"⟩
      = .ok ⟨[⟨"/b"⟩], [{ path := some ⟨"/b"⟩ }]⟩ :=
    putIncluded_of_load (by decide) (by decide) hb
  have hvisit : localNeighbours.visit 8 [] ⟨"/.dkey.yaml"⟩ main {}
      = .ok ⟨[⟨"/.dkey.yaml"⟩, ⟨"/b"⟩], [{ path := some ⟨"/b"⟩ }, main]⟩ :=
    visit_of_putIncluded rfl hput
  have horder : localNeighbours.order [(⟨"/.dkey.yaml"⟩, main)]
      = .ok [{ path := some ⟨"/b"⟩ }, main] :=
    order_cons hvisit
  have hrest : localNeighbours.localOf ⟨"/"⟩ = .ok [other] := localOf_of_load rfl hother
  have hdiscover : localNeighbours.discover ⟨"/"⟩ {} = .ok [{ path := some ⟨"/b"⟩ }, main, other] :=
    discover_eq_ok.mpr ⟨_, _, _, _, _, hfinds, horder, hrest, rfl, rfl⟩
  obtain ⟨ordered, rest, hlayers, hlocal, -, hiff⟩ := discover_wellPlaced_iff hdiscover
  cases hrest.symm.trans hlocal
  have hsplit : [{ path := some ⟨"/b"⟩ }, main] ++ [other] = ordered ++ [other] := hlayers
  obtain rfl := List.append_cancel_right hsplit
  refine ⟨_, hdiscover, hiff.mpr ?_⟩
  rw [List.forall_mem_singleton]
  exact ⟨by decide, [⟨"/b"⟩], rfl, by decide⟩

/-- What the local file alone includes is not loaded. -/
theorem discover_misplaces_local :
    ∃ layers, localNeighbours.discover ⟨"/d"⟩ {} = .ok layers ∧ ¬ localNeighbours.WellPlaced layers := by
  have hload : localNeighbours.load ⟨"/d/.dkey.yaml"⟩ = .ok { path := some ⟨"/d/.dkey.yaml"⟩ } :=
    load_eq_ok rfl ofText_alone
  have hlocal : localNeighbours.load ⟨"/d/.dkey.local.yaml"⟩
      = .ok { includes := ["b"], path := some ⟨"/d/.dkey.local.yaml"⟩ } :=
    load_eq_ok rfl ofText_neighbour
  have htree : localNeighbours.inTree ⟨"/d"⟩ {} = .ok [{ path := some ⟨"/d/.dkey.yaml"⟩ }] := by
    rw [inTree_of_load rfl hload]
    rfl
  have hfinds : localNeighbours.Finds ⟨"/d"⟩ {} [] [{ path := some ⟨"/d/.dkey.yaml"⟩ }]
      [(⟨"/d/.dkey.yaml"⟩, { path := some ⟨"/d/.dkey.yaml"⟩ })] :=
    ⟨rfl, htree, rfl⟩
  have hrest : localNeighbours.localOf ⟨"/d"⟩
      = .ok [{ includes := ["b"], path := some ⟨"/d/.dkey.local.yaml"⟩ }] :=
    localOf_of_load rfl hlocal
  refine ⟨_, discover_eq_ok.mpr ⟨_, _, _, _, _, hfinds, rfl, hrest, rfl, rfl⟩, ?_⟩
  intro h
  obtain ⟨-, targets, htargets, hthere⟩ := h [_] _ [] rfl
  cases htargets
  exact absurd (hthere ⟨"/d/b"⟩ (by decide)) (by decide)

end Machine

end KeyExpansion
