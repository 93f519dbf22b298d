-- SUMMARY: The file of a deeper directory overrides that of an outer one, unless an earlier file includes it.
import KeyExpansion.Proofs.Layer.Discovery
import KeyExpansion.Proofs.Layer.Merging

/-! # Which directory overrides which

Files of the directory tree are listed from the outside in, behind the files that are asked
for. A file is put where the first listed file stands that leads to it. So a deeper file comes
after an outer one unless the outer one includes it, or something that is put before. -/

namespace KeyExpansion

/-! ## Layers that have the last word -/

namespace Layer

/-- The value that a layer gives to a name. -/
def value? (layer : Layer) (name : String) : Option Value :=
  Entries.get? layer.named.reverse name

end Layer

namespace Merged

variable {name : String} {value : Value} {layer : Layer}

theorem lookup?_add (merged : Merged) (layer : Layer) (name : String) :
    (merged.add layer).lookup? name = (layer.value? name).or (merged.lookup? name) :=
  Entries.get?_merge _ _ _

theorem lookup?_foldl_add (layers : List Layer) (merged : Merged) (name : String) :
    (layers.foldl add merged).lookup? name
      = (layers.reverse.findSome? (·.value? name)).or (merged.lookup? name) := by
  induction layers generalizing merged with
  | nil => rfl
  | cons layer layers ih =>
    rw [List.foldl_cons, ih, lookup?_add, List.reverse_cons, List.findSome?_append, Option.or_assoc]
    simp

/-- A layer has the last word on a name that no later layer has a value for. -/
theorem lookup?_of_last {front back : List Layer} (h : layer.value? name = some value)
    (hback : ∀ later ∈ back, later.value? name = none) :
    (ofLayers (front ++ layer :: back)).lookup? name = some value := by
  have hnone : back.reverse.findSome? (·.value? name) = none :=
    List.findSome?_eq_none_iff.mpr (by simpa using hback)
  rw [ofLayers, List.foldl_append, List.foldl_cons, lookup?_foldl_add, lookup?_add, hnone, h]
  rfl

end Merged

namespace Machine

variable {m : Machine} {start : Path} {options : DiscoveryOptions} {found layers : List Layer}
  {asked tree : List (Path × Layer)} {above below : Path × Layer} {first last : Ordered}
  {p q : Path}

/-- One file comes before another, and the other has the last word on the names of its own that
no layer behind it has a value for. -/
def Overrides (m : Machine) (layers : List Layer) (above below : Path × Layer) : Prop :=
  ∃ front outer middle inner back,
    layers = front ++ outer :: middle ++ inner :: back ∧
    (m.fileOf? outer = some above.1 ∧ outer = { above.2 with path := outer.path }) ∧
    (m.fileOf? inner = some below.1 ∧ inner = { below.2 with path := inner.path }) ∧
    some below.1 ∉ (front ++ outer :: middle).map m.fileOf? ∧
    ∀ name value, below.2.value? name = some value → (∀ layer ∈ back, layer.value? name = none) →
      (Merged.ofLayers layers).lookup? name = some value

theorem snd_of_identify {layer : Layer} {file : Path × Layer} (h : m.identify layer = .ok file) :
    file.2 = layer := by
  rw [identify] at h
  split at h
  · cases h
    rfl
  · cases h

theorem Finds.map_snd (h : m.Finds start options asked found tree) : tree.map Prod.snd = found := by
  have hforall := Except.mapM_eq_ok.mp h.identified
  clear h
  induction hforall with
  | nil => rfl
  | cons hidentify _ ih => rw [List.map_cons, snd_of_identify hidentify, ih]

/-- A file that is placed later stands behind. -/
theorem IsPlaced.exists_split (hfirst : IsPlaced m first) (hlast : IsPlaced m last)
    (hkept : first.layers <+: last.layers) (hp : p ∈ first.loaded) (hq : q ∈ last.loaded)
    (hnew : q ∉ first.loaded) :
    ∃ front outer middle inner back, last.layers = front ++ outer :: middle ++ inner :: back ∧
      m.fileOf? outer = some p ∧ m.fileOf? inner = some q ∧
      some q ∉ (front ++ outer :: middle).map m.fileOf? := by
  obtain ⟨more, hmore⟩ := hkept
  rw [hfirst.mem_loaded_iff] at hp hnew
  rw [hlast.mem_loaded_iff, ← hmore, List.map_append, List.mem_append, or_iff_right hnew] at hq
  obtain ⟨outer, houter, hp⟩ := List.mem_map.mp hp
  obtain ⟨inner, hinner, hq⟩ := List.mem_map.mp hq
  obtain ⟨front, middle, hfront⟩ := List.append_of_mem houter
  obtain ⟨between, back, hback⟩ := List.append_of_mem hinner
  have hlayers : last.layers = front ++ outer :: (middle ++ between) ++ inner :: back := by
    rw [← hmore, hfront, hback]
    simp
  refine ⟨front, outer, middle ++ between, inner, back, hlayers, hp, hq, ?_⟩
  rw [← hq]
  exact (hlast.wellPlaced _ _ _ hlayers).1

/-- A file that is placed later overrides one that is placed before. -/
theorem IsPlaced.overrides (hfirst : IsPlaced m first) (hlast : IsPlaced m last)
    (hkept : first.layers <+: last.layers) (hput : above.1 ∈ first.loaded)
    (hmem : below.1 ∈ last.loaded) (hnew : below.1 ∉ first.loaded)
    (habove : m.Holds above.1 above.2) (hbelow : m.Holds below.1 below.2) (rest : List Layer) :
    m.Overrides (last.layers ++ rest) above below := by
  obtain ⟨front, outer, middle, inner, back, hlayers, houter, hinner, hsole⟩ :=
    hfirst.exists_split hlast hkept hput hmem hnew
  have houter_mem : outer ∈ last.layers := by simp [hlayers]
  have hinner_mem : inner ∈ last.layers := by simp [hlayers]
  have houter_eq := habove.eq_of_path (hlast.holds_of_mem houter_mem houter)
  have hinner_eq := hbelow.eq_of_path (hlast.holds_of_mem hinner_mem hinner)
  have hall : last.layers ++ rest = (front ++ outer :: middle) ++ inner :: (back ++ rest) := by
    simp [hlayers]
  rw [hall]
  refine ⟨front, outer, middle, inner, back ++ rest, rfl, ⟨houter, houter_eq⟩, ⟨hinner, hinner_eq⟩,
    hsole, ?_⟩
  intro name value hvalue hback
  -- Only the path that is written down differs, so the values are those of the file.
  have hinner_value : inner.value? name = some value := by
    rw [hinner_eq]
    exact hvalue
  exact Merged.lookup?_of_last hinner_value hback

/-- Of two files of the directory tree, the one that stands further in overrides the other,
unless it is led to by a file that is listed no later than the other is first listed. -/
theorem discover_overrides (h : m.discover start options = .ok layers) :
    ∃ asked found tree, m.Finds (m.startOf start) options asked found tree ∧
      m.StandIn (m.startOf start).ancestors (tree.map Prod.snd) ∧
      ∀ above below, [above, below].Sublist tree →
        ∀ earlier first later, asked ++ tree = earlier ++ first :: later → first.1 = above.1 →
          (∀ file ∈ earlier ++ [first], ¬ m.LeadsTo file below.1) → m.Overrides layers above below := by
  obtain ⟨asked, found, tree, ordered, rest, hfinds, horder, -, rfl, -⟩ := discover_eq_ok.mp h
  refine ⟨asked, found, tree, hfinds, ?_, ?_⟩
  · rw [hfinds.map_snd]
    exact standIn_of_inTree hfinds.found_eq
  intro above below hpair earlier source later hlisted hsource hapart
  have habove : above ∈ tree := hpair.subset (by simp)
  have hbelow : below ∈ tree := hpair.subset (by simp)
  have hsplit : asked ++ tree = (earlier ++ [source]) ++ later := by
    rw [hlisted]
    simp
  -- Up to the first place where the outer file is listed, the inner one has not been put.
  obtain ⟨first, last, hfirst, hlast, hkept, rfl⟩ :=
    order_append (by rw [← hsplit]; exact hfinds.holds) (by rwa [← hsplit])
  have hput : above.1 ∈ first.loaded := by
    rw [← hsource]
    exact hfirst.put source (by simp)
  have hmem : below.1 ∈ last.loaded := by
    refine hlast.put below ?_
    rw [← hsplit]
    exact List.mem_append_right asked hbelow
  have hnew : below.1 ∉ first.loaded := by
    intro hloaded
    obtain ⟨file, hfile, hlead⟩ := hfirst.reached _ hloaded
    exact hapart file hfile hlead
  exact hfirst.placed.overrides hlast.placed hkept hput hmem hnew
    (hfinds.holds_of_mem_tree above habove) (hfinds.holds_of_mem_tree below hbelow) rest

/-- Two directories with a directory inside. In the second of them the outer file includes the
inner one. -/
def nested : Machine where
  cwd := ⟨"/"⟩
  shell := ⟨"/"⟩
  home := ⟨"/"⟩
  files := ⟨[
    ([".dkey.yaml"], .file (.text "api: dkey/v0\nvalues: \x7ba: above\x7d")),
    (["c"], .directory),
    (["c", ".dkey.yaml"], .file (.text "api: dkey/v0\ninherit: true\nvalues: \x7ba: below\x7d")),
    (["d"], .directory),
    (["d", ".dkey.yaml"],
      .file (.text "api: dkey/v0\nincludes: [c/.dkey.yaml]\nvalues: \x7ba: above\x7d")),
    (["d", "c"], .directory),
    (["d", "c", ".dkey.yaml"], .file (.text "api: dkey/v0\ninherit: true\nvalues: \x7ba: below\x7d"))]⟩

def outerLayer (includes : List String) (path : Path) : Layer :=
  { includes, values := [(.str "a", .str "above")], path := some path }

def innerLayer (path : Path) : Layer :=
  { inherit := true, values := [(.str "a", .str "below")], path := some path }

set_option maxRecDepth 20000 in
theorem ofText_outer : Layer.ofText "api: dkey/v0\nvalues: \x7ba: above\x7d"
    = .ok { values := [(.str "a", .str "above")] } := by
  cbv

set_option maxRecDepth 20000 in
theorem ofText_outer_including :
    Layer.ofText "api: dkey/v0\nincludes: [c/.dkey.yaml]\nvalues: \x7ba: above\x7d"
      = .ok { includes := ["c/.dkey.yaml"], values := [(.str "a", .str "above")] } := by
  cbv

set_option maxRecDepth 20000 in
theorem ofText_inner : Layer.ofText "api: dkey/v0\ninherit: true\nvalues: \x7ba: below\x7d"
    = .ok { inherit := true, values := [(.str "a", .str "below")] } := by
  cbv

theorem ancestors_nested : (⟨"/c"⟩ : Path).ancestors.drop 1 = [⟨"/"⟩] := by
  decide

theorem ancestors_nested_including : (⟨"/d/c"⟩ : Path).ancestors.drop 1 = [⟨"/d"⟩, ⟨"/"⟩] := by
  decide

/-- The inner file overrides the outer one. -/
theorem discover_overrides_nested :
    let outer := outerLayer [] ⟨"/.dkey.yaml"⟩
    let inner := innerLayer ⟨"/c/.dkey.yaml"⟩
    nested.discover ⟨"/c"⟩ {} = .ok [outer, inner] ∧
      nested.Overrides [outer, inner] (⟨"/.dkey.yaml"⟩, outer) (⟨"/c/.dkey.yaml"⟩, inner) := by
  intro outer inner
  have houter : nested.load ⟨"/.dkey.yaml"⟩ = .ok outer := load_eq_ok rfl ofText_outer
  have hinner : nested.load ⟨"/c/.dkey.yaml"⟩ = .ok inner := load_eq_ok rfl ofText_inner
  have htree : nested.inTree ⟨"/c"⟩ {} = .ok [outer, inner] := by
    rw [inTree_of_load rfl hinner, if_pos (by rfl), ancestors_nested, climb_of_load rfl houter,
      if_neg (by decide)]
  have hfinds : nested.Finds ⟨"/c"⟩ {} [] [outer, inner]
      [(⟨"/.dkey.yaml"⟩, outer), (⟨"/c/.dkey.yaml"⟩, inner)] :=
    ⟨rfl, htree, rfl⟩
  have hdiscover : nested.discover ⟨"/c"⟩ {} = .ok [outer, inner] :=
    discover_eq_ok.mpr ⟨_, _, _, _, _, hfinds, rfl, rfl, rfl, rfl⟩
  refine ⟨hdiscover, ?_⟩
  obtain ⟨asked, found, tree, hfinds', -, hoverrides⟩ := discover_overrides hdiscover
  cases hfinds.asked_eq.symm.trans hfinds'.asked_eq
  cases hfinds.found_eq.symm.trans hfinds'.found_eq
  cases hfinds.identified.symm.trans hfinds'.identified
  refine hoverrides _ _ (List.Sublist.refl _) [] _ _ rfl rfl ?_
  rw [List.nil_append, List.forall_mem_singleton]
  rintro (hpath | ⟨targets, htargets, next, hnext, -⟩)
  · exact absurd hpath (by decide)
  · cases htargets
    cases hnext

/-- An inner file that the outer one includes comes first, and the outer one has the last word. -/
theorem discover_puts_included_first :
    let outer := outerLayer ["c/.dkey.yaml"] ⟨"/d/.dkey.yaml"⟩
    let inner := innerLayer ⟨"/d/c/.dkey.yaml"⟩
    nested.inTree ⟨"/d/c"⟩ {} = .ok [outer, inner] ∧ nested.discover ⟨"/d/c"⟩ {} = .ok [inner, outer] ∧
      ¬ nested.Overrides [inner, outer] (⟨"/d/.dkey.yaml"⟩, outer) (⟨"/d/c/.dkey.yaml"⟩, inner) ∧
      (Merged.ofLayers [inner, outer]).lookup? "a" = some (.str "above") := by
  intro outer inner
  have houter : nested.load ⟨"/d/.dkey.yaml"⟩ = .ok outer := load_eq_ok rfl ofText_outer_including
  have hinner : nested.load ⟨"/d/c/.dkey.yaml"⟩ = .ok inner := load_eq_ok rfl ofText_inner
  have htree : nested.inTree ⟨"/d/c"⟩ {} = .ok [outer, inner] := by
    rw [inTree_of_load rfl hinner, if_pos (by rfl), ancestors_nested_including,
      climb_of_load rfl houter, if_neg (by decide)]
  have hfinds : nested.Finds ⟨"/d/c"⟩ {} [] [outer, inner]
      [(⟨"/d/.dkey.yaml"⟩, outer), (⟨"/d/c/.dkey.yaml"⟩, inner)] :=
    ⟨rfl, htree, rfl⟩
  have hput : nested.putIncluded 7 [⟨"/d/.dkey.yaml"⟩] {} ⟨"/d/c/.dkey.yaml"⟩
      = .ok ⟨[⟨"/d/c/.dkey.yaml"⟩], [inner]⟩ :=
    putIncluded_of_load (by decide) (by decide) hinner
  have hvisit : nested.visit 8 [] ⟨"/d/.dkey.yaml"⟩ outer {}
      = .ok ⟨[⟨"/d/.dkey.yaml"⟩, ⟨"/d/c/.dkey.yaml"⟩], [inner, outer]⟩ :=
    visit_of_putIncluded rfl hput
  have horder : nested.order [(⟨"/d/.dkey.yaml"⟩, outer), (⟨"/d/c/.dkey.yaml"⟩, inner)]
      = .ok [inner, outer] := by
    rw [order_cons hvisit]
    rfl
  refine ⟨htree, discover_eq_ok.mpr ⟨_, _, _, _, _, hfinds, horder, rfl, rfl, rfl⟩, ?_, rfl⟩
  rintro ⟨front, above, middle, below, back, hlayers, ⟨habove, -⟩, -, -, -⟩
  cases front with
  | nil =>
    obtain ⟨rfl, -⟩ := List.cons.inj hlayers
    exact absurd habove (by decide)
  | cons =>
    have hlength := congrArg List.length hlayers
    simp at hlength
    omega

end Machine

end KeyExpansion
