-- SUMMARY: Merging two lists of layers is merging each and laying one result over the other.
import KeyExpansion.Proofs.Layer.Merging

/-! # Merging in parts

What layers merge into is told by the list of their entries alone: its names in the order in which
they come first, each with the value that comes last. So layers can be merged in groups. The result
of an upper group lies over that of a lower one: it changes values in place, and what is new in it
comes behind. -/

namespace KeyExpansion

open Yaml (Node)

/-- Keys of one spelling are one name: a number or a boolean is the same name as the string of its
text, and as no other string. -/
theorem Yaml.Node.name?_eq_name?_str {i : Int} {x : Float} {b : Bool} {text : String} :
    ((Node.int i).name? = (Node.str text).name? ↔ toString i = text) ∧
    ((Node.float x).name? = (Node.str text).name? ↔ floatText x = text) ∧
    ((Node.bool b).name? = (Node.str text).name? ↔ toString b = text) := by
  simp [name?]

namespace Merged

/-- What layers merge into. Keys that stand for one text are one name, in one layer and in
several. -/
structure IsMergedFrom (merged : Merged) (layers : List Layer) : Prop where
  names_eq : Entries.names merged.values
    = ((layers.flatMap Layer.values).filterMap fun entry => entry.1.name?).eraseDups
  distinct : (Entries.names merged.values).Nodup
  value_eq : ∀ name,
    merged.lookup? name = (Layer.lastUnder? Node.name? name layers).map Layer.valueOf
  limit_eq : merged.limit = layers.reverse.findSome? Layer.limit?
  paths_eq : merged.paths = layers.filterMap Layer.path

/-- One merged table over another. -/
def cover (below above : Merged) : Merged where
  values := Entries.layered below.values above.values
  limit := above.limit.or below.limit
  paths := below.paths ++ above.paths

/-! ## Adding layers one by one -/

theorem limit_foldl (layers : List Layer) (m : Merged) :
    (layers.foldl add m).limit = (layers.reverse.findSome? Layer.limit?).or m.limit := by
  induction layers generalizing m with
  | nil => rfl
  | cons layer layers ih =>
    rw [List.foldl_cons, ih, List.reverse_cons, List.findSome?_append, Option.or_assoc, add]
    simp

theorem paths_foldl (layers : List Layer) (m : Merged) :
    (layers.foldl add m).paths = m.paths ++ layers.filterMap Layer.path := by
  induction layers generalizing m with
  | nil => exact (List.append_nil _).symm
  | cons layer layers ih =>
    rw [List.foldl_cons, ih, add, List.filterMap_cons]
    cases layer.path <;> simp

/-! ## All layers -/

theorem values_ofLayers (layers : List Layer) :
    (ofLayers layers).values = Entries.ofList (layers.flatMap Layer.named) :=
  Layer.values_foldl_add layers {}

theorem limit_ofLayers (layers : List Layer) :
    (ofLayers layers).limit = layers.reverse.findSome? Layer.limit? := by
  rw [ofLayers, limit_foldl, Option.or_none]

theorem paths_ofLayers (layers : List Layer) :
    (ofLayers layers).paths = layers.filterMap Layer.path :=
  paths_foldl layers {}

/-- The names of layers are those that their keys stand for. -/
theorem names_flatMap_named (layers : List Layer) :
    Entries.names (layers.flatMap Layer.named)
      = (layers.flatMap Layer.values).filterMap fun entry => entry.1.name? := by
  rw [Layer.flatMap_named, Entries.names, Layer.read, List.map_filterMap]
  simp [Function.comp_def]

theorem isMergedFrom_ofLayers (layers : List Layer) : (ofLayers layers).IsMergedFrom layers where
  names_eq := by rw [values_ofLayers, Entries.names_ofList, names_flatMap_named]
  distinct := by
    rw [values_ofLayers]
    exact Entries.nodup_names_ofList _
  value_eq := Layer.lookup?_ofLayers layers
  limit_eq := limit_ofLayers layers
  paths_eq := paths_ofLayers layers

theorem ofLayers_append_eq_cover (below above : List Layer) :
    ofLayers (below ++ above) = (ofLayers below).cover (ofLayers above) := by
  have hvalues : (ofLayers (below ++ above)).values
      = Entries.layered (ofLayers below).values (ofLayers above).values := by
    rw [ofLayers, List.foldl_append, ← ofLayers, Layer.values_foldl_add, values_ofLayers above]
    exact Entries.merge_eq_layered (isMergedFrom_ofLayers below).distinct _
  have hlimit : (ofLayers (below ++ above)).limit = (ofLayers above).limit.or (ofLayers below).limit := by
    rw [ofLayers, List.foldl_append, ← ofLayers, limit_foldl, limit_ofLayers above]
  have hpaths : (ofLayers (below ++ above)).paths = (ofLayers below).paths ++ (ofLayers above).paths := by
    rw [ofLayers, List.foldl_append, ← ofLayers, paths_foldl, paths_ofLayers above]
  exact congr (congrArg₂ Merged.mk hvalues hlimit) hpaths

/-- Layers merge into the names that their keys stand for, as they come first, with the values
that come last. What two lists of layers merge into together is what the upper one merges into,
laid over what the lower one does; so it does not matter how layers are grouped. -/
theorem ofLayers_append (below above : List Layer) :
    (ofLayers below).IsMergedFrom below ∧ (ofLayers above).IsMergedFrom above ∧
    ofLayers (below ++ above) = (ofLayers below).cover (ofLayers above) ∧
    ∀ top, ((ofLayers below).cover (ofLayers above)).cover (ofLayers top)
      = (ofLayers below).cover ((ofLayers above).cover (ofLayers top)) := by
  refine ⟨isMergedFrom_ofLayers below, isMergedFrom_ofLayers above,
    ofLayers_append_eq_cover below above, fun top => ?_⟩
  rw [← ofLayers_append_eq_cover, ← ofLayers_append_eq_cover, ← ofLayers_append_eq_cover,
    ← ofLayers_append_eq_cover, List.append_assoc]

/-- The number 1 and the text `1` are one name, and so are the boolean and its text. -/
example : Entries.names (ofLayers [
    { values := [(.int 1, .str "a"), (.str "true", .null), (.str "1", .str "b")] },
    { values := [(.bool true, .str "c"), (.str "d", .null)] }]).values = ["1", "true", "d"] := by
  decide

end Merged

end KeyExpansion
