-- SUMMARY: Which entry answers for a name in merged layers, and in layers that are asked.
import KeyExpansion.Layer.Merged
import KeyExpansion.Proofs.Value.Entries
import KeyExpansion.Proofs.Yaml.Distinct
import Mathlib.Data.List.Basic

/-! # Merging layers and asking them

Merging reads keys as the names that they stand for, so that the number 1 and the text `1`
are one name. A layer that is asked itself knows the keys that are texts and no other. Both
give the last entry under a name, so they differ exactly where the last entry that stands
for the name does not have the name itself as its key. Asking goes by the first entry of a
layer, which is the last one because a mapping that was read has no key twice. -/

namespace KeyExpansion

open Yaml (Node)

/-- The text that a mapping key is. -/
def Yaml.Node.text? : Node → Option String
  | .str s => some s
  | _ => none

theorem Yaml.Node.text?_eq_some {node : Node} {name : String} :
    node.text? = some name ↔ node = .str name := by
  cases node <;> simp [text?]

/-- A text stands for itself. -/
theorem Yaml.Node.name?_of_text? {node : Node} {name : String} (h : node.text? = some name) :
    node.name? = some name := by
  obtain rfl := text?_eq_some.mp h
  rfl

namespace Layer

/-- No key is there twice. -/
def HasDistinctKeys (layer : Layer) : Prop :=
  Yaml.DistinctKeys layer.values

/-- The first entry under a name, where keys are read as `read` says. -/
def firstUnder? (read : Node → Option String) (name : String) (entries : List (Node × Node)) :
    Option (Node × Node) :=
  entries.find? fun entry => read entry.1 == some name

/-- The last entry of all layers under a name, where keys are read as `read` says. -/
def lastUnder? (read : Node → Option String) (name : String) (layers : List Layer) :
    Option (Node × Node) :=
  firstUnder? read name (layers.flatMap Layer.values).reverse

/-- The value of an entry. -/
def valueOf (entry : Node × Node) : Value :=
  Value.ofNode entry.2

/-- The values of entries under the names that their keys are read as. -/
def read (read : Node → Option String) (entries : List (Node × Node)) : List (String × Value) :=
  entries.filterMap fun entry => (read entry.1).map fun name => (name, valueOf entry)

theorem get?_read (key : Node → Option String) (entries : List (Node × Node)) (name : String) :
    Entries.get? (read key entries) name = (firstUnder? key name entries).map valueOf := by
  induction entries with
  | nil => rfl
  | cons entry entries ih =>
    unfold read firstUnder? at ih ⊢
    rw [List.filterMap_cons, List.find?_cons]
    cases hkey : key entry.1 with
    | none => simpa [hkey] using ih
    | some own =>
      simp only [Option.map_some, Entries.get?_cons, ih]
      by_cases hown : own = name
      · simp [hown]
      · have hne : (some own == some name) = false := by simpa using hown
        simp [hown, hne]

theorem texts_eq (layer : Layer) : layer.texts = read Node.text? layer.values := by
  unfold texts read
  refine List.filterMap_congr fun entry _ => ?_
  obtain ⟨key, value⟩ := entry
  cases key <;> rfl

/-! ## Layers that are read -/

theorem isProper_of_fields? {known : List String} {entries : List (Node × Node)}
    {fields : List (String × Node)} (hentries : ∀ entry ∈ entries, entry.2.IsProper)
    (h : fields? known entries = some fields) : ∀ field ∈ fields, field.2.IsProper := by
  induction entries generalizing fields with
  | nil =>
    cases h
    simp
  | cons entry entries ih =>
    obtain ⟨hentry, hrest⟩ := List.forall_mem_cons.mp hentries
    unfold fields? at h
    split at h
    · rename_i hfields
      split at h
      · cases h
      · cases h
        exact List.forall_mem_cons.mpr ⟨hentry, ih hrest hfields⟩
    · cases h

theorem distinctKeys_of_readMapping? {node : Node} {values : List (Node × Node)}
    (hnode : node.IsProper) (h : readMapping? node = some values) : Yaml.DistinctKeys values := by
  have hinner := hnode.untagged
  unfold readMapping? at h
  split at h
  · rename_i entries hmapping
    cases h
    rw [hmapping] at hinner
    cases hinner with
    | mapping distinct _ _ => exact distinct
  · cases h
    exact .nil
  · cases h

theorem hasDistinctKeys_of_ofFields? {fields : List (String × Node)} {layer : Layer}
    (hfields : ∀ field ∈ fields, field.2.IsProper) (h : ofFields? fields = some layer) :
    layer.HasDistinctKeys := by
  obtain ⟨api, -, h⟩ := Option.bind_eq_some_iff.mp h
  obtain ⟨-, -, h⟩ := Option.bind_eq_some_iff.mp h
  obtain ⟨description, -, h⟩ := Option.bind_eq_some_iff.mp h
  obtain ⟨inherits, -, h⟩ := Option.bind_eq_some_iff.mp h
  obtain ⟨includes, -, h⟩ := Option.bind_eq_some_iff.mp h
  obtain ⟨values, hvalues, h⟩ := Option.bind_eq_some_iff.mp h
  obtain ⟨settings, -, h⟩ := Option.bind_eq_some_iff.mp h
  cases h
  refine distinctKeys_of_readMapping? ?_ hvalues
  cases hlookup : fields.lookup "values" with
  | none => exact .null
  | some node =>
    obtain ⟨before, after, rfl, -⟩ := List.lookup_eq_some_iff.mp hlookup
    exact hfields ("values", node) (by simp)

/-- A layer that is read from a text has distinct keys. -/
theorem hasDistinctKeys_of_ofText {text : String} {layer : Layer} (h : ofText text = .ok layer) :
    layer.HasDistinctKeys := by
  unfold ofText at h
  split at h
  · rename_i hread
    cases h
    obtain ⟨node, hnode, hlayer⟩ := Option.bind_eq_some_iff.mp hread
    have hinner := (Yaml.isProper_of_read? hnode).untagged
    unfold ofNode? at hlayer
    split at hlayer
    · rename_i entries hmapping
      rw [hmapping] at hinner
      obtain ⟨fields, hfields, hlayer⟩ := Option.bind_eq_some_iff.mp hlayer
      cases hinner with
      | mapping _ _ value =>
        exact hasDistinctKeys_of_ofFields? (isProper_of_fields? value hfields) hlayer
    · split at hlayer
      · cases hlayer
        exact .nil
      · cases hlayer
    · cases hlayer
  · cases h

/-! ## Asking layers -/

/-- Where at most one item is looked for, it does not matter from which end. -/
theorem find?_reverse {α : Type} {p : α → Bool} {xs : List α}
    (h : xs.Pairwise fun a b => p a = true → p b = false) : xs.reverse.find? p = xs.find? p := by
  induction xs with
  | nil => rfl
  | cons x xs ih =>
    obtain ⟨hx, hxs⟩ := List.pairwise_cons.mp h
    rw [List.reverse_cons, List.find?_append, ih hxs, List.find?_cons]
    cases hp : p x with
    | false => simp [hp]
    | true =>
      have hnone : xs.find? p = none := by
        refine List.find?_eq_none.mpr fun y hy => ?_
        simp [hx y hy hp]
      simp [hnone, hp]

/-- A layer holds a text as a key once at most. -/
theorem HasDistinctKeys.firstUnder?_reverse {layer : Layer} (h : layer.HasDistinctKeys) (name : String) :
    firstUnder? Node.text? name layer.values.reverse = firstUnder? Node.text? name layer.values := by
  refine find?_reverse (h.imp fun {a b} hdistinct ha => ?_)
  have ha := Node.text?_eq_some.mp (by simpa using ha)
  by_contra hb
  have hb := Node.text?_eq_some.mp (by simpa using hb)
  simp [ha, hb, Node.same] at hdistinct

theorem HasDistinctKeys.lookup?_eq {layer : Layer} (h : layer.HasDistinctKeys) (name : String) :
    layer.lookup? name = (firstUnder? Node.text? name layer.values.reverse).map valueOf := by
  rw [lookup?, texts_eq, get?_read, h.firstUnder?_reverse]

theorem firstUnder?_append (key : Node → Option String) (name : String) (as bs : List (Node × Node)) :
    firstUnder? key name (as ++ bs) = (firstUnder? key name as).or (firstUnder? key name bs) :=
  List.find?_append

/-- Layers that are asked in order give the value of the first that holds the name as a key. -/
theorem find_sources {layers : List Layer} (h : ∀ layer ∈ layers, layer.HasDistinctKeys)
    (name : String) : Sources.find name (layers.map Layer.source)
      = pure ((firstUnder? Node.text? name (layers.flatMap (List.reverse ∘ Layer.values))).map valueOf) := by
  induction layers with
  | nil => rfl
  | cons layer layers ih =>
    have hlayer : layer.source.lookup name
        = pure ((firstUnder? Node.text? name layer.values.reverse).map valueOf) :=
      congrArg pure ((h layer (by simp)).lookup?_eq name)
    rw [List.map_cons, Sources.find, hlayer, pure_bind,
      ih fun other hother => h other (List.mem_cons_of_mem _ hother), List.flatMap_cons,
      firstUnder?_append, Function.comp_apply]
    cases firstUnder? Node.text? name layer.values.reverse <;> rfl

/-- Layers that are asked from the last one give the value of the last entry whose key is the
name. -/
theorem find_reverse_sources {layers : List Layer} (h : ∀ layer ∈ layers, layer.HasDistinctKeys)
    (name : String) : Sources.find name (layers.reverse.map Layer.source)
      = pure ((lastUnder? Node.text? name layers).map valueOf) := by
  rw [find_sources (by simpa using h), ← List.reverse_flatMap]
  rfl

/-! ## Merging layers -/

theorem flatMap_named (layers : List Layer) :
    layers.flatMap named = read Node.name? (layers.flatMap Layer.values) :=
  List.filterMap_flatMap.symm

/-- Adding layers one by one merges their entries as one list. -/
theorem values_foldl_add (layers : List Layer) (m : Merged) :
    (layers.foldl Merged.add m).values = Entries.merge m.values (layers.flatMap named) := by
  induction layers generalizing m with
  | nil => rfl
  | cons layer layers ih =>
    rw [List.foldl_cons, ih, List.flatMap_cons, Entries.merge_append]
    rfl

/-- Merged layers give the value of the last entry that stands for the name. -/
theorem lookup?_ofLayers (layers : List Layer) (name : String) :
    (Merged.ofLayers layers).lookup? name = (lastUnder? Node.name? name layers).map valueOf := by
  rw [Merged.lookup?, Merged.ofLayers, values_foldl_add, Entries.get?_merge, Entries.get?_nil,
    Option.or_none, flatMap_named, read, ← List.filterMap_reverse]
  exact get?_read Node.name? _ name

/-! ## Where they differ -/

theorem read_of_firstUnder? {key : Node → Option String} {name : String} {entries : List (Node × Node)}
    {entry : Node × Node} (h : firstUnder? key name entries = some entry) : key entry.1 = some name := by
  simpa using List.find?_some h

/-- The same entry is first under both readings of keys exactly if its key is a text. -/
theorem firstUnder?_eq_iff (name : String) (entries : List (Node × Node)) :
    firstUnder? Node.name? name entries = firstUnder? Node.text? name entries ↔
      ∀ entry ∈ firstUnder? Node.name? name entries, entry.1 = .str name := by
  induction entries with
  | nil => simp [firstUnder?]
  | cons entry entries ih =>
    unfold firstUnder? at ih ⊢
    rw [List.find?_cons, List.find?_cons]
    by_cases htext : entry.1.text? = some name
    · have hname := Node.name?_of_text? htext
      simpa [htext, hname] using Node.text?_eq_some.mp htext
    · have hother : (entry.1.text? == some name) = false := by simpa using htext
      rw [hother]
      by_cases hname : entry.1.name? = some name
      · -- The entry stands for the name without being it, so the other reading passes over it.
        have hkey : entry.1 ≠ .str name := fun h => htext (Node.text?_eq_some.mpr h)
        simp only [hname, beq_self_eq_true, Option.mem_some_iff, forall_eq', hkey, iff_false]
        exact fun h => htext (read_of_firstUnder? h.symm)
      · have hnone : (entry.1.name? == some name) = false := by simpa using hname
        rw [hnone]
        exact ih

/-- Merged layers give the value of the last entry that stands for a name, layers that are
asked from the last one that of the last entry whose key is the name. These are one entry
exactly if the former has the name as its key. -/
theorem lookup?_ofLayers_find {layers : List Layer} (h : ∀ layer ∈ layers, layer.HasDistinctKeys)
    (name : String) :
    (Merged.ofLayers layers).lookup? name = (lastUnder? Node.name? name layers).map valueOf ∧
    Sources.find name (layers.reverse.map Layer.source)
      = pure ((lastUnder? Node.text? name layers).map valueOf) ∧
    (lastUnder? Node.name? name layers = lastUnder? Node.text? name layers ↔
      ∀ entry ∈ lastUnder? Node.name? name layers, entry.1 = .str name) :=
  ⟨lookup?_ofLayers layers name, find_reverse_sources h name, firstUnder?_eq_iff name _⟩

/-- The number 1 covers the text `1` of the layer below for the merged layers, not for those
that are asked. -/
theorem lookup?_ofLayers_find_spellings :
    let below : Layer := { values := [(.str "1", .str "one"), (.bool true, .null)] }
    let above : Layer := { values := [(.int 1, .str "uno")] }
    (∀ layer ∈ [below, above], layer.HasDistinctKeys) ∧
    (Merged.ofLayers [below, above]).lookup? "1" = some (.str "uno") ∧
    Sources.find "1" ([below, above].reverse.map Layer.source) = pure (some (.str "one")) := by
  intro below above
  have hdistinct : ∀ layer ∈ [below, above], layer.HasDistinctKeys := by
    simp [below, above, HasDistinctKeys, Yaml.DistinctKeys, Node.same]
  obtain ⟨hmerged, hasked, -⟩ := lookup?_ofLayers_find hdistinct "1"
  exact ⟨hdistinct, hmerged, hasked⟩

/-- Merged layers have the value of a number, which is not there when the layer is asked. -/
theorem find_misses_number :
    let layer : Layer := { values := [(.int 1, .str "one")] }
    layer.HasDistinctKeys ∧ (Merged.ofLayers [layer]).lookup? "1" = some (.str "one") ∧
    Sources.find "1" ([layer].reverse.map Layer.source) = pure none :=
  ⟨List.pairwise_singleton _ _, rfl, rfl⟩

end Layer

end KeyExpansion
