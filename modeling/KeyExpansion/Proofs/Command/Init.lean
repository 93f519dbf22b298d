-- SUMMARY: What a new source file composes to.
import KeyExpansion.Command.Run
import KeyExpansion.Proofs.Command.Starter
import KeyExpansion.Proofs.Except
import KeyExpansion.Proofs.FileTree.Write
import KeyExpansion.Proofs.Layer.Composition
import KeyExpansion.Proofs.Layer.Includes

/-! # Composing a new source file

A new file is only written if it can be loaded. Where its settings fit on their lines, its values
are theirs under the names that the names are read as. So the settings come back if each name is
read as itself. A name that is read as null makes the layer invalid, and one that is read as a
number or a truth value may come back as another. -/

namespace KeyExpansion

/-- The merged values are those of settings: each name is there once, in the order in which they
come first, with the value that it was given last. -/
structure Merged.Restores (m : Merged) (given : List (String × Value)) : Prop where
  names : Entries.names m.values = (Entries.names given).eraseDups
  values : ∀ name, m.lookup? name = Entries.get? given.reverse name

theorem Merged.restores_iff {m : Merged} {given : List (String × Value)} :
    m.Restores given ↔ m.values = Entries.ofList given := by
  constructor
  · rintro ⟨hnames, hvalues⟩
    rw [← Entries.names_ofList] at hnames
    refine Entries.eq_of_names_eq hnames (hnames ▸ Entries.nodup_names_ofList given) fun name => ?_
    rw [← Merged.lookup?, hvalues, Entries.get?_ofList]
  · intro h
    refine ⟨by rw [h, Entries.names_ofList], fun name => ?_⟩
    rw [Merged.lookup?, h, Entries.get?_ofList]

namespace Command

open Yaml (Node)
open Starter (Fits IsData IsEntryOf)

/-- The name that a layer has for a plain name in its text. -/
def nameOf? (name : String) : Option String :=
  (Node.ofPlain name.toList).bind Node.name?

variable {settings given : List (String × Value)} {made : List (Node × Node)}

/-! ## Settings -/

theorem isData_of_readValue? {text : String} {v : Value} (h : Setting.readValue? text = some v) :
    IsData v := by
  rw [Setting.readValue?] at h
  split at h
  · obtain rfl := Option.some.inj h
    exact .str ""
  · obtain ⟨node, -, rfl⟩ := Option.map_eq_some_iff.mp h
    exact Starter.isData_ofNode node

theorem isData_of_read {text : String} {setting : String × Value} (h : Setting.read text = .ok setting) :
    IsData setting.2 := by
  unfold Setting.read at h
  split at h
  · cases h
  · dsimp only at h
    split at h
    · cases h
    · split at h
      · next hvalue =>
        obtain rfl := Except.ok.inj h
        exact isData_of_readValue? hvalue
      · cases h

theorem isData_of_mapM {texts : List String} (h : texts.mapM Setting.read = .ok given) :
    ∀ setting ∈ Entries.ofList given, IsData setting.2 := by
  intro setting hsetting
  obtain ⟨text, -, hread⟩ := Except.exists_of_mem_mapM h (Entries.mem_of_mem_ofList hsetting)
  exact isData_of_read hread

/-! ## Names -/

/-- The entries of a layer under the names of the settings. -/
theorem named_eq {layer : Layer} (h : List.Forall₂ IsEntryOf settings layer.values) :
    layer.named = settings.filterMap fun setting => (nameOf? setting.1).map (·, setting.2) := by
  rw [Layer.named]
  generalize layer.values = made at h
  induction h with
  | nil => rfl
  | @cons setting entry settings made hentry _ ih =>
    obtain ⟨hkey, hvalue⟩ := hentry
    have hname : nameOf? setting.1 = entry.1.name? := by rw [nameOf?, hkey, Option.bind_some]
    rw [List.filterMap_cons, List.filterMap_cons, ih, hname, ← hvalue]

/-- A layer of settings is valid if each of its names is read as a name. -/
theorem validate_iff {layer : Layer} (h : List.Forall₂ IsEntryOf settings layer.values)
    (hpath : layer.path.isSome) (hlimit : layer.limit? = none) :
    layer.validate = .ok () ↔ ∀ setting ∈ settings, (nameOf? setting.1).isSome := by
  have hnames : (∀ setting ∈ settings, (nameOf? setting.1).isSome) ↔
      layer.values.find? (fun entry => entry.1.name?.isNone) = none := by
    generalize layer.values = made at h
    induction h with
    | nil => simp
    | @cons setting entry settings made hentry _ ih =>
      have hname : nameOf? setting.1 = entry.1.name? := by rw [nameOf?, hentry.key, Option.bind_some]
      rw [List.forall_mem_cons, ih, hname, List.find?_cons]
      cases entry.1.name? <;> simp
  rw [hnames, Layer.validate, if_neg (by simpa using Option.isSome_iff_ne_none.mp hpath), hlimit]
  cases layer.values.find? fun entry => entry.1.name?.isNone <;> simp

theorem eq_of_filterMap_eq {α : Type} {f : α → Option α} {xs : List α} (h : xs.filterMap f = xs) :
    ∀ x ∈ xs, f x = some x := by
  induction xs with
  | nil => exact nofun
  | cons x xs ih =>
    rw [List.filterMap_cons] at h
    split at h
    · have hlength := List.length_filterMap_le f xs
      rw [h, List.length_cons] at hlength
      omega
    · next y hy =>
      obtain ⟨rfl, hrest⟩ := List.cons.inj h
      exact List.forall_mem_cons.mpr ⟨hy, ih hrest⟩

/-- A map is the same under other names only if none is another. -/
theorem ofList_filterMap_iff {f : String → Option String} (h : (Entries.names settings).Nodup) :
    Entries.ofList (settings.filterMap fun setting => (f setting.1).map (·, setting.2)) = settings ↔
      ∀ setting ∈ settings, f setting.1 = some setting.1 := by
  generalize hrenamed : settings.filterMap (fun setting => (f setting.1).map (·, setting.2)) = renamed
  constructor
  · intro heq setting hsetting
    have hlength := Entries.length_ofList_le renamed
    have hle := List.length_filterMap_le (fun setting => (f setting.1).map (·, setting.2)) settings
    rw [heq] at hlength
    rw [hrenamed] at hle
    -- No entry was lost, so that no two names have become one.
    have hkept : Entries.ofList renamed = renamed :=
      Entries.ofList_of_length (by rw [heq, Nat.le_antisymm hlength hle])
    have hsame := eq_of_filterMap_eq (hrenamed.trans (hkept.symm.trans heq)) setting hsetting
    obtain ⟨name, hname, hpair⟩ := Option.map_eq_some_iff.mp hsame
    rw [hname, ← (congrArg Prod.fst hpair : name = setting.1)]
  · intro hkept
    have hsame : renamed = settings.filterMap some := by
      rw [← hrenamed]
      refine List.filterMap_congr fun setting hsetting => ?_
      rw [hkept setting hsetting]
      rfl
    rw [hsame, List.filterMap_some, Entries.ofList_of_nodup h]

/-! ## Running -/

variable {c : Console} {o : InitOptions} {outcome : Outcome} {text : String}

/-- The text of a new file is written, and it is read where it was written to. -/
theorem exists_text (h : runInit c o = .ok outcome) : ∃ place text,
    outcome.written = some (place, text) ∧ Starter.text o = .ok text ∧
      ((c.filesAfter outcome).exists_ place = true →
        (c.filesAfter outcome).text? place = some text) := by
  unfold runInit at h
  dsimp only at h
  split at h
  · cases h
  · obtain ⟨text, htext, h⟩ := Except.bind_eq_ok.mp h
    split at h
    · cases h
    · next hwrite =>
      obtain rfl := Except.pure_eq_ok.mp h
      obtain ⟨after, hafter⟩ := Option.ne_none_iff_exists'.mp (by simpa using hwrite)
      refine ⟨_, text, rfl, htext, ?_⟩
      simp only [Console.filesAfter, Option.bind_some, hafter, Option.getD_some]
      exact FileTree.text?_of_write? hafter

theorem ofError_eq_ok {α : Type} {x : Except Error α} {a : α} : ofError x = .ok a ↔ x = .ok a := by
  cases x <;> simp [ofError]

/-- The text of a new file is that of its template, and it can be loaded. -/
theorem content_of_text (h : Starter.text o = .ok text)
    (hgiven : o.settings.mapM Setting.read = .ok given) :
    text = Starter.content o.template o.inherit (Entries.ofList given) ∧
      ∃ layer, Layer.ofText text = .ok layer := by
  have hall : Setting.readAll o.settings = .ok (Entries.ofList given) := by
    rw [Setting.readAll, hgiven]
    rfl
  rw [Starter.text, hall] at h
  obtain ⟨_, hsettings, h⟩ := Except.bind_eq_ok.mp h
  obtain rfl := Except.ok.inj hsettings
  obtain ⟨layer, hlayer, h⟩ := Except.bind_eq_ok.mp h
  obtain rfl := Except.pure_eq_ok.mp h
  exact ⟨rfl, layer, ofError_eq_ok.mp hlayer⟩

/-- The text that is written for settings is read where it was written to, if the path leads
anywhere, and it can be loaded from any file that holds it. If the settings fit on their lines,
the layer is valid exactly if each name is read as a name, and composing it gives the settings back
exactly if each name is read as itself. -/
theorem runInit_restores (h : runInit c o = .ok outcome)
    (hgiven : o.settings.mapM Setting.read = .ok given) :
    ∃ place text, outcome.written = some (place, text) ∧
      ((c.filesAfter outcome).exists_ place = true → (c.filesAfter outcome).text? place = some text) ∧
      ∀ (m : Machine) (p : Path), m.files.text? (m.fromHere p) = some text →
        ∃ layer, m.load p = .ok layer ∧
          ((∀ setting ∈ Entries.ofList given, Fits setting) →
            (layer.validate = .ok () ↔ ∀ setting ∈ Entries.ofList given, (nameOf? setting.1).isSome) ∧
            ((Merged.ofLayers [layer]).Restores given ↔
              ∀ setting ∈ Entries.ofList given, nameOf? setting.1 = some setting.1)) := by
  obtain ⟨place, text, hwritten, htext, hplace⟩ := exists_text h
  obtain ⟨rfl, layer, hlayer⟩ := content_of_text htext hgiven
  refine ⟨place, _, hwritten, hplace, fun m p hfile =>
    ⟨_, Machine.load_eq_ok hfile hlayer, fun hfits => ?_⟩⟩
  have hwritable : Starter.AreWritable (Entries.ofList given) :=
    fun setting hsetting => ⟨hfits setting hsetting, isData_of_mapM hgiven setting hsetting⟩
  obtain ⟨made, hmade, rfl⟩ := Starter.layer_of_content hwritable hlayer
  refine ⟨validate_iff hmade rfl rfl, ?_⟩
  rw [Merged.restores_iff, Merged.values_ofLayers, List.flatMap_singleton, named_eq hmade]
  exact ofList_filterMap_iff (Entries.nodup_names_ofList given)

/-- A machine with one directory, in which it works. -/
def bareMachine (files : FileTree) : Machine where
  cwd := ⟨"/w"⟩
  shell := ⟨"/w"⟩
  home := ⟨"/"⟩
  files := files

def bareConsole : Console where
  machine := bareMachine ⟨[(["w"], .directory)]⟩

theorem fromHere_bareMachine (files : FileTree) :
    (bareMachine files).fromHere ⟨"./.dkey.yaml"⟩ = ⟨"/w/./.dkey.yaml"⟩ :=
  (by decide : (bareMachine {}).fromHere ⟨"./.dkey.yaml"⟩ = ⟨"/w/./.dkey.yaml"⟩)

/-- A setting other than a float that fits on its line and whose name is read as itself. -/
def isPlainSetting (setting : String × Value) : Bool :=
  Yaml.isPlain ':' setting.1.toList && nameOf? setting.1 == some setting.1 &&
    match setting.2 with
    | .str s => Starter.staysWhole s
    | .float _ => false
    | _ => true

theorem fits_of_isPlainSetting {setting : String × Value} (h : isPlainSetting setting = true) :
    Fits setting ∧ nameOf? setting.1 = some setting.1 := by
  obtain ⟨name, v⟩ := setting
  rw [isPlainSetting, Bool.and_eq_true, Bool.and_eq_true, beq_iff_eq] at h
  obtain ⟨⟨hplain, hname⟩, hvalue⟩ := h
  refine ⟨⟨hplain, ?_, ?_⟩, hname⟩
  · rintro s rfl
    exact hvalue
  · rintro x rfl
    cases hvalue

theorem exists_of_any {ε α : Type} {x : Except ε α} {p : α → Bool} (h : x.toOption.any p = true) :
    ∃ a, x = .ok a ∧ p a = true := by
  cases x with
  | error e => cases h
  | ok a => exact ⟨a, rfl, h⟩

theorem runInit_restores_repeated :
    let o : InitOptions := { settings := ["a=1", "b=x", "a=2"], template := "minimal" }
    ∃ outcome given layer, runInit bareConsole o = .ok outcome ∧
      o.settings.mapM Setting.read = .ok given ∧
      Entries.names given = ["a", "b", "a"] ∧ (∀ setting ∈ Entries.ofList given, Fits setting) ∧
      (bareMachine (bareConsole.filesAfter outcome)).load ⟨"./.dkey.yaml"⟩ = .ok layer ∧
      layer.validate = .ok () ∧ (Merged.ofLayers [layer]).Restores given := by
  intro o
  obtain ⟨outcome, houtcome, hexists⟩ := @exists_of_any _ _ (runInit bareConsole o) (fun outcome =>
    outcome.written.any (·.1 == ⟨"/w/./.dkey.yaml"⟩)
      && (bareConsole.filesAfter outcome).exists_ ⟨"/w/./.dkey.yaml"⟩) (by decide +kernel)
  obtain ⟨given, hgiven, hsettings⟩ := @exists_of_any _ _ (o.settings.mapM Setting.read) (fun given =>
    Entries.names given == ["a", "b", "a"] && (Entries.ofList given).all isPlainSetting)
    (by decide +kernel)
  rw [Bool.and_eq_true, beq_iff_eq, List.all_eq_true] at hsettings
  obtain ⟨hnames, hplain⟩ := hsettings
  obtain ⟨place, text, hwritten, htext, hload⟩ := runInit_restores houtcome hgiven
  rw [hwritten, Bool.and_eq_true, Option.any_some, beq_iff_eq] at hexists
  obtain ⟨rfl, hexists⟩ := hexists
  have hfile : (bareMachine (bareConsole.filesAfter outcome)).files.text?
      ((bareMachine (bareConsole.filesAfter outcome)).fromHere ⟨"./.dkey.yaml"⟩) = some text := by
    rw [fromHere_bareMachine]
    exact htext hexists
  obtain ⟨layer, hlayer, hfits⟩ := hload _ _ hfile
  have hall : ∀ setting ∈ Entries.ofList given, Fits setting :=
    fun setting hsetting => (fits_of_isPlainSetting (hplain setting hsetting)).1
  have hsame : ∀ setting ∈ Entries.ofList given, nameOf? setting.1 = some setting.1 :=
    fun setting hsetting => (fits_of_isPlainSetting (hplain setting hsetting)).2
  obtain ⟨hvalid, hrestores⟩ := hfits hall
  refine ⟨outcome, given, layer, houtcome, hgiven, hnames, hall, hlayer, hvalid.mpr ?_,
    hrestores.mpr hsame⟩
  intro setting hsetting
  rw [hsame setting hsetting]
  rfl

/-- What becomes of settings in a new file: is its layer valid, and which names does it compose to? -/
def composedNames (settings : List String) : Option (Bool × List String) := do
  let outcome ← (runInit bareConsole { settings, template := "minimal" }).toOption
  let layer ← ((bareMachine (bareConsole.filesAfter outcome)).load ⟨"./.dkey.yaml"⟩).toOption
  return (layer.validate.isOk, Entries.names (Merged.ofLayers [layer]).values)

/-- A name may come back as a number, make the file invalid or be taken for a comment, and a text
of several lines may come back as values of other names. -/
theorem runInit_loses_names : composedNames ["0x10=a"] = some (true, ["16"]) ∧
    composedNames ["null=5"] = some (false, []) ∧
    composedNames ["b=\"x: 1\\ny: 2\""] = some (true, ["b", "x", "y"]) := by
  decide +kernel

end Command

end KeyExpansion
