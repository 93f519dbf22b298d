-- SUMMARY: No mapping that is read has a key twice.
import KeyExpansion.Yaml.Reader

/-! # Distinct keys

Reading refuses a key that a mapping already has. Nodes that were given a name may be read
once more, so that what holds of all nodes is kept for those in the reader as well. -/

namespace KeyExpansion.Yaml

/-- No key is there twice. -/
def DistinctKeys (entries : List (Node × Node)) : Prop :=
  entries.Pairwise fun a b => a.1.same b.1 = false

/-- Every mapping in the node has distinct keys. -/
inductive Node.IsProper : Node → Prop where
  | null : IsProper .null
  | bool (b : Bool) : IsProper (.bool b)
  | int (i : Int) : IsProper (.int i)
  | float (x : Float) : IsProper (.float x)
  | str (s : String) : IsProper (.str s)
  | sequence {items : List Node} (item : ∀ node ∈ items, IsProper node) :
      IsProper (.sequence items)
  | mapping {entries : List (Node × Node)} (distinct : DistinctKeys entries)
      (key : ∀ entry ∈ entries, IsProper entry.1) (value : ∀ entry ∈ entries, IsProper entry.2) :
      IsProper (.mapping entries)
  | tagged (tag : String) {node : Node} (inner : IsProper node) : IsProper (.tagged tag node)

theorem Node.IsProper.untagged {node : Node} (h : node.IsProper) : node.untagged.IsProper := by
  induction h with
  | tagged _ _ ih => exact ih
  | sequence item _ => exact .sequence item
  | mapping distinct key value _ _ => exact .mapping distinct key value
  | null => exact .null
  | bool b => exact .bool b
  | int i => exact .int i
  | float x => exact .float x
  | str s => exact .str s

/-- Entries of a mapping with distinct keys. -/
structure AreProper (entries : List (Node × Node)) : Prop where
  distinct : DistinctKeys entries
  key : ∀ entry ∈ entries, entry.1.IsProper
  value : ∀ entry ∈ entries, entry.2.IsProper

theorem areProper_nil : AreProper [] := ⟨.nil, by simp, by simp⟩

theorem areProper_singleton {key value : Node} (hkey : key.IsProper) (hvalue : value.IsProper) :
    AreProper [(key, value)] :=
  ⟨List.pairwise_singleton _ _, by simpa using hkey, by simpa using hvalue⟩

theorem AreProper.mapping {entries : List (Node × Node)} (h : AreProper entries) :
    (Node.mapping entries).IsProper :=
  .mapping h.distinct h.key h.value

/-- An entry is added only if its key is new. -/
theorem AreProper.addEntry {entries made : List (Node × Node)} {key value : Node}
    (h : AreProper entries) (hkey : key.IsProper) (hvalue : value.IsProper)
    (hmade : Node.addEntry entries key value = some made) : AreProper made := by
  unfold Node.addEntry at hmade
  split at hmade
  · cases hmade
  · rename_i hnew
    cases hmade
    have hother : ∀ entry ∈ entries, entry.1.same key = false := by simpa using hnew
    refine ⟨List.pairwise_append.mpr ⟨h.distinct, List.pairwise_singleton _ _, ?_⟩, ?_, ?_⟩
    · simpa using fun a b hmem => hother (a, b) hmem
    · simpa [or_imp, forall_and] using ⟨fun a b hmem => h.key (a, b) hmem, hkey⟩
    · simpa [or_imp, forall_and] using ⟨fun a b hmem => h.value (a, b) hmem, hvalue⟩

/-! ## Scalars -/

theorem Node.isProper_ofInt {cs : List Char} {i : Int} {node : Node} (h : ofInt cs i = some node) :
    node.IsProper := by
  unfold ofInt at h
  split at h
  · cases h
    exact .int i
  · split at h
    · cases h
    · cases h
      cases readFloat? cs with
      | some x => exact .float x
      | none => exact .str _

theorem Node.isProper_ofPlain {cs : List Char} {node : Node} (h : ofPlain cs = some node) :
    node.IsProper := by
  unfold ofPlain at h
  split at h
  · cases h
    exact .null
  · split at h
    · cases h
      exact .bool _
    · exact isProper_ofInt h
    · split at h
      · cases h
        exact .str _
      · cases h
        cases readFloat? cs with
        | some x => exact .float x
        | none => exact .str _

theorem Node.isProper_ofStandard {tag text : List Char} {node : Node}
    (h : ofStandard tag text = some node) : node.IsProper := by
  unfold ofStandard at h
  split at h
  · obtain ⟨b, -, rfl⟩ := Option.map_eq_some_iff.mp h
    exact .bool b
  · split at h
    · obtain ⟨i, -, h⟩ := Option.bind_eq_some_iff.mp h
      exact isProper_ofInt h
    · split at h
      · obtain ⟨x, -, rfl⟩ := Option.map_eq_some_iff.mp h
        exact .float x
      · split at h
        · split at h
          · cases h
            exact .null
          · cases h
        · cases h
          exact .str _

theorem Node.IsProper.underTag {name : List Char} {node tagged : Node} (hnode : node.IsProper)
    (h : underTag name node = some tagged) : tagged.IsProper := by
  unfold Node.underTag at h
  split at h
  · cases h
  · cases h
    exact .tagged _ hnode

theorem Node.isProper_ofScalar {tag : Option (List Char)} {text : List Char} {plain : Bool}
    {node : Node} (h : ofScalar tag text plain = some node) : node.IsProper := by
  unfold ofScalar at h
  extract_lets natural at h
  have hnatural (node : Node) (h : natural = some node) : node.IsProper := by
    unfold natural at h
    split at h
    · exact isProper_ofPlain h
    · cases h
      exact .str _
  split at h
  · exact hnatural node h
  · split at h
    · obtain ⟨inner, hinner, h⟩ := Option.bind_eq_some_iff.mp h
      exact (hnatural inner hinner).underTag h
    · exact isProper_ofStandard h

theorem Node.IsProper.ofCollection {tag : Option (List Char)} {node made : Node}
    (hnode : node.IsProper) (h : Node.ofCollection tag node = some made) : made.IsProper := by
  unfold Node.ofCollection at h
  split at h
  · exact hnode.underTag h
  · cases h
    exact hnode

/-! ## Reading -/

/-- The nodes that were given a name are proper. -/
def Reader.IsProper (r : Reader) : Prop :=
  ∀ anchor ∈ r.anchors, anchor.2.IsProper

namespace Parse

variable {α β : Type}

/-- Where the named nodes are proper they stay so, and what is read has `Q`. -/
def Reads (x : Parse α) (Q : α → Prop) : Prop :=
  ∀ r, r.IsProper → ∀ a r', x.run r = some (a, r') → r'.IsProper ∧ Q a

variable {Q : α → Prop} {R : β → Prop}

theorem reads_pure {a : α} (h : Q a) : Reads (pure a) Q := by
  rintro r hr _ _ ⟨rfl, rfl⟩
  exact ⟨hr, h⟩

theorem reads_failure : Reads failure Q := by
  intro r hr a r' h
  cases h

theorem reads_lift {x : Option α} (h : ∀ a, x = some a → Q a) : Reads (StateT.lift x) Q := by
  cases x with
  | none => exact reads_failure
  | some a => exact reads_pure (h a rfl)

theorem Reads.bind {x : Parse α} {f : α → Parse β} (hx : Reads x Q)
    (hf : ∀ a, Q a → Reads (f a) R) : Reads (x >>= f) R := by
  intro r hr b r' h
  rw [StateT.run_bind] at h
  obtain ⟨⟨a, mid⟩, hrun, h⟩ := Option.bind_eq_some_iff.mp h
  obtain ⟨hmid, ha⟩ := hx r hr a mid hrun
  exact hf a ha mid hmid b r' h

theorem Reads.ite {c : Prop} [Decidable c] {x y : Parse α} (hx : Reads x Q) (hy : Reads y Q) :
    Reads (if c then x else y) Q := by
  split
  · exact hx
  · exact hy

theorem reads_get : Reads get Reader.IsProper := by
  rintro r hr _ _ ⟨rfl, rfl⟩
  exact ⟨hr, hr⟩

theorem reads_guard (p : Prop) [Decidable p] : Reads (guard p) fun _ => True :=
  Reads.ite (reads_pure trivial) reads_failure

/-- Going on to other tokens leaves the named nodes alone. -/
theorem reads_skip (f : Reader → List Token) :
    Reads (modify fun r => { r with tokens := f r }) fun _ => True := by
  rintro r hr _ _ ⟨rfl, rfl⟩
  exact ⟨hr, trivial⟩

theorem reads_peek : Reads peek fun _ => True :=
  reads_get.bind fun _ _ => reads_pure trivial

theorem reads_advance : Reads advance fun _ => True :=
  reads_skip _

theorem reads_accept (t : Token) : Reads (accept t) fun _ => True := by
  refine reads_peek.bind fun next _ => Reads.ite ?_ (reads_pure trivial)
  exact reads_advance.bind fun _ _ => reads_pure trivial

theorem reads_nextIn (ts : List Token) : Reads (nextIn ts) fun _ => True :=
  reads_peek.bind fun _ _ => reads_pure trivial

theorem reads_take (p : Properties) : Reads p.take fun _ => True := by
  unfold Properties.take
  refine reads_peek.bind fun next _ => ?_
  split
  · exact reads_advance.bind fun _ _ => reads_pure trivial
  · exact reads_advance.bind fun _ _ => reads_pure trivial
  · exact reads_pure trivial

theorem reads_properties : Reads Properties.read fun _ => True :=
  (reads_take _).bind fun p _ => reads_take p

section Next

theorem reads_orNull {next : Parse Node} (h : Reads next Node.IsProper) (ends : List Token) :
    Reads (orNull ends next) Node.IsProper :=
  (reads_nextIn ends).bind fun _ _ => Reads.ite (reads_pure .null) h

theorem reads_valueOf {next : Parse Node} (h : Reads next Node.IsProper) (ends : List Token) :
    Reads (valueOf ends next) Node.IsProper :=
  (reads_accept _).bind fun _ _ => Reads.ite (reads_orNull h ends) (reads_pure .null)

variable {next : Next} (hnext : ∀ block unindented, Reads (next block unindented) Node.IsProper)
include hnext

theorem reads_items (ends : List Token) (count : Nat) :
    Reads (items next ends count) fun made => ∀ node ∈ made, node.IsProper := by
  induction count with
  | zero => exact reads_pure (by simp)
  | succ count ih =>
    refine (reads_accept _).bind fun more _ => Reads.ite ?_ (reads_pure (by simp))
    refine (reads_orNull (hnext true false) _).bind fun item hitem => ?_
    refine ih.bind fun made hmade => reads_pure ?_
    simpa using ⟨hitem, hmade⟩

theorem reads_entries {made : List (Node × Node)} (hmade : AreProper made) (count : Nat) :
    Reads (entries next made count) AreProper := by
  induction count generalizing made with
  | zero => exact reads_pure hmade
  | succ count ih =>
    refine (reads_accept _).bind fun more _ => Reads.ite ?_ (reads_pure hmade)
    refine (reads_orNull (hnext true true) _).bind fun key hkey => ?_
    refine (reads_valueOf (hnext true true) _).bind fun value hvalue => ?_
    exact (reads_lift fun _ h => hmade.addEntry hkey hvalue h).bind fun _ h => ih h

theorem reads_pair : Reads (pair next) Node.IsProper := by
  refine (reads_orNull (hnext false false) _).bind fun key hkey => ?_
  refine (reads_valueOf (hnext false false) _).bind fun value hvalue => ?_
  exact reads_pure (areProper_singleton hkey hvalue).mapping

theorem reads_flowItems (first : Bool) (count : Nat) :
    Reads (flowItems next first count) fun made => ∀ node ∈ made, node.IsProper := by
  induction count generalizing first with
  | zero => exact reads_failure
  | succ count ih =>
    refine (reads_accept _).bind fun closed _ => Reads.ite (reads_pure (by simp)) ?_
    refine (reads_accept _).bind fun comma _ => (reads_guard _).bind fun _ _ => ?_
    refine (reads_accept _).bind fun closed _ => Reads.ite (reads_pure (by simp)) ?_
    refine (reads_accept _).bind fun marked _ => ?_
    extract_lets rest
    have hrest (item : Node) (hitem : item.IsProper) :
        Reads (rest item) fun made => ∀ node ∈ made, node.IsProper := by
      refine (ih false).bind fun made hmade => reads_pure ?_
      simpa using ⟨hitem, hmade⟩
    exact Reads.ite ((reads_pair hnext).bind hrest) ((hnext false false).bind hrest)

theorem reads_flowEntries (first : Bool) {made : List (Node × Node)} (hmade : AreProper made)
    (count : Nat) : Reads (flowEntries next first made count) AreProper := by
  induction count generalizing first made with
  | zero => exact reads_failure
  | succ count ih =>
    refine (reads_accept _).bind fun closed _ => Reads.ite (reads_pure hmade) ?_
    refine (reads_accept _).bind fun comma _ => (reads_guard _).bind fun _ _ => ?_
    refine (reads_accept _).bind fun closed _ => Reads.ite (reads_pure hmade) ?_
    refine (reads_accept _).bind fun marked _ => ?_
    extract_lets afterKey
    have hafterKey (key : Node) (hkey : key.IsProper) : Reads (afterKey key) AreProper := by
      unfold afterKey
      extract_lets afterValue
      have hafterValue (value : Node) (hvalue : value.IsProper) :
          Reads (afterValue value) AreProper :=
        (reads_lift fun _ h => hmade.addEntry hkey hvalue h).bind fun _ h => ih false h
      refine Reads.ite ?_ ?_
      · exact (reads_valueOf (hnext false false) _).bind hafterValue
      · exact (reads_pure .null).bind hafterValue
    refine Reads.ite ?_ ?_
    · exact (reads_orNull (hnext false false) _).bind hafterKey
    · exact (hnext false false).bind hafterKey

/-- A collection that was read is proper, if there was one. -/
theorem reads_collection (block unindented : Bool) :
    Reads (collection next block unindented) fun made => ∀ node ∈ made, node.IsProper := by
  unfold collection
  refine reads_get.bind fun _ _ => reads_peek.bind fun opening _ => ?_
  split
  · refine (reads_items hnext _ _).bind fun made hmade => reads_pure ?_
    simpa using Node.IsProper.sequence hmade
  · refine reads_advance.bind fun _ _ => (reads_items hnext _ _).bind fun made hmade => ?_
    refine (reads_accept _).bind fun closed _ => (reads_guard _).bind fun _ _ => reads_pure ?_
    simpa using Node.IsProper.sequence hmade
  · refine reads_advance.bind fun _ _ => (reads_entries hnext areProper_nil _).bind fun made hmade => ?_
    refine (reads_accept _).bind fun closed _ => (reads_guard _).bind fun _ _ => reads_pure ?_
    simpa using hmade.mapping
  · refine reads_advance.bind fun _ _ => (reads_flowItems hnext _ _).bind fun made hmade => ?_
    exact reads_pure (by simpa using Node.IsProper.sequence hmade)
  · refine reads_advance.bind fun _ _ => ?_
    refine (reads_flowEntries hnext _ areProper_nil _).bind fun made hmade => reads_pure ?_
    simpa using hmade.mapping
  · exact reads_pure (by simp)

end Next

theorem reads_content {next : Option Next}
    (hnext : ∀ next' ∈ next, ∀ block unindented, Reads (next' block unindented) Node.IsProper)
    (properties : Properties) (block unindented : Bool) :
    Reads (content next properties block unindented) Node.IsProper := by
  unfold content
  refine reads_peek.bind fun opening _ => ?_
  split
  · exact reads_advance.bind fun _ _ => reads_lift fun _ => Node.isProper_ofScalar
  · extract_lets rest
    have hrest (made : Option Node) (hmade : ∀ node ∈ made, node.IsProper) :
        Reads (rest made) Node.IsProper := by
      unfold rest
      split
      · rename_i node
        exact reads_lift fun _ => (hmade node rfl).ofCollection
      · exact (reads_guard _).bind fun _ _ => reads_lift fun _ => Node.isProper_ofScalar
    split
    · rename_i inner
      exact (reads_collection (hnext inner rfl) block unindented).bind hrest
    · exact (reads_pure (by simp)).bind hrest

/-- What a name is given to has been read, and what it stands for was. -/
theorem reads_node (depth : Nat) (block unindented : Bool) :
    Reads (node depth block unindented) Node.IsProper := by
  -- By strong induction, as the reader for what is inside exists only if the depth allows it.
  induction depth using Nat.strongRecOn generalizing block unindented with
  | ind depth ih =>
    unfold node
    refine reads_peek.bind fun opening _ => ?_
    split
    · rename_i name
      refine reads_advance.bind fun _ _ => reads_get.bind fun r hr => reads_lift fun made h => ?_
      obtain ⟨before, after, heq, -⟩ := List.lookup_eq_some_iff.mp h
      exact hr (name, made) (by simp [heq])
    · refine reads_properties.bind fun properties _ => ?_
      extract_lets next
      have hnext : ∀ next' ∈ next, ∀ block unindented,
          Reads (next' block unindented) Node.IsProper := by
        intro next' hmem block unindented
        unfold next at hmem
        split at hmem
        · cases hmem
        · rename_i depth
          cases hmem
          exact ih depth (Nat.lt_succ_self depth) block unindented
      refine (reads_content hnext properties block unindented).bind fun made hmade => ?_
      split
      · rename_i name _
        have hnamed : Reads (modify fun r => { r with anchors := (name, made) :: r.anchors })
            fun _ => True := by
          rintro r hr _ _ ⟨rfl, rfl⟩
          exact ⟨List.forall_mem_cons.mpr ⟨hmade, hr⟩, trivial⟩
        exact hnamed.bind fun _ _ => reads_pure hmade
      · exact reads_pure hmade

theorem reads_document : Reads document Node.IsProper := by
  unfold document
  refine reads_get.bind fun start _ => reads_get.bind fun _ _ => ?_
  extract_lets directives rest
  refine (reads_skip _).bind fun _ _ => (reads_accept _).bind fun explicit _ => ?_
  refine (reads_guard _).bind fun _ _ => Reads.ite (reads_pure .null) ?_
  refine reads_peek.bind fun _ _ => ?_
  extract_lets vacant ends
  have hrest (made : Node) (hmade : made.IsProper) : Reads (rest made) Node.IsProper :=
    (reads_skip _).bind fun _ _ => reads_get.bind fun _ _ => (reads_guard _).bind fun _ _ =>
      reads_pure hmade
  refine Reads.ite ?_ ?_
  · exact (reads_pure .null).bind hrest
  · exact (reads_orNull (reads_node deepest true false) ends).bind hrest

end Parse

/-- Every mapping that is read has distinct keys. -/
theorem isProper_of_read? {text : String} {node : Node} (h : read? text = some node) :
    node.IsProper := by
  unfold read? at h
  obtain ⟨tokens, -, h⟩ := Option.bind_eq_some_iff.mp h
  obtain ⟨⟨made, r⟩, hrun, h⟩ := Option.bind_eq_some_iff.mp h
  cases h
  exact (Parse.reads_document { tokens } (by simp [Reader.IsProper]) node r hrun).2

end KeyExpansion.Yaml
