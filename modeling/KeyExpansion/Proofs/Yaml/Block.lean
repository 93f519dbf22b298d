-- SUMMARY: The mapping that the tokens of its lines make.
import KeyExpansion.Yaml.Reader
import Mathlib.Data.List.Forall2
import Mathlib.Data.Option.Basic

/-! # Block mappings

The tokens of a key, its colon and a value make an entry. A mapping is made of its lines in
order, as long as no key comes twice. -/

namespace KeyExpansion.Yaml.Parse

variable {α β : Type} {p : Parse α} {f : α → Parse β} {tokens more : List Token} {a : α}
  {result : Option β} {text : List Char} {plain block unindented : Bool} {depth : Nat}

/-- Takes tokens from the front, and no more, whatever is behind them. -/
def Takes (p : Parse α) (tokens : List Token) (result : Option α) : Prop :=
  ∀ rest anchors, p.run ⟨tokens ++ rest, anchors⟩ = result.map (·, ⟨rest, anchors⟩)

theorem Takes.bind (hp : Takes p tokens (some a)) (hf : Takes (f a) more result) :
    Takes (p >>= f) (tokens ++ more) result := by
  intro rest anchors
  rw [StateT.run_bind, List.append_assoc, hp]
  exact hf rest anchors

/-- A scalar is a node of its own. -/
theorem takes_scalar : Takes (node depth block unindented) [.scalar text plain]
    (Node.ofScalar none text plain) := by
  intro rest anchors
  cases depth <;>
  · simp [node, peek, advance, Properties.read, Properties.take, content]
    cases Node.ofScalar none text plain <;> rfl

theorem takes_emptySequence :
    Takes (node (depth + 1) block unindented) [.openFlowSequence, .closeFlowSequence]
      (some (.sequence [])) := by
  intro rest anchors
  simp [node, peek, advance, Properties.read, Properties.take, content, collection, flowItems,
    accept, Node.ofCollection]

theorem takes_emptyMapping :
    Takes (node (depth + 1) block unindented) [.openFlowMapping, .closeFlowMapping]
      (some (.mapping [])) := by
  intro rest anchors
  simp [node, peek, advance, Properties.read, Properties.take, content, collection, flowEntries,
    accept, Node.ofCollection]

/-! ## Lines -/

/-- A line of a mapping: its key, the tokens behind the colon, and the node that they make, if
they make one. -/
structure Line where
  name : List Char
  tokens : List Token
  node : Option Node

namespace Line

/-- All tokens of the line. -/
def all (line : Line) : List Token :=
  .key :: .scalar line.name true :: .value :: line.tokens

/-- The value is read at a depth. Its tokens start a node. -/
structure IsRead (depth : Nat) (line : Line) : Prop where
  takes : Takes (Parse.node depth true true) line.tokens line.node
  starts : ∃ t more, line.tokens = t :: more ∧ t ∉ [.key, .value, .close]

/-- Put the entry of a line behind others. -/
def add (made : List (Node × Node)) (line : Line) : Option (List (Node × Node)) := do
  Node.addEntry made (← Node.ofPlain line.name) (← line.node)

/-- The entry is that of the line. -/
structure Makes (line : Line) (entry : Node × Node) : Prop where
  key : Node.ofPlain line.name = some entry.1
  value : line.node = some entry.2

theorem makes_of_add {line : Line} {start made : List (Node × Node)} (h : line.add start = some made) :
    ∃ entry, made = start ++ [entry] ∧ line.Makes entry := by
  obtain ⟨key, hkey, h⟩ := Option.bind_eq_some_iff.mp h
  obtain ⟨value, hvalue, h⟩ := Option.bind_eq_some_iff.mp h
  rw [Node.addEntry] at h
  split at h
  · cases h
  · exact ⟨(key, value), (Option.some.inj h).symm, hkey, hvalue⟩

/-- Lines make their entries in order. -/
theorem makes_of_foldlM {lines : List Line} {start made : List (Node × Node)}
    (h : lines.foldlM add start = some made) :
    ∃ added, made = start ++ added ∧ List.Forall₂ Makes lines added := by
  induction lines generalizing start with
  | nil => exact ⟨[], by simpa using (Option.some.inj h).symm, .nil⟩
  | cons line lines ih =>
    rw [List.foldlM_cons] at h
    obtain ⟨middle, hmiddle, h⟩ := Option.bind_eq_some_iff.mp h
    obtain ⟨entry, rfl, hentry⟩ := makes_of_add hmiddle
    obtain ⟨added, rfl, hadded⟩ := ih h
    exact ⟨entry :: added, by simp, .cons hentry hadded⟩

end Line

theorem takes_orNull {ends : List Token} {next : Parse Node} {result : Option Node} {t : Token}
    (h : Takes next (t :: tokens) result) (ht : t ∉ ends) :
    Takes (orNull ends next) (t :: tokens) result := by
  intro rest anchors
  simp [orNull, nextIn, peek, ht]
  exact h rest anchors

theorem takes_accept (t : Token) : Takes (accept t) [t] (some true) := by
  intro rest anchors
  simp [accept, peek, advance]

variable {made : List (Node × Node)} {count : Nat} {anchors : List (List Char × Node)}
  {rest : List Token}

theorem takes_key {name : List Char} :
    Takes (orNull [.key, .value, .close] (node depth true true)) [.scalar name true]
      (Node.ofPlain name) :=
  takes_orNull takes_scalar (by simp)

theorem takes_valueOf {line : Line} (h : line.IsRead depth) :
    Takes (valueOf [.key, .value, .close] (node depth true true)) (.value :: line.tokens) line.node := by
  obtain ⟨htakes, t, more, htokens, ht⟩ := h
  rw [htokens] at htakes ⊢
  exact (takes_accept .value).bind (takes_orNull htakes ht)

/-- One line more of a mapping. -/
theorem entries_line {line : Line} (h : line.IsRead depth) :
    (entries (node depth) made (count + 1)).run ⟨line.all ++ rest, anchors⟩
      = (Line.add made line).bind fun made => (entries (node depth) made count).run ⟨rest, anchors⟩ := by
  have haccept := @takes_accept .key (.scalar line.name true :: .value :: line.tokens ++ rest) anchors
  have hname := @takes_key depth line.name (.value :: line.tokens ++ rest) anchors
  have hvalue := takes_valueOf h rest anchors
  rw [entries, Line.all, StateT.run_bind]
  simp only [List.cons_append, List.nil_append] at haccept hname hvalue ⊢
  rw [haccept]
  simp only [Option.map_some, Option.bind_eq_bind, Option.bind_some, if_true, StateT.run_bind, hname]
  rw [Line.add]
  cases hplain : Node.ofPlain line.name with
  | none => rfl
  | some key =>
    simp only [Option.map_some, Option.bind_some, hvalue, Option.bind_eq_bind]
    cases line.node with
    | none => rfl
    | some value =>
      simp only [Option.map_some, Option.bind_some]
      cases hadd : Node.addEntry made key value with
      | none => rfl
      | some made => rfl

theorem entries_done (h : rest.head? ≠ some .key) :
    (entries (node depth) made count).run ⟨rest, anchors⟩ = some (made, ⟨rest, anchors⟩) := by
  cases count with
  | zero => rfl
  | succ count => simp [entries, accept, peek, h]

/-- The lines of a mapping are its entries. -/
theorem entries_lines {lines : List Line} (h : ∀ line ∈ lines, line.IsRead depth)
    (hcount : lines.length ≤ count) (hrest : rest.head? ≠ some .key) :
    (entries (node depth) made count).run ⟨lines.flatMap Line.all ++ rest, anchors⟩
      = (lines.foldlM Line.add made).map (·, ⟨rest, anchors⟩) := by
  induction lines generalizing made count with
  | nil => exact entries_done hrest
  | cons line lines ih =>
    obtain ⟨hline, hlines⟩ := List.forall_mem_cons.mp h
    obtain ⟨count, rfl⟩ := Nat.exists_eq_succ_of_ne_zero (Nat.ne_zero_of_lt hcount)
    rw [List.flatMap_cons, List.append_assoc, Nat.succ_eq_add_one, entries_line hline, List.foldlM_cons]
    cases Line.add made line with
    | none => rfl
    | some made => exact ih hlines (Nat.le_of_succ_le_succ hcount)

theorem length_le_flatMap (lines : List Line) : lines.length ≤ (lines.flatMap Line.all).length := by
  induction lines with
  | nil => exact Nat.le_refl 0
  | cons line lines ih =>
    rw [List.length_cons, List.flatMap_cons, List.length_append, Line.all, List.length_cons]
    omega

/-- A mapping is made of its lines. -/
theorem takes_mapping {lines : List Line} (h : ∀ line ∈ lines, line.IsRead depth) :
    Takes (node (depth + 1) true unindented) (.openMapping :: (lines.flatMap Line.all ++ [.close]))
      ((lines.foldlM Line.add []).map .mapping) := by
  intro rest anchors
  have hcount : lines.length ≤ (lines.flatMap Line.all ++ .close :: rest).length + 1 := by
    have hle := length_le_flatMap lines
    rw [List.length_append]
    omega
  have hlines := @entries_lines depth [] _ anchors (.close :: rest) lines h hcount (by simp)
  rw [List.cons_append, List.append_assoc, List.singleton_append]
  simp only [node, peek, bind_pure_comp, advance, List.drop_one, Properties.read, Properties.take,
    bind_map_left, bind_assoc, content, collection, LawfulMonadStateOf.get_bind_get_bind,
    StateT.run_bind, StateT.run_get, Option.pure_def, Option.bind_eq_bind, Option.bind_some,
    List.head?_cons, StateT.run_pure, List.length_cons, StateT.run_modify, List.tail_cons,
    StateT.run_map, Option.map_eq_map, hlines, Option.map_map]
  cases lines.foldlM Line.add [] <;> rfl

/-! ## Documents -/

variable {t : Token}

/-- A document of a node. -/
theorem document_node {result : Option Node} (ht : t ≠ .directive ∧ t ≠ .documentStart)
    (h : Takes (node deepest true false) (t :: tokens) result) :
    document.run ⟨t :: tokens, []⟩ = result.map (·, ⟨[], []⟩) := by
  have hnode := h [] []
  rw [List.append_nil] at hnode
  have hdirective : (t == .directive) = false := beq_false_of_ne ht.1
  have hstart : (some t == some .documentStart) = false :=
    beq_false_of_ne fun h => ht.2 (Option.some.inj h)
  simp only [document, accept, peek, orNull, nextIn, StateT.run_bind, StateT.run_get, StateT.run_modify,
    StateT.run_pure, Option.pure_def, Option.bind_eq_bind, Option.bind_some, List.head?_cons,
    List.takeWhile_cons, List.drop_zero, List.length_nil, hdirective, hstart, Bool.false_eq_true,
    if_false, List.length_cons, Nat.add_one_ne_zero, Bool.false_and]
  change ((node deepest true false).run ⟨t :: tokens, []⟩).bind _ = _
  rw [hnode]
  cases result <;> rfl

/-- A text whose tokens make a node. -/
theorem read?_eq {source : String} {result : Option Node}
    (hsource : tokens? source = some (t :: tokens)) (ht : t ≠ .directive ∧ t ≠ .documentStart)
    (h : Takes (node deepest true false) (t :: tokens) result) : read? source = result := by
  rw [read?, hsource, Option.bind_eq_bind, Option.bind_some, document_node ht h]
  cases result <;> rfl

end KeyExpansion.Yaml.Parse
