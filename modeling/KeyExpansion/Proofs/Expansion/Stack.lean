-- SUMMARY: A template takes one value from a stack for each of its fields that nothing else binds.
import KeyExpansion.Proofs.Expansion.Extensional
import KeyExpansion.Proofs.Expansion.Substitution

/-! # Templates over a stack

A stack behind a table is asked for the names that the table does not bind, and gives up
a value each time. The fields of a template take their values from left to right, so that
the stack loses one for each such field and no more, or runs out. -/

namespace KeyExpansion

open Template (Piece placed)

/-! ## What a question takes -/

namespace Memory

/-- The memory with other values on a stack. -/
def withPile (slot : Nat) (values : List Value) (m : Memory) : Memory :=
  { m with piles := m.piles.set slot values }

variable {m : Memory} {slot : Nat} {stack : List Value}

theorem withPile_self (h : m.piles[slot]? = some stack) : m.withPile slot stack = m := by
  obtain ⟨hlt, rfl⟩ := List.getElem?_eq_some_iff.mp h
  simp [withPile]

@[simp] theorem withPile_withPile (first second : List Value) :
    (m.withPile slot first).withPile slot second = m.withPile slot second := by
  simp [withPile]

theorem piles_withPile (h : m.piles[slot]? = some stack) (values : List Value) :
    (m.withPile slot values).piles[slot]? = some values := by
  obtain ⟨hlt, -⟩ := List.getElem?_eq_some_iff.mp h
  simp [withPile, hlt]

/-- A stack gives up its top value if it has one. -/
theorem pop_eq (h : m.piles[slot]? = some stack) :
    m.pop slot = (stack.head?, m.withPile slot stack.tail) := by
  cases stack with
  | nil => simp [pop, h, withPile_self h]
  | cons top rest => simp [pop, h, withPile]

end Memory

/-- The value that a table has for a name, or else the top one of a stack, and what is left
of the stack. -/
def draw (S : String → Option Value) (name : String) (stack : List Value) :
    Option Value × List Value :=
  match S name with
  | some v => (some v, stack)
  | none => (stack.head?, stack.tail)

variable {S : String → Option Value} {tables : List Source} {slot : Nat} {m : Memory}
  {stack : List Value}

theorem draw_eq_none {name : String} (h : (draw S name stack).1 = none) :
    S name = none ∧ stack = [] := by
  unfold draw at h
  split at h
  · cases h
  · next hnone => exact ⟨hnone, List.head?_eq_none_iff.mp h⟩

theorem Sources.find_draw (hS : Answer tables S) (hstack : m.piles[slot]? = some stack)
    (name : String) :
    (find name (tables ++ [.stack slot])).run m
      = ((draw S name stack).1, m.withPile slot (draw S name stack).2) := by
  rw [find_append, hS name, pure_bind]
  unfold draw
  cases S name with
  | some v =>
    simp only [Memory.withPile_self hstack]
    rfl
  | none =>
    have hpop : ((Source.stack slot).lookup name).run m = m.pop slot := rfl
    simp only [find, StateT.run_bind, hpop, Memory.pop_eq hstack]
    cases stack <;> rfl

namespace Key

variable {env : Surroundings} {budget : Budget} {k : Key}

/-- A key takes what its direct name draws. Nothing is under its indirect name. -/
theorem runFrom_lookup (hS : Sources.Answer tables S) (hstack : m.piles[slot]? = some stack)
    (hplan : ∀ sources, k.family.conduct.plan k sources
      = .targets [⟨k.direct, false⟩, ⟨k.indirect, true⟩])
    (hindirect : S k.indirect = none) :
    (k.lookup ⟨env, tables ++ [.stack slot]⟩ budget).runFrom m
      = (.ok ((draw S k.direct stack).1.map fun v => { value := v, budget }),
          m.withPile slot (draw S k.direct stack).2) := by
  unfold lookup
  rw [hplan]
  simp only [lookupTargets, Expand.runFrom_bind, Expand.runFrom_liftM, Sources.find_draw hS hstack]
  cases hdraw : (draw S k.direct stack).1 with
  | some v => rfl
  | none =>
    obtain ⟨hdirect, rfl⟩ := draw_eq_none hdraw
    have hempty : (m.withPile slot []).piles[slot]? = some [] := Memory.piles_withPile hstack []
    simp only [draw, hdirect, List.head?_nil, List.tail_nil, Expand.runFrom_bind,
      Expand.runFrom_liftM, Sources.find_draw hS hempty, hindirect, Memory.withPile_withPile]
    rfl

/-- A field takes the value that its name draws. -/
theorem runFrom_field {left : Nat} {chain : List String} {name format : String}
    (hS : Sources.Answer tables S) (hvalues : ∀ name v, S name = some v → ¬ v.IsKeyShaped)
    (hunmarked : ∀ name, isIndirectName name.toList = true → S name = none)
    (hstack : m.piles[slot]? = some stack) (hplain : ∀ v ∈ stack, ¬ v.IsKeyShaped)
    (hname : isIndirectName name.toList = false) (hbudget : budget ≠ some 0) :
    (expandWithin ⟨env, tables ++ [.stack slot]⟩ (left + 1) chain (ofField name format) none
        budget).runFrom m
      = (.ok (draw S name stack).1, m.withPile slot (draw S name stack).2) := by
  have hbare := ofField_isBare name format
  have hdirect : (ofField name format).direct = name := by simp [directName, hname]
  have hindirect : S (ofField name format).indirect = none := by
    rw [ofField_indirect, indirectName, if_neg (by simp [hname])]
    exact hunmarked _ (by simp [isIndirectName])
  have hdrawn : ∀ v, (draw S name stack).1 = some v → ¬ v.IsKeyShaped := by
    intro v hv
    unfold draw at hv
    split at hv
    · next w hw => exact Option.some.inj hv ▸ hvalues name w hw
    · exact hplain v (List.mem_of_mem_head? hv)
  rw [expandWithin_succ (ofField_isNull name format) hbudget,
    find_of_parts_none (ofField_parts name format), bind_assoc, Expand.runFrom_bind,
    runFrom_lookup hS hstack hbare.plan_eq hindirect, hdirect]
  cases hdraw : (draw S name stack).1 with
  | none =>
    simp only [Option.map_none, pure_bind, lastResort_ofField hname]
    rfl
  | some v =>
    simp only [Option.map_some]
    rw [follow_of_not_isKeyShaped rfl (hdrawn v hdraw)]
    simp only [pure_bind, hbare.settle_eq]
    rfl

/-! ## Dealing to the fields -/

/-- How many fields the table does not bind. -/
def unbound (S : String → Option Value) (fields : List Piece) : Nat :=
  fields.countP fun p => (S p.name).isNone

/-- The layouts of the values of fields, if those that the table binds take their values from
it, and the others take those of a list, in order and until none is left. -/
inductive Deals (S : String → Option Value) : List Piece → List Value → List String → Prop where
  | nil : Deals S [] [] []
  | bound {p : Piece} {ps : List Piece} {v : Value} {vs : List Value} {texts : List String}
      {f : Format} (hv : S p.name = some v) (hformat : Format.parse p.format = .ok f)
      (rest : Deals S ps vs texts) : Deals S (p :: ps) vs (f.apply v :: texts)
  | dealt {p : Piece} {ps : List Piece} {v : Value} {vs : List Value} {texts : List String}
      {f : Format} (hnone : S p.name = none) (hformat : Format.parse p.format = .ok f)
      (rest : Deals S ps vs texts) : Deals S (p :: ps) (v :: vs) (f.apply v :: texts)

theorem Deals.length_eq {fields : List Piece} {vs : List Value} {texts : List String}
    (h : Deals S fields vs texts) : texts.length = fields.length := by
  induction h with
  | nil => rfl
  | bound _ _ _ ih => rw [List.length_cons, List.length_cons, ih]
  | dealt _ _ _ ih => rw [List.length_cons, List.length_cons, ih]

/-- The list that is dealt settles the layouts. -/
theorem Deals.unique {fields : List Piece} {vs : List Value} {texts others : List String}
    (h : Deals S fields vs texts) (hother : Deals S fields vs others) : texts = others := by
  induction h generalizing others with
  | nil => cases hother; rfl
  | bound hv hformat _ ih =>
    cases hother with
    | bound hw hformat' hrest =>
      obtain rfl := Option.some.inj (hv.symm.trans hw)
      obtain rfl := Except.ok.inj (hformat.symm.trans hformat')
      rw [ih hrest]
    | dealt hnone => simp [hnone] at hv
  | dealt hnone hformat _ ih =>
    cases hother with
    | bound hv => simp [hnone] at hv
    | dealt _ hformat' hrest =>
      obtain rfl := Except.ok.inj (hformat.symm.trans hformat')
      rw [ih hrest]

/-- The format of a field can be read, and its key gives the value that its name draws from
any stack like this one. -/
structure Draws (S : String → Option Value) (slot : Nat) (next : Next) (budget : Budget) (p : Piece) :
    Prop where
  format : ∃ f, Format.parse p.format = .ok f
  runFrom : ∀ (m : Memory) (stack : List Value), m.piles[slot]? = some stack →
    (∀ v ∈ stack, ¬ v.IsKeyShaped) →
    (next (ofField p.name p.format) (budget.within (ofField p.name p.format))).runFrom m
      = (.ok (draw S p.name stack).1, m.withPile slot (draw S p.name stack).2)

section Rendering

variable {next : Next} {p : Piece} {ks : List Key} (hp : Draws S slot next budget p)
  (hstack : m.piles[slot]? = some stack) (hplain : ∀ v ∈ stack, ¬ v.IsKeyShaped)
include hp hstack hplain

/-- A field that draws a value is laid out, and the fields behind it have what is left. -/
theorem renderAll_of_draw {v : Value} {rest : List Value} {f : Format} {r : Option (List String)}
    {after : Memory} (hdraw : draw S p.name stack = (some v, rest))
    (hformat : Format.parse p.format = .ok f)
    (hrest : (renderAll next budget ks).runFrom (m.withPile slot rest) = (.ok r, after)) :
    (renderAll next budget (ofField p.name p.format :: ks)).runFrom m
      = (.ok (r.map (f.apply v :: ·)), after) := by
  rw [renderAll, Expand.runFrom_bind, hp.runFrom m stack hstack hplain, hdraw]
  simp only [ofField_format, hformat, Expand.runFrom_bind, hrest]
  rfl

/-- A field that draws nothing ends the rendering. -/
theorem renderAll_of_draw_none {rest : List Value} (hdraw : draw S p.name stack = (none, rest)) :
    (renderAll next budget (ofField p.name p.format :: ks)).runFrom m
      = (.ok none, m.withPile slot rest) := by
  rw [renderAll, Expand.runFrom_bind, hp.runFrom m stack hstack hplain, hdraw]
  rfl

end Rendering

/-- What comes of rendering fields over a stack. With a value for each field that needs one, the
fields take these values in order. With fewer, the last value is taken and nothing comes of it. -/
inductive Deal (S : String → Option Value) (fields : List Piece) (stack : List Value) :
    Option (List String) → List Value → Prop where
  | enough {texts : List String} (count : unbound S fields ≤ stack.length)
      (deals : Deals S fields (stack.take (unbound S fields)) texts) :
      Deal S fields stack (some texts) (stack.drop (unbound S fields))
  | few (count : stack.length < unbound S fields) : Deal S fields stack none []

section Deal

variable {p : Piece} {fields : List Piece} {r : Option (List String)} {rest : List Value} {v : Value}
  {f : Format}

theorem Deal.bound (hv : S p.name = some v) (hformat : Format.parse p.format = .ok f)
    (h : Deal S fields stack r rest) : Deal S (p :: fields) stack (r.map (f.apply v :: ·)) rest := by
  have hcount : unbound S (p :: fields) = unbound S fields := by simp [unbound, hv]
  cases h with
  | enough count deals =>
    rw [← hcount] at count deals ⊢
    exact .enough count (.bound hv hformat deals)
  | few count => exact .few (hcount ▸ count)

theorem Deal.dealt (hnone : S p.name = none) (hformat : Format.parse p.format = .ok f)
    (h : Deal S fields stack r rest) :
    Deal S (p :: fields) (v :: stack) (r.map (f.apply v :: ·)) rest := by
  have hcount : unbound S (p :: fields) = unbound S fields + 1 := by simp [unbound, hnone]
  cases h with
  | enough count deals =>
    rw [← List.drop_succ_cons, ← hcount]
    refine .enough (by rw [hcount]; exact Nat.succ_le_succ count) ?_
    rw [hcount]
    exact .dealt hnone hformat deals
  | few count => exact .few (by rw [hcount]; exact Nat.succ_lt_succ count)

end Deal

theorem renderAll_deal {next : Next} {fields : List Piece}
    (hfields : ∀ p ∈ fields, Draws S slot next budget p) (hstack : m.piles[slot]? = some stack)
    (hplain : ∀ v ∈ stack, ¬ v.IsKeyShaped) :
    ∃ r rest, Deal S fields stack r rest ∧
      (renderAll next budget (fields.map fun p => ofField p.name p.format)).runFrom m
        = (.ok r, m.withPile slot rest) := by
  induction fields generalizing m stack with
  | nil =>
    refine ⟨_, _, .enough (Nat.zero_le _) .nil, ?_⟩
    rw [unbound, List.countP_nil, List.drop_zero, Memory.withPile_self hstack]
    rfl
  | cons p fields ih =>
    obtain ⟨hp, hlater⟩ := List.forall_mem_cons.mp hfields
    obtain ⟨f, hf⟩ := hp.format
    cases hv : S p.name with
    | some v =>
      have hdraw : draw S p.name stack = (some v, stack) := by simp [draw, hv]
      obtain ⟨r, rest, hdeal, hrun⟩ := ih hlater hstack hplain
      refine ⟨_, rest, hdeal.bound hv hf, ?_⟩
      exact renderAll_of_draw hp hstack hplain hdraw hf (by rw [Memory.withPile_self hstack, hrun])
    | none =>
      cases stack with
      | nil =>
        have hdraw : draw S p.name [] = (none, []) := by simp [draw, hv]
        exact ⟨none, [], .few (by simp [unbound, hv]), renderAll_of_draw_none hp hstack hplain hdraw⟩
      | cons v values =>
        have hdraw : draw S p.name (v :: values) = (some v, values) := by simp [draw, hv]
        obtain ⟨r, rest, hdeal, hrun⟩ := ih hlater (Memory.piles_withPile hstack values)
          (fun w hw => hplain w (List.mem_cons_of_mem _ hw))
        rw [Memory.withPile_withPile] at hrun
        exact ⟨_, rest, hdeal.dealt hv hf, renderAll_of_draw hp hstack hplain hdraw hf hrun⟩

/-- A template takes from a stack behind a table exactly one value for each of its fields that
the table does not bind, from the top and from left to right. If there are too few, nothing
comes of it, and nothing is left of the stack. -/
theorem expand_template_stack {registry : Registry} {sources : List Source} {memory : Memory}
    {limit : Option Int} {text : String} {pieces : List Piece}
    (hsources : sources ++ registry.sources = tables ++ [.stack slot]) (hS : Sources.Answer tables S)
    (hvalues : ∀ name v, S name = some v → ¬ v.IsKeyShaped)
    (hunmarked : ∀ name, isIndirectName name.toList = true → S name = none)
    (hstack : memory.piles[slot]? = some stack) (hplain : ∀ v ∈ stack, ¬ v.IsKeyShaped)
    (hlimit : limit ≠ some 0) (hpieces : Template.pieces text = .ok pieces)
    (hfield : ∃ p ∈ pieces, p.isLiteral = false) (halone : ∀ p, pieces = [p] → p.lead ≠ "")
    (hk : ofText text = .ok k) (hconv : ∀ p ∈ pieces, p.conversion = "")
    (hnames : ∀ p ∈ pieces, p.isIndirect = false) :
    let fields := pieces.filter (!·.isLiteral)
    (unbound S fields ≤ stack.length →
      ∃ texts, Deals S fields (stack.take (unbound S fields)) texts ∧
        (k.expand env registry sources none limit).runFrom memory
          = (.ok (some (.str (String.join (placed pieces texts)))),
              memory.withPile slot (stack.drop (unbound S fields)))) ∧
    (stack.length < unbound S fields →
      (k.expand env registry sources none limit).runFrom memory
        = (.ok none, memory.withPile slot [])) := by
  intro fields
  obtain ⟨rfl, hformats⟩ := eq_templated_of_ofText hpieces hfield halone hk hconv
  have hbudget : (templated {} text .multi none pieces (fieldKeys pieces)).callBudget limit ≠ some 0 :=
    callBudget_ne_zero rfl hlimit
  rw [expand_eq, show nestingLimit = 198 + 1 + 1 from rfl, hsources,
    expandWithin_templated hpieces halone hbudget]
  generalize Key.callBudget _ limit = budget at hbudget ⊢
  have hdraws : ∀ p ∈ fields, Draws S slot (fun other budget =>
      expandWithin ⟨env, tables ++ [.stack slot]⟩ (198 + 1) ([] ++ [text]) other none budget) budget p := by
    intro p hp
    obtain ⟨hp, hlit⟩ := List.mem_filter.mp hp
    exact ⟨hformats p hp (by simpa using hlit), fun m stack hstack hplain =>
      runFrom_field hS hvalues hunmarked hstack hplain (hnames p hp)
        (by simpa [Budget.within, Key.budget] using hbudget)⟩
  obtain ⟨r, rest, hdeal, hrun⟩ := renderAll_deal hdraws hstack hplain
  rw [Expand.runFrom_bind, fieldKeys, hrun]
  cases hdeal with
  | enough count deals =>
    refine ⟨fun _ => ⟨_, deals, ?_⟩, fun hfew => absurd count (Nat.not_le.mpr hfew)⟩
    simp only [Template.fill_placed (Nat.le_of_eq deals.length_eq.symm)]
    rfl
  | few count => exact ⟨fun henough => absurd henough (Nat.not_le.mpr count), fun _ => rfl⟩

/-- Two of three fields need a value. A stack of three keeps its last one, a stack of one
loses it for nothing. -/
theorem expand_template_stack_two :
    let env : Surroundings := ⟨.ok, fun _ v => .ok v, {}⟩
    let sources := [Source.table [("a", .bool true)], .stack 0]
    let text := "\x7bx:>3\x7d-\x7ba\x7d\x7by\x7d"
    ∃ k, ofText text = .ok k ∧
      (k.expand env {} sources none none).runFrom { piles := [[.str "p", .str "q", .str "r"]] }
        = (.ok (some (.str "  p-trueq")), { piles := [[.str "r"]] }) ∧
      (k.expand env {} sources none none).runFrom { piles := [[.str "p"]] }
        = (.ok none, { piles := [[]] }) := by
  intro env sources text
  let S := Entries.get? [("a", Value.bool true)]
  let pieces : List Piece := [⟨"", "x", ">3", ""⟩, ⟨"-", "a", "", ""⟩, ⟨"", "y", "", ""⟩]
  have hS : Sources.Answer [.table [("a", .bool true)]] S := fun name => by
    simpa using Sources.find_tables name [[("a", Value.bool true)]]
  have hpieces : Template.pieces text = .ok pieces := by decide
  obtain ⟨k, hk⟩ : ∃ k, ofText text = .ok k := Except.exists_ok_of_isOk (by decide)
  have hbound {name : String} {v : Value} (h : S name = some v) : name = "a" ∧ v = .bool true := by
    simp only [S, Entries.get?_cons, Entries.get?_nil] at h
    split at h
    · next heq => exact ⟨heq.symm, (Option.some.inj h).symm⟩
    · cases h
  have hvalues (name : String) (v : Value) (h : S name = some v) : ¬ v.IsKeyShaped := by
    rw [(hbound h).2]
    exact id
  have hunmarked (name : String) (h : isIndirectName name.toList = true) : S name = none := by
    by_contra hsome
    obtain ⟨v, hv⟩ := Option.ne_none_iff_exists'.mp hsome
    rw [(hbound hv).1] at h
    exact absurd h (by decide)
  have hplain (texts : List String) (h : ∀ text ∈ texts, '{' ∉ text.toList) :
      ∀ v ∈ texts.map Value.str, ¬ v.IsKeyShaped := by
    intro v hv
    obtain ⟨text, htext, rfl⟩ := List.mem_map.mp hv
    exact fun hshaped => h text htext hshaped.1
  have hexpand (texts : List String) (h : ∀ text ∈ texts, '{' ∉ text.toList) :=
    @expand_template_stack S [.table [("a", .bool true)]] 0 (texts.map Value.str) env k {} sources
      { piles := [texts.map Value.str] } none text pieces rfl hS hvalues hunmarked rfl (hplain texts h)
      (by simp) hpieces (by decide) (by simp [pieces]) hk (by decide) (by decide)
  obtain ⟨laid, hdeals, hrun⟩ := (hexpand ["p", "q", "r"] (by decide)).1 (by decide)
  have hright : Format.parse ">3" = .ok { align := some .right, width := some 3 } := by decide
  have hempty : Format.parse "" = .ok {} := by decide
  obtain rfl := hdeals.unique (.dealt rfl hright (.bound rfl hempty (.dealt rfl hempty .nil)))
  exact ⟨k, hk, hrun, (hexpand ["p"] (by decide)).2 (by decide)⟩

end Key

end KeyExpansion
