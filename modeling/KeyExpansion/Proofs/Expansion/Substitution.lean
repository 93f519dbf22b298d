-- SUMMARY: Expanding a template puts the values of its fields between its literal texts.
import KeyExpansion.Proofs.Expansion.Steady
import KeyExpansion.Proofs.Key.Template
import KeyExpansion.Proofs.Template.Fill

/-! # Expanding templates

Over sources that asking does not change, a template whose fields are all bound expands
to its literal texts with the values of the fields, laid out, in their places. What is
put in is never read again. One field that is bound to nothing leaves nothing. -/

namespace KeyExpansion

open Template (Piece weave)

namespace Template.Piece

variable {S : String → Option Value} {p : Piece}

/-- The value of a field, laid out by its format. -/
def LaidOut (S : String → Option Value) (p : Piece) (text : String) : Prop :=
  ∃ v f, S p.direct = some v ∧ Format.parse p.format = .ok f ∧ text = f.apply v

/-- What a piece reads as: its literal text, then the value of its field if it has one. -/
def ReadsAs (S : String → Option Value) (p : Piece) (text : String) : Prop :=
  if p.isLiteral then text = p.lead else ∃ value, p.LaidOut S value ∧ text = p.lead ++ value

/-- The direct name of a field is bound to a value that names no key. -/
def IsBound (S : String → Option Value) (p : Piece) : Prop :=
  ∃ v, S p.direct = some v ∧ ¬ v.IsKeyShaped

end Template.Piece

open Template.Piece

/-- If the fields can be laid out, what the pieces read as is what weaving them gives. -/
theorem Template.exists_readsAs {S : String → Option Value} {pieces : List Piece}
    (h : ∀ p ∈ pieces, p.isLiteral = false → ∃ value, p.LaidOut S value) :
    ∃ texts values, List.Forall₂ (ReadsAs S) pieces texts ∧
      List.Forall₂ (LaidOut S) (pieces.filter (!·.isLiteral)) values ∧
      weave pieces (values.map String.toList) = some (String.join texts).toList := by
  induction pieces with
  | nil => exact ⟨[], [], .nil, .nil, rfl⟩
  | cons p pieces ih =>
    obtain ⟨texts, values, hread, hlaid, hweave⟩ := ih fun p hp => h p (List.mem_cons_of_mem _ hp)
    cases hlit : p.isLiteral with
    | true =>
      refine ⟨p.lead :: texts, values, .cons (by simp [ReadsAs, hlit]) hread, ?_, ?_⟩
      · simpa [hlit] using hlaid
      · rw [Template.weave_literal hlit, hweave]
        simp [String.toList_join]
    | false =>
      obtain ⟨value, hvalue⟩ := h p (by simp) hlit
      refine ⟨(p.lead ++ value) :: texts, value :: values, .cons ?_ hread, ?_, ?_⟩
      · simpa [ReadsAs, hlit] using hvalue
      · simpa [hlit] using ⟨hvalue, hlaid⟩
      · rw [List.map_cons, Template.weave_field hlit, hweave]
        simp [String.toList_join]

namespace Key

variable {ctx : Context} {S : String → Option Value} {next : Next} {budget : Budget}

/-! ## Rendering the fields -/

/-- The key of a field gives a value whose layout is the text. -/
def Renders (next : Next) (budget : Budget) (k : Key) (text : String) : Prop :=
  ∃ v f, next k (budget.within k) = pure (some v) ∧ Format.parse k.format = .ok f ∧
    text = f.apply v

theorem renderAll_of_renders {ks : List Key} {texts : List String}
    (h : List.Forall₂ (Renders next budget) ks texts) :
    renderAll next budget ks = pure (some texts) := by
  induction h with
  | nil => rfl
  | @cons k text ks texts hk _ ih =>
    obtain ⟨v, f, hnext, hformat, rfl⟩ := hk
    simp [renderAll, hnext, hformat, ih]

/-- One key that gives nothing leaves nothing, whatever comes after it. -/
theorem renderAll_of_miss {before after : List Key} {k : Key} {texts : List String}
    (hbefore : List.Forall₂ (Renders next budget) before texts)
    (hmiss : next k (budget.within k) = pure none) :
    renderAll next budget (before ++ k :: after) = pure none := by
  induction hbefore with
  | nil => simp [renderAll, hmiss]
  | @cons b text before texts hb _ ih =>
    obtain ⟨v, f, hnext, hformat, rfl⟩ := hb
    simp [renderAll, hnext, hformat, ih]

/-- The values of bound fields are laid out as the formats say. -/
theorem renders_of_laidOut {left : Nat} {chain : List String} {fields : List Piece}
    {values : List String} (hS : Sources.Answer ctx.sources S) (hbudget : budget ≠ some 0)
    (hbound : ∀ p ∈ fields, p.IsBound S) (hlaid : List.Forall₂ (LaidOut S) fields values) :
    List.Forall₂
      (Renders (fun other budget => expandWithin ctx (left + 1) chain other none budget) budget)
      (fields.map fun p => ofField p.name p.format) values := by
  induction hlaid with
  | nil => exact .nil
  | @cons p value fields values hp _ ih =>
    refine .cons ?_ (ih fun p hp => hbound p (List.mem_cons_of_mem _ hp))
    obtain ⟨v, f, hv, hformat, rfl⟩ := hp
    obtain ⟨w, hw, hplain⟩ := hbound p (by simp)
    obtain rfl : v = w := Option.some.inj (hv.symm.trans hw)
    refine ⟨v, f, ?_, hformat, rfl⟩
    exact expandWithin_hit hS (ofField_isBare _ _) rfl (ofField_isNull _ _)
      (by simpa [Budget.within, Key.budget] using hbudget) hv hplain

/-! ## Whole templates -/

/-- More than one field, or a field with literal text, is rendered as text. -/
theorem expandParts_eq {parts : Parts} (h : ∀ k, parts.subkeys = [k] → parts.hasLiteral = true) :
    expandParts next parts budget = (do
      match ← renderAll next budget parts.subkeys with
      | none => return none
      | some texts =>
        match Template.fill parts.slots texts with
        | .ok text => return some { value := .str text, budget, literal := true }
        | .error fault => throw (.malformedTemplate parts.slots fault)) := by
  unfold expandParts
  split
  · rename_i k hsub hlit
    rw [h k hsub] at hlit
    cases hlit
  · rfl

/-- The keys of the fields of a template. -/
def fieldKeys (pieces : List Piece) : List Key :=
  (pieces.filter (!·.isLiteral)).map fun p => ofField p.name p.format

/-- One field of a template makes no text of its own unless there is literal text. -/
theorem hasLiteral_of_single {text : String} {pieces : List Piece} {k : Key}
    (hpieces : Template.pieces text = .ok pieces) (halone : ∀ p, pieces = [p] → p.lead ≠ "")
    (h : fieldKeys pieces = [k]) :
    pieces.any (!·.lead.isEmpty) = true := by
  by_contra hnone
  have hlead : ∀ p ∈ pieces, p.lead = "" := by simpa using hnone
  have hfields : pieces.filter (!·.isLiteral) = pieces := by
    rw [List.filter_eq_self]
    intro p hp
    by_contra hlit
    exact (Template.isRead_of_mem_pieces hpieces p hp).lead (by simpa using hlit) (hlead p hp)
  rw [fieldKeys, hfields] at h
  obtain ⟨p, rfl, -⟩ := List.map_eq_singleton_iff.mp h
  exact halone p rfl (hlead p (by simp))

/-- The key of a template whose fields name no conversion, in full. -/
theorem eq_templated_of_ofText {text : String} {pieces : List Piece} {k : Key}
    (hpieces : Template.pieces text = .ok pieces) (hfield : ∃ p ∈ pieces, p.isLiteral = false)
    (halone : ∀ p, pieces = [p] → p.lead ≠ "") (hk : ofText text = .ok k)
    (hconv : ∀ p ∈ pieces, p.conversion = "") :
    k = templated {} text .multi none pieces (fieldKeys pieces) ∧
      ∀ p ∈ pieces, p.isLiteral = false → ∃ f, Format.parse p.format = .ok f := by
  rw [ofText_eq_makeTemplate hpieces hfield halone] at hk
  obtain ⟨mark, hmark, subkeys, hsubkeys, conversion, hconversion, -, rfl⟩ :=
    makeTemplate_eq_ok.mp hk
  obtain rfl : Mark.multi = mark := by simpa [templateMark] using hmark
  obtain rfl : none = conversion := by simpa [readConversion] using hconversion
  obtain ⟨rfl, hformats⟩ := mapM_makeSingle (fun p hp => hconv p (List.mem_of_mem_filter hp)) hsubkeys
  exact ⟨rfl, fun p hp hlit => hformats p (List.mem_filter.mpr ⟨hp, by simp [hlit]⟩)⟩

/-- A template renders its fields and fills its slots. -/
theorem expandWithin_templated {left : Nat} {chain : List String} {text : String}
    {pieces : List Piece} (hpieces : Template.pieces text = .ok pieces)
    (halone : ∀ p, pieces = [p] → p.lead ≠ "") (hbudget : budget ≠ some 0) :
    expandWithin ctx (left + 1) chain (templated {} text .multi none pieces (fieldKeys pieces)) none
        budget = (do
      match ← renderAll (fun other budget => expandWithin ctx left (chain ++ [text]) other none budget)
        budget (fieldKeys pieces) with
      | none => return none
      | some texts =>
        match Template.fill (String.join (pieces.map Piece.slot)) texts with
        | .ok t => return some (.str t)
        | .error fault =>
          throw (.malformedTemplate (String.join (pieces.map Piece.slot)) fault)) := by
  have hbare := templated_isBare text pieces (fieldKeys pieces)
  have hparts : find ctx (fun other budget => expandWithin ctx left (chain ++ [text]) other none budget)
      (chain ++ [text]) (templated {} text .multi none pieces (fieldKeys pieces)) budget = _ :=
    expandParts_eq fun k h => hasLiteral_of_single hpieces halone h
  rw [expandWithin_succ rfl hbudget]
  change (find ctx (fun other budget => expandWithin ctx left (chain ++ [text]) other none budget)
      (chain ++ [text]) (templated {} text .multi none pieces (fieldKeys pieces)) budget >>= _) = _
  rw [hparts, bind_assoc]
  refine bind_congr fun r => ?_
  cases r with
  | none =>
    rw [pure_bind, lastResort_of_standard rfl rfl]
  | some texts =>
    simp only
    cases hfill : Template.fill (String.join (pieces.map Piece.slot)) texts with
    | ok t => simp only [pure_bind, hbare.settle_eq, Option.some_or]
    | error fault => rfl

/-- Expanding a template is substitution: with all fields bound it gives the literal texts
with the laid out values in their places, and with one field bound to nothing, nothing. -/
theorem expand_template {env : Surroundings} {registry : Registry} {sources : List Source}
    {limit : Option Int} {text : String} {pieces : List Piece} {k : Key}
    (hS : Sources.Answer (sources ++ registry.sources) S) (hlimit : limit ≠ some 0)
    (hpieces : Template.pieces text = .ok pieces) (hfield : ∃ p ∈ pieces, p.isLiteral = false)
    (halone : ∀ p, pieces = [p] → p.lead ≠ "") (hk : ofText text = .ok k)
    (hconv : ∀ p ∈ pieces, p.conversion = "") :
    ((∀ p ∈ pieces, p.isLiteral = false → p.IsBound S) →
      ∃ texts, List.Forall₂ (ReadsAs S) pieces texts ∧
        k.expand env registry sources none limit = pure (some (.str (String.join texts)))) ∧
    ∀ before p after, pieces = before ++ p :: after → p.isLiteral = false →
      p.isIndirect = false → S p.direct = none → S p.indirect = none →
      (∀ q ∈ before, q.isLiteral = false → q.IsBound S) →
      k.expand env registry sources none limit = pure none := by
  obtain ⟨rfl, hformats⟩ := eq_templated_of_ofText hpieces hfield halone hk hconv
  have hbudget : (templated {} text .multi none pieces (fieldKeys pieces)).callBudget limit ≠ some 0 :=
    callBudget_ne_zero rfl hlimit
  rw [expand_eq, show nestingLimit = 198 + 1 + 1 from rfl, expandWithin_templated hpieces halone hbudget]
  generalize Key.callBudget _ limit = budget at hbudget ⊢
  have hlaid {ps : List Piece} (hsub : ps ⊆ pieces)
      (hbound : ∀ p ∈ ps, p.isLiteral = false → p.IsBound S) :
      ∀ p ∈ ps, p.isLiteral = false → ∃ value, p.LaidOut S value := by
    intro p hp hlit
    obtain ⟨v, hv, -⟩ := hbound p hp hlit
    obtain ⟨f, hf⟩ := hformats p (hsub hp) hlit
    exact ⟨_, v, f, hv, hf, rfl⟩
  have hfields {ps : List Piece} (hbound : ∀ p ∈ ps, p.isLiteral = false → p.IsBound S) :
      ∀ p ∈ ps.filter (!·.isLiteral), p.IsBound S := by
    intro p hp
    obtain ⟨hp, hlit⟩ := List.mem_filter.mp hp
    exact hbound p hp (by simpa using hlit)
  constructor
  · intro hbound
    obtain ⟨texts, values, hread, hvalues, hweave⟩ :=
      Template.exists_readsAs (hlaid (List.Subset.refl _) hbound)
    refine ⟨texts, hread, ?_⟩
    rw [fieldKeys, renderAll_of_renders (renders_of_laidOut hS hbudget (hfields hbound) hvalues),
      pure_bind]
    simp only [Template.fill_pieces hweave, String.ofList_toList]
  · intro before p after hsplit hlit hdir hdirect hindirect hbound
    obtain ⟨-, values, -, hvalues, -⟩ :=
      Template.exists_readsAs (hlaid (by simp [hsplit]) hbound)
    have hkeys : fieldKeys pieces
        = (before.filter (!·.isLiteral)).map (fun p => ofField p.name p.format)
          ++ ofField p.name p.format :: fieldKeys after := by
      simp [hsplit, fieldKeys, hlit]
    rw [hkeys, renderAll_of_miss (renders_of_laidOut hS hbudget (hfields hbound) hvalues), pure_bind]
    rw [expandWithin_miss hS (ofField_isBare _ _) rfl (ofField_isNull _ _)
      (by simpa [Budget.within, Key.budget] using hbudget) hdirect hindirect,
      lastResort_ofField hdir]

/-- Braces in the literal text and in the values stay as they are. -/
theorem expand_template_braces :
    let env : Surroundings := ⟨.ok, fun _ v => .ok v, {}⟩
    let sources := [Source.table [("a", .bool true), ("b", .str "\x7b\x7d\x7b")]]
    let text := "\x7b\x7bx\x7d\x7d\x7ba:>5\x7d-\x7bb\x7d"
    ∃ k, ofText text = .ok k ∧
      k.expand env {} sources none none = pure (some (.str "\x7bx\x7d true-\x7b\x7d\x7b")) := by
  intro env sources text
  have hS : Sources.Answer (sources ++ Registry.sources {}) _ :=
    Sources.answer_of_not_isStack sources (by simp [sources])
  have hpieces : Template.pieces text = .ok [⟨"\x7bx\x7d", "a", ">5", ""⟩, ⟨"-", "b", "", ""⟩] := by
    decide
  obtain ⟨k, hk⟩ : ∃ k, ofText text = .ok k := Except.exists_ok_of_isOk (by decide)
  have hbound : ∀ p ∈ [⟨"\x7bx\x7d", "a", ">5", ""⟩, ⟨"-", "b", "", ""⟩],
      p.isLiteral = false → IsBound (fun name => sources.findSome? (Source.answer? name)) p := by
    intro p hp hlit
    simp only [List.mem_cons, List.not_mem_nil, or_false] at hp
    rcases hp with rfl | rfl
    · exact ⟨.bool true, rfl, id⟩
    · refine ⟨.str "\x7b\x7d\x7b", rfl, ?_⟩
      rintro ⟨-, k, hk, -⟩
      cases hk
  obtain ⟨texts, hread, hexpand⟩ := (@expand_template _ env {} sources none text _ k hS (by simp)
    hpieces (by decide) (by simp) hk (by decide)).1 hbound
  refine ⟨k, hk, ?_⟩
  obtain _ | ⟨⟨_, ⟨v, f, hv, hf, rfl⟩, rfl⟩, _ | ⟨⟨_, ⟨w, g, hw, hg, rfl⟩, rfl⟩, _ | _⟩⟩ := hread
  obtain rfl : Value.bool true = v := Option.some.inj hv
  obtain rfl : Value.str "\x7b\x7d\x7b" = w := Option.some.inj hw
  have hright : Format.parse ">5" = .ok { align := some .right, width := some 5 } := by decide
  have hplain : Format.parse "" = .ok {} := by decide
  obtain rfl : ({ align := some .right, width := some 5 } : Format) = f :=
    Except.ok.inj (hright.symm.trans hf)
  obtain rfl : ({} : Format) = g := Except.ok.inj (hplain.symm.trans hg)
  rw [hexpand]
  rfl

end Key

end KeyExpansion
