-- SUMMARY: Which texts write a parameter name, and the one way in which each is cut.
import KeyExpansion.Proofs.Text.Search
import KeyExpansion.Template.ParamName
import Mathlib.Data.List.TakeWhile

/-! # The grammar of parameter names

A parameter name is written `<digits>`, or a run of characters that stand in no word, or neither;
then its body, which is the name and perhaps an equals sign. A body is never empty and stays on
one line, so a run ends early enough to leave one. A position counts where a body follows it;
elsewhere its bracket is a character like any other. -/

namespace KeyExpansion.ParamName

/-- What is left for the name: something, on one line. -/
structure IsRest (body : List Char) : Prop where
  ne_nil : body ≠ []
  one_line : '\n' ∉ body

/-- The name in a body, and whether an equals sign ends it. -/
inductive Spells : List Char → String → Bool → Prop where
  | assigned {name : List Char} (ne_nil : name ≠ []) :
      Spells (name ++ ['=']) (String.ofList name) true
  | bare {body : List Char} (other : ∀ name, name ≠ [] → body ≠ name ++ ['=']) :
      Spells body (String.ofList body) false

/-- The text is a position, given by its digits, and a body. -/
structure IsPlaced (text digits body : List Char) : Prop where
  text_eq : text = '<' :: (digits ++ '>' :: body)
  decimal : ∀ c ∈ digits, Text.isDecimal c = true
  rest : IsRest body

/-- The text is a run of characters that stand in no word, and a body. -/
structure IsLed (text lead body : List Char) : Prop where
  text_eq : text = lead ++ body
  outside : ∀ c ∈ lead, Text.isWord c = false
  rest : IsRest body

/-- No longer run leaves a body. -/
structure IsLedMost (text lead body : List Char) : Prop extends IsLed text lead body where
  longest : ∀ other rest, IsLed text other rest → other.length ≤ lead.length

/-- A run that is not there is left out. -/
def leadOf (lead : List Char) : Option String :=
  if lead = [] then none else some (String.ofList lead)

/-- The text writes the parameter name. -/
inductive Writes (text : List Char) : ParamName → Prop where
  | placed {digits body : List Char} {name : String} {assign : Bool}
      (place : IsPlaced text digits body) (spells : Spells body name assign) :
      Writes text { position := some (readPosition digits), name, assign }
  | unplaced {lead body : List Char} {name : String} {assign : Bool}
      (no_place : ∀ digits body, ¬ IsPlaced text digits body) (led : IsLedMost text lead body)
      (spells : Spells body name assign) :
      Writes text { lead := leadOf lead, name, assign }

/-- The text is empty, or ends with its last line break, or has a word before it. -/
def IsNameless (text : List Char) : Prop :=
  text = [] ∨ ∃ before after, text = before ++ '\n' :: after ∧ '\n' ∉ after ∧
    (after = [] ∨ ∃ c ∈ before, Text.isWord c = true)

/-- The text of a position in angle brackets. -/
inductive WritesPosition : Option Position → List Char → Prop where
  | absent : WritesPosition none []
  | digits {digits : List Char} (decimal : ∀ c ∈ digits, Text.isDecimal c = true) :
      WritesPosition (some (readPosition digits)) ('<' :: (digits ++ ['>']))

/-- What stands behind the position. -/
def unplacedText (p : ParamName) : List Char :=
  (p.lead.getD "").toList ++ (p.name.toList ++ if p.assign then ['='] else [])

variable {text body digits lead cs : List Char} {p : ParamName} {name : String} {assign : Bool}

/-! ## Bodies -/

theorem isBody_eq_true : isBody body = true ↔ IsRest body := by
  simp only [isBody, Bool.and_eq_true, Bool.not_eq_true', List.isEmpty_eq_false_iff,
    List.contains_eq_mem, decide_eq_false_iff_not]
  exact ⟨fun ⟨hne, hline⟩ => ⟨hne, hline⟩, fun h => ⟨h.ne_nil, h.one_line⟩⟩

theorem splitAssign_concat {name : List Char} (h : name ≠ []) :
    splitAssign (name ++ ['=']) = (name, true) := by
  simp [splitAssign, h]

theorem splitAssign_of_other (h : ∀ name, name ≠ [] → body ≠ name ++ ['=']) :
    splitAssign body = (body, false) := by
  rcases List.eq_nil_or_concat body with rfl | ⟨name, c, rfl⟩
  · rfl
  · rw [splitAssign, if_neg]
    simp only [List.concat_eq_append, List.length_append, List.length_singleton,
      List.getLast?_append, List.getLast?_singleton, Option.some_or, Bool.and_eq_true,
      decide_eq_true_eq, beq_iff_eq, Option.some.injEq, not_and]
    rintro hlength rfl
    refine h name ?_ (List.concat_eq_append ..)
    rintro rfl
    simp at hlength

theorem spells_iff : Spells body name assign ↔ splitAssign body = (name.toList, assign) := by
  constructor
  · rintro (hne | hother)
    · rw [splitAssign_concat hne, String.toList_ofList]
    · rw [splitAssign_of_other hother, String.toList_ofList]
  · intro h
    by_cases hbody : ∃ name, name ≠ [] ∧ body = name ++ ['=']
    · obtain ⟨own, hne, rfl⟩ := hbody
      obtain ⟨hname, rfl⟩ := Prod.mk.inj ((splitAssign_concat hne).symm.trans h)
      rw [← String.ofList_toList (s := name), ← hname]
      exact .assigned hne
    · have hother : ∀ name, name ≠ [] → body ≠ name ++ ['='] := by simpa using hbody
      obtain ⟨hname, rfl⟩ := Prod.mk.inj ((splitAssign_of_other hother).symm.trans h)
      rw [← String.ofList_toList (s := name), ← hname]
      exact .bare hother

theorem Spells.toList_eq (h : Spells body name assign) :
    body = name.toList ++ if assign then ['='] else [] := by
  cases h <;> simp

theorem ofBody_eq_iff {position : Option Position} {lead : Option String} :
    ofBody position lead body = p ↔ ∃ name assign, Spells body name assign ∧
      p = { position, lead, name, assign } := by
  constructor
  · rintro rfl
    refine ⟨String.ofList (splitAssign body).1, (splitAssign body).2, spells_iff.mpr ?_, rfl⟩
    rw [String.toList_ofList]
  · rintro ⟨name, assign, hspells, rfl⟩
    simp only [ofBody, spells_iff.mp hspells, String.ofList_toList]

/-! ## Positions -/

theorem splitPosition?_eq_some : splitPosition? cs = some (digits, body) ↔
    cs = '<' :: (digits ++ '>' :: body) ∧ ∀ c ∈ digits, Text.isDecimal c = true := by
  constructor
  · intro h
    unfold splitPosition? at h
    split at h
    · next cs =>
      split at h
      · next hdrop =>
        cases h
        refine ⟨?_, fun c hc => List.mem_takeWhile_imp hc⟩
        rw [← hdrop, List.takeWhile_append_dropWhile]
      · cases h
    · cases h
  · rintro ⟨rfl, hdigits⟩
    have hclose : Text.isDecimal '>' = false := by decide
    simp [splitPosition?, List.takeWhile_append_of_pos hdigits, List.dropWhile_append_of_pos hdigits,
      hclose]

theorem isPlaced_iff : IsPlaced cs digits body ↔
    splitPosition? cs = some (digits, body) ∧ isBody body = true := by
  rw [splitPosition?_eq_some, isBody_eq_true]
  exact ⟨fun h => ⟨⟨h.text_eq, h.decimal⟩, h.rest⟩, fun ⟨⟨heq, hdigits⟩, hrest⟩ => ⟨heq, hdigits, hrest⟩⟩

/-- A position and its body stand on one line, so they could be a body together. -/
theorem IsPlaced.isLed (h : IsPlaced text digits body) : IsLed text [] text where
  text_eq := rfl
  outside := by simp
  rest := by
    refine ⟨by simp [h.text_eq], ?_⟩
    have hdigits : '\n' ∉ digits := fun hmem => absurd (h.decimal _ hmem) (by decide)
    simp [h.text_eq, hdigits, h.rest.one_line]

/-! ## Runs in front of a body -/

theorem length_take_leadLength : (cs.take (leadLength cs)).length = leadLength cs :=
  List.length_take_of_le ((Nat.min_le_right _ _).trans (Nat.sub_le _ _))

theorem take_leadLength_outside : ∀ c ∈ cs.take (leadLength cs), Text.isWord c = false := by
  intro c hc
  have hwithin : cs.take (leadLength cs) <+: cs.takeWhile (!Text.isWord ·) := by
    rw [List.prefix_iff_eq_take.mp (List.takeWhile_prefix (!Text.isWord ·))]
    exact List.take_prefix_take_left (Nat.min_le_left _ _)
  simpa using List.mem_takeWhile_imp (hwithin.subset hc)

theorem IsLed.length_le (h : IsLed cs lead body) : lead.length ≤ leadLength cs := by
  have hrun : lead.length ≤ (cs.takeWhile (!Text.isWord ·)).length := by
    rw [h.text_eq, List.takeWhile_append_of_pos (by simpa using h.outside), List.length_append]
    omega
  have hrest : lead.length ≤ cs.length - 1 := by
    have := List.length_pos_iff.mpr h.rest.ne_nil
    rw [h.text_eq, List.length_append]
    omega
  exact Nat.le_min.mpr ⟨hrun, hrest⟩

theorem isLed_leadLength (h : isBody (cs.drop (leadLength cs)) = true) :
    IsLed cs (cs.take (leadLength cs)) (cs.drop (leadLength cs)) where
  text_eq := (List.take_append_drop _ _).symm
  outside := take_leadLength_outside
  rest := isBody_eq_true.mp h

/-- If some run leaves a body, the longest one does. -/
theorem IsLed.isBody_drop (h : IsLed cs lead body) : isBody (cs.drop (leadLength cs)) = true := by
  refine isBody_eq_true.mpr ⟨?_, ?_⟩
  · have hlength : 0 < cs.length := by
      have := List.length_pos_iff.mpr h.rest.ne_nil
      rw [h.text_eq, List.length_append]
      omega
    have hshort : leadLength cs ≤ cs.length - 1 := Nat.min_le_right _ _
    rw [Ne, List.drop_eq_nil_iff]
    omega
  · have hsuffix : cs.drop (leadLength cs) <:+ body := by
      have hdrop : cs.drop lead.length = body := by rw [h.text_eq, List.drop_left]
      rw [← hdrop]
      exact List.drop_suffix_drop_left cs h.length_le
    exact fun hmem => h.rest.one_line (hsuffix.subset hmem)

theorem isLedMost_iff : IsLedMost cs lead body ↔ isBody (cs.drop (leadLength cs)) = true ∧
    lead = cs.take (leadLength cs) ∧ body = cs.drop (leadLength cs) := by
  constructor
  · intro h
    have hbody := h.toIsLed.isBody_drop
    have hlength : (cs.take (leadLength cs)).length = lead.length := by
      refine le_antisymm (h.longest _ _ (isLed_leadLength hbody)) ?_
      rw [length_take_leadLength]
      exact h.length_le
    have hsplit := (List.take_append_drop (leadLength cs) cs).trans h.text_eq
    obtain ⟨hlead, hrest⟩ := List.append_inj hsplit hlength
    exact ⟨hbody, hlead.symm, hrest.symm⟩
  · rintro ⟨hbody, rfl, rfl⟩
    refine ⟨isLed_leadLength hbody, fun other rest hother => ?_⟩
    rw [length_take_leadLength]
    exact hother.length_le

theorem leadOf_take (h : isBody (cs.drop (leadLength cs)) = true) : leadOf (cs.take (leadLength cs)) =
    if leadLength cs = 0 then none else some (String.ofList (cs.take (leadLength cs))) := by
  have hne : cs ≠ [] := by
    rintro rfl
    simp [isBody] at h
  simp [leadOf, List.take_eq_nil_iff, hne]

theorem parseUnplaced?_eq_some : parseUnplaced? cs = some p ↔
    ∃ lead body name assign, IsLedMost cs lead body ∧ Spells body name assign ∧
      p = { lead := leadOf lead, name, assign } := by
  simp only [parseUnplaced?, Option.ite_none_right_eq_some, Option.some.injEq, ofBody_eq_iff,
    isLedMost_iff]
  constructor
  · rintro ⟨hbody, name, assign, hspells, rfl⟩
    exact ⟨_, _, name, assign, ⟨hbody, rfl, rfl⟩, hspells, by rw [leadOf_take hbody]⟩
  · rintro ⟨lead, body, name, assign, ⟨hbody, rfl, rfl⟩, hspells, rfl⟩
    exact ⟨hbody, name, assign, hspells, by rw [leadOf_take hbody]⟩

theorem parseUnplaced?_eq_none : parseUnplaced? cs = none ↔ ∀ lead body, ¬ IsLed cs lead body := by
  simp only [parseUnplaced?, ite_eq_right_iff, reduceCtorEq, imp_false]
  exact ⟨fun h lead body hled => h hled.isBody_drop, fun h hbody => h _ _ (isLed_leadLength hbody)⟩

/-! ## Texts without a name -/

/-- A body stands behind the last line break, so all that is up to there stands in no word. -/
theorem IsLed.not_isNameless (h : IsLed text lead body) : ¬ IsNameless text := by
  rintro (rfl | ⟨before, after, hbreak, hafter, hnone⟩)
  · exact h.rest.ne_nil (List.append_eq_nil_iff.mp h.text_eq.symm).2
  · have hsplit : lead ++ body = (before ++ ['\n']) ++ after := by
      rw [← h.text_eq, hbreak, List.append_assoc, List.singleton_append]
    rcases List.append_eq_append_iff.mp hsplit with ⟨rest, hbefore, rfl⟩ | ⟨rest, rfl, rfl⟩
    · -- The run would end before the line break.
      rcases List.eq_nil_or_concat rest with rfl | ⟨rest, c, rfl⟩
      · rw [List.append_nil] at hbefore
        rcases hnone with rfl | ⟨c, hc, hword⟩
        · exact h.rest.ne_nil rfl
        · have houtside := h.outside c (hbefore ▸ List.mem_append_left _ hc)
          rw [houtside] at hword
          cases hword
      · rw [List.concat_eq_append, ← List.append_assoc] at hbefore
        obtain ⟨-, hc⟩ := List.append_inj' hbefore rfl
        obtain rfl := (List.singleton_inj.mp hc).symm
        exact h.rest.one_line (by simp)
    · rcases hnone with hnil | ⟨c, hc, hword⟩
      · exact h.rest.ne_nil (List.append_eq_nil_iff.mp hnil).2
      · rw [h.outside c (by simp [hc])] at hword
        cases hword

theorem exists_isLed (h : ¬ IsNameless text) : ∃ lead body, IsLed text lead body := by
  obtain ⟨hne, hbreaks⟩ := not_or.mp h
  cases hcut : Text.cutLast? '\n' text with
  | none => exact ⟨[], text, rfl, by simp, hne, Text.cutLast?_eq_none.mp hcut⟩
  | some cut =>
    obtain ⟨before, after⟩ := cut
    obtain ⟨rfl, hafter⟩ := Text.cutLast?_eq_some.mp hcut
    have hlast : ¬ (after = [] ∨ ∃ c ∈ before, Text.isWord c = true) := fun hlast =>
      hbreaks ⟨before, after, rfl, hafter, hlast⟩
    obtain ⟨hrest, hbefore⟩ := not_or.mp hlast
    refine ⟨before ++ ['\n'], after, by simp, ?_, hrest, hafter⟩
    have hline : Text.isWord '\n' = false := by decide
    simpa [or_imp, forall_and, hline] using hbefore

/-! ## The whole text -/

theorem parse?_eq_some {text : String} : parse? text = some p ↔ Writes text.toList p := by
  unfold parse?
  constructor
  · intro h
    split at h
    · next digits body hsplit =>
      split at h
      · next hbody =>
        obtain ⟨name, assign, hspells, rfl⟩ := ofBody_eq_iff.mp (Option.some.inj h)
        exact .placed (isPlaced_iff.mpr ⟨hsplit, hbody⟩) hspells
      · next hbody =>
        obtain ⟨lead, rest, name, assign, hled, hspells, rfl⟩ := parseUnplaced?_eq_some.mp h
        refine .unplaced (fun other own hplaced => hbody ?_) hled hspells
        obtain ⟨hown, hrest⟩ := isPlaced_iff.mp hplaced
        cases hsplit.symm.trans hown
        exact hrest
    · next hsplit =>
      obtain ⟨lead, rest, name, assign, hled, hspells, rfl⟩ := parseUnplaced?_eq_some.mp h
      refine .unplaced (fun other own hplaced => ?_) hled hspells
      cases hsplit.symm.trans (isPlaced_iff.mp hplaced).1
  · rintro (⟨hplaced, hspells⟩ | ⟨hno, hled, hspells⟩)
    · obtain ⟨hsplit, hbody⟩ := isPlaced_iff.mp hplaced
      simp only [hsplit, hbody, if_true, Option.some.injEq]
      exact ofBody_eq_iff.mpr ⟨_, _, hspells, rfl⟩
    · have hunplaced := parseUnplaced?_eq_some.mpr ⟨_, _, _, _, hled, hspells, rfl⟩
      split
      · next digits body hsplit =>
        rw [if_neg fun hbody => hno _ _ (isPlaced_iff.mpr ⟨hsplit, hbody⟩), hunplaced]
      · exact hunplaced

theorem parse?_eq_none {text : String} : parse? text = none ↔ IsNameless text.toList := by
  constructor
  · intro h
    by_contra hnamed
    obtain ⟨lead, body, hled⟩ := exists_isLed hnamed
    have hunplaced : parseUnplaced? text.toList = none := by
      unfold parse? at h
      split at h
      · split at h
        · cases h
        · exact h
      · exact h
    exact parseUnplaced?_eq_none.mp hunplaced _ _ hled
  · intro h
    have hunplaced := parseUnplaced?_eq_none.mpr fun lead body hled => hled.not_isNameless h
    unfold parse?
    split
    · next digits body hsplit =>
      rw [if_neg fun hbody => (isPlaced_iff.mpr ⟨hsplit, hbody⟩).isLed.not_isNameless h, hunplaced]
    · exact hunplaced

/-- A text on one line writes a parameter name. -/
theorem parse?_isSome {text : String} (hne : text ≠ "") (hline : '\n' ∉ text.toList) :
    (parse? text).isSome := by
  rw [Option.isSome_iff_ne_none, ne_eq, parse?_eq_none]
  rintro (hempty | ⟨before, after, hbreak, -⟩)
  · exact hne (by simpa using hempty)
  · exact hline (by simp [hbreak])

theorem toList_leadOf (lead : List Char) : ((leadOf lead).getD "").toList = lead := by
  unfold leadOf
  split
  · next h => simp [h]
  · simp

/-- Nothing of the text is lost. -/
theorem Writes.text_eq (h : Writes text p) :
    ∃ place, WritesPosition p.position place ∧ text = place ++ p.unplacedText := by
  cases h with
  | placed place spells =>
    refine ⟨_, .digits place.decimal, ?_⟩
    rw [place.text_eq, spells.toList_eq]
    simp [unplacedText]
  | unplaced _ led spells =>
    refine ⟨[], .absent, ?_⟩
    rw [led.text_eq, spells.toList_eq, List.nil_append, unplacedText, toList_leadOf]

/-- A text writes a parameter name unless it is empty or a line break keeps a body from being left.
A position that a body follows is the position; otherwise the longest run outside words that
leaves a body is in front. An equals sign that ends the body is none of the name, if anything is
before it. Put together, the parts are the text. -/
theorem parse?_splits (text : String) :
    (parse? text = none ↔ IsNameless text.toList) ∧
    (∀ p, parse? text = some p ↔ Writes text.toList p) ∧
    ∀ p, parse? text = some p →
      ∃ place, WritesPosition p.position place ∧ text.toList = place ++ p.unplacedText :=
  ⟨parse?_eq_none, fun _ => parse?_eq_some, fun _ h => (parse?_eq_some.mp h).text_eq⟩

/-- A bracket is a position where a body follows. Before a line break it is part of the run, unless
a digit stands in it. -/
theorem parse?_splits_brackets :
    let placed : ParamName := { position := some (.place 12), name := "a=", assign := true }
    let led : ParamName := { lead := some "<>\n", name := "x" }
    parse? "<12>a==" = some placed ∧ Writes "<12>a==".toList placed ∧
    (∃ place, WritesPosition placed.position place ∧
      "<12>a==".toList = place ++ placed.unplacedText) ∧
    Writes "<>\nx".toList led ∧ IsNameless "<1>\nx".toList := by
  intro placed led
  have hplaced : parse? "<12>a==" = some placed := by decide
  have hled : parse? "<>\nx" = some led := by decide
  have hnone : parse? "<1>\nx" = none := by decide
  exact ⟨hplaced, ((parse?_splits _).2.1 _).mp hplaced, (parse?_splits _).2.2 _ hplaced,
    ((parse?_splits _).2.1 _).mp hled, (parse?_splits _).1.mp hnone⟩

end KeyExpansion.ParamName
