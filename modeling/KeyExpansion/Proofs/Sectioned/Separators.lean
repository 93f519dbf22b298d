-- SUMMARY: Cleaning keeps what is no separator and no token, and has to be done but once.
import KeyExpansion.Proofs.Sectioned.Dotted

/-! # Separators

Characters that stand in no separator and in no uuid token are never taken away. Where all
separators are single characters that stand in no token, a cleaned text is clean: reducing
the runs of one separator makes no run of another, and dropping separators at the end makes
none either. -/

namespace KeyExpansion

/-- Nothing, or one character that stands in no token. -/
def IsPlainSeparator (sep : List Char) : Prop :=
  sep = [] ∨ ∃ d, sep = [d] ∧ d ∉ tokenChars

namespace Scheme

/-- Words are separated by plain separators, and the last section goes on to the end. -/
structure IsPlain (scheme : Scheme) : Prop where
  separator : ∀ sec ∈ scheme.sections, IsPlainSeparator sec.separator
  last_stop : ∀ sec ∈ scheme.sections.getLast?, sec.stop = none

variable {scheme : Scheme} {text : List Char} {seps : List (List Char)} {sep : List Char} {d : Char}

theorem mem_insertOnce {x y : List Char} : x ∈ insertOnce y seps ↔ x = y ∨ x ∈ seps := by
  induction seps with
  | nil => simp [insertOnce]
  | cons z seps ih =>
    rw [insertOnce]
    split
    · next heq => simp [heq]
    · split
      · simp
      · simp only [List.mem_cons, ih]
        tauto

theorem mem_separators : sep ∈ scheme.separators ↔ ∃ sec ∈ scheme.sections, sec.separator = sep := by
  rw [separators, ← List.mem_map]
  induction scheme.sections.map Section.separator with
  | nil => simp
  | cons first seps ih => rw [List.foldr_cons, mem_insertOnce, ih, List.mem_cons]

theorem lastSeparator_eq_nil_or_mem (scheme : Scheme) :
    scheme.lastSeparator = [] ∨ ∃ sec ∈ scheme.sections, sec.separator = scheme.lastSeparator := by
  rw [lastSeparator]
  cases hlast : scheme.sections.getLast? with
  | none => exact .inl rfl
  | some sec => exact .inr ⟨sec, List.mem_of_getLast? hlast, rfl⟩

theorem IsPlain.plain_of_mem_separators (h : scheme.IsPlain) (hsep : sep ∈ scheme.separators) :
    IsPlainSeparator sep := by
  obtain ⟨sec, hsec, rfl⟩ := mem_separators.mp hsep
  exact h.separator sec hsec

theorem IsPlain.plain_lastSeparator (h : scheme.IsPlain) : IsPlainSeparator scheme.lastSeparator := by
  rcases scheme.lastSeparator_eq_nil_or_mem with hnil | ⟨sec, hsec, heq⟩
  · exact .inl hnil
  · exact heq ▸ h.separator sec hsec

/-! ## Runs -/

/-- The text with the runs of separators reduced, one separator after the other. -/
def collapse (seps : List (List Char)) (text : List Char) : List Char :=
  seps.foldl (fun text sep => Text.collapseRuns sep text) text

theorem collapse_cons (sep : List Char) (seps : List (List Char)) (text : List Char) :
    collapse (sep :: seps) text = collapse seps (Text.collapseRuns sep text) := rfl

theorem tidy_eq_stripTrailing (scheme : Scheme) (text : List Char) :
    scheme.tidy text = Text.stripTrailing scheme.lastSeparator (collapse scheme.separators text) :=
  rfl

/-- What holds of a text and is kept by reducing the runs of any of the separators. -/
theorem collapse_induction {motive : List Char → Prop}
    (step : ∀ sep ∈ seps, ∀ text, motive text → motive (Text.collapseRuns sep text))
    (h : motive text) : motive (collapse seps text) := by
  induction seps generalizing text with
  | nil => exact h
  | cons sep seps ih =>
    obtain ⟨hsep, hseps⟩ := List.forall_mem_cons.mp step
    rw [collapse_cons]
    exact ih hseps (hsep text h)

theorem no_run_collapseRuns (hsep : IsPlainSeparator sep) (h : ¬ [d, d, d] <:+: text) :
    ¬ [d, d, d] <:+: Text.collapseRuns sep text := by
  rcases hsep with rfl | ⟨e, rfl, -⟩
  · exact h
  · by_cases he : e = d
    · subst he
      exact Text.no_run_collapseFrom 0 text
    · intro hrun
      exact h (infix_of_infix_collapse (by simp) (by simp [he]) hrun)

/-- Reducing the runs of one separator makes no run of another. -/
theorem no_run_collapse (hseps : ∀ sep ∈ seps, IsPlainSeparator sep) (hd : [d] ∈ seps) :
    ¬ [d, d, d] <:+: collapse seps text := by
  induction seps generalizing text with
  | nil => cases hd
  | cons sep seps ih =>
    have hrest := (List.forall_mem_cons.mp hseps).2
    rw [collapse_cons]
    rcases List.mem_cons.mp hd with rfl | hd
    · have hfirst : ¬ [d, d, d] <:+: Text.collapseRuns [d] text := Text.no_run_collapseFrom 0 text
      exact collapse_induction (motive := fun text => ¬ [d, d, d] <:+: text)
        (fun sep hsep _ => no_run_collapseRuns (hrest sep hsep)) hfirst
    · exact ih hrest hd

theorem collapse_eq_self (hseps : ∀ sep ∈ seps, IsPlainSeparator sep)
    (h : ∀ d, [d] ∈ seps → ¬ [d, d, d] <:+: text) : collapse seps text = text := by
  refine collapse_induction (motive := (· = text)) ?_ rfl
  rintro sep hsep text rfl
  rcases hseps sep hsep with rfl | ⟨d, rfl, -⟩
  · rfl
  · exact Text.collapseFrom_eq_self (h d hsep)

/-! ## Tidy texts -/

/-- No run of three of any separator, and none of the last one at the end. -/
structure IsTidy (scheme : Scheme) (text : List Char) : Prop where
  no_run : ∀ d, [d] ∈ scheme.separators → ¬ [d, d, d] <:+: text
  no_end : ∀ d, scheme.lastSeparator = [d] → ¬ [d] <:+ text

variable {uuid : Option Uuid}

/-- What holds of a text, and of every text with a plain separator less at its end. -/
theorem stripTrailing_induction {motive : List Char → Prop} (hsep : IsPlainSeparator sep)
    (step : ∀ d ∉ tokenChars, ∀ text, motive (text ++ [d]) → motive text) (h : motive text) :
    motive (Text.stripTrailing sep text) := by
  rcases hsep with rfl | ⟨d, rfl, hd⟩
  · rwa [Text.stripTrailing_nil]
  · exact Text.stripTrailing_induction (step d hd) h

theorem IsPlain.isTidy_tidy (h : scheme.IsPlain) (text : List Char) :
    scheme.IsTidy (scheme.tidy text) where
  no_run d hd := by
    refine stripTrailing_induction (motive := fun text => ¬ [d, d, d] <:+: text)
      h.plain_lastSeparator ?_ (no_run_collapse (fun sep => h.plain_of_mem_separators) hd)
    intro e _ text hrun hinfix
    exact hrun ( hinfix.trans (List.prefix_append text [e]).isInfix)
  no_end d hd := by
    rw [tidy_eq_stripTrailing, hd]
    exact Text.not_suffix_stripTrailing _

theorem IsTidy.tidy_eq (h : scheme.IsTidy text) (hplain : scheme.IsPlain) : scheme.tidy text = text := by
  rw [tidy_eq_stripTrailing, collapse_eq_self (fun sep => hplain.plain_of_mem_separators) h.no_run]
  rcases hplain.plain_lastSeparator with hnil | ⟨d, hd, -⟩
  · rw [hnil, Text.stripTrailing_nil]
  · rw [hd, Text.stripTrailing_eq_self (h.no_end d hd)]

theorem IsPlain.isCanonical_tidy (h : scheme.IsPlain) (hcanonical : IsCanonical text uuid) :
    IsCanonical (scheme.tidy text) uuid := by
  refine stripTrailing_induction (motive := fun text => IsCanonical text uuid) h.plain_lastSeparator
    (fun d hd text => (isCanonical_concat hd).mp) ?_
  refine collapse_induction (motive := fun text => IsCanonical text uuid) ?_ hcanonical
  intro sep hsep text htext
  rcases h.plain_of_mem_separators hsep with rfl | ⟨d, rfl, hd⟩
  · exact htext
  · exact htext.collapse hd

end Scheme

/-! ## Characters that stay -/

/-- Writing the uuid canonically changes nothing but a token. -/
theorem Canonizes.filter_eq {fresh : Uuid} {text : List Char} {cleaned : Cleaned} {p : Char → Bool}
    (h : Canonizes fresh text cleaned) (hfresh : fresh.IsProper)
    (hp : ∀ c ∈ tokenChars, p c = false) : cleaned.text.filter p = text.filter p := by
  have htoken {token : List Char} (hsubset : token ⊆ tokenChars) : token.filter p = [] :=
    List.filter_eq_nil_iff.mpr fun c hc => by simp [hp c (hsubset hc)]
  cases h with
  | plain => rfl
  | @token before after value u _ read =>
    have hproper := proper_of_readTokenValue hfresh read
    have hwritten : u.token.filter p = [] := htoken (uuidToken_subset (hproper.readTokenValue_eq fresh))
    simp only [List.filter_append, hwritten, htoken (uuidToken_subset read)]

namespace Scheme

variable {scheme : Scheme} {sec : Section} {text : List Char} {fresh : Uuid} {cleaned : Cleaned} {c : Char}

/-- Does the character stand in no token and in no separator? -/
def isOwn (scheme : Scheme) (c : Char) : Bool :=
  !tokenChars.contains c && scheme.sections.all fun sec => !sec.separator.contains c

theorem isOwn_of_mem_tokenChars (h : c ∈ tokenChars) : scheme.isOwn c = false := by
  simp [isOwn, h]

theorem isOwn_of_mem_separator (hsec : sec ∈ scheme.sections) (h : c ∈ sec.separator) :
    scheme.isOwn c = false := by
  have hall : (scheme.sections.all fun sec => !sec.separator.contains c) = false := by
    simpa using ⟨sec, hsec, h⟩
  simp only [isOwn, hall, Bool.and_false]

theorem filter_tidy (scheme : Scheme) (text : List Char) :
    (scheme.tidy text).filter scheme.isOwn = text.filter scheme.isOwn := by
  have hlast : ∀ c ∈ scheme.lastSeparator, scheme.isOwn c = false := by
    rcases scheme.lastSeparator_eq_nil_or_mem with hnil | ⟨sec, hsec, heq⟩
    · simp [hnil]
    · exact heq ▸ fun c => isOwn_of_mem_separator hsec
  rw [tidy_eq_stripTrailing, Text.filter_stripTrailing hlast]
  refine collapse_induction
    (motive := fun collapsed => collapsed.filter scheme.isOwn = text.filter scheme.isOwn) ?_ rfl
  intro sep hsep collapsed h
  obtain ⟨sec, hsec, rfl⟩ := mem_separators.mp hsep
  rw [Text.filter_collapseRuns fun c => isOwn_of_mem_separator hsec, h]

theorem suffix_withLead (scheme : Scheme) (text : List Char) : text <:+ scheme.withLead text := by
  rw [withLead]
  split
  · split
    · exact List.suffix_rfl
    · exact List.suffix_append _ text
  · exact List.suffix_rfl

/-- Cleaning takes nothing away but separators and what a token is written with. -/
theorem countP_le_of_clean (hfresh : fresh.IsProper) (h : scheme.clean fresh text = .ok cleaned) :
    text.countP scheme.isOwn ≤ cleaned.text.countP scheme.isOwn := by
  obtain ⟨canonized, hcanon, rfl⟩ := clean_eq_ok h
  have hfilter : (scheme.tidy canonized.text).filter scheme.isOwn
      = (scheme.withLead text).filter scheme.isOwn := by
    rw [filter_tidy]
    exact hcanon.filter_eq hfresh fun c => isOwn_of_mem_tokenChars
  rw [List.countP_eq_length_filter, List.countP_eq_length_filter, hfilter]
  exact ((scheme.suffix_withLead text).sublist.filter _).length_le

end Scheme

namespace Sectioned

variable {scheme : Scheme} {fresh : Uuid} {text : List Char} {s : Sectioned scheme}

/-- With plain separators a parsed text that has its markers reads as itself. -/
theorem parse_text_of_hasMarkers (hplain : scheme.IsPlain) (hfresh : fresh.IsProper)
    (h : parse scheme fresh text = .ok s) (hmarkers : scheme.HasMarkers s.text) (fresh' : Uuid) :
    parse scheme fresh' s.text = .ok s := by
  obtain ⟨uuid, hclean, -⟩ := parse_eq_ok h
  obtain ⟨canonized, hcanon, heq⟩ := Scheme.clean_eq_ok hclean
  obtain ⟨htext, rfl⟩ : s.text = scheme.tidy canonized.text ∧ uuid = canonized.uuid := by
    simpa using heq
  have htidy : scheme.IsTidy s.text := htext ▸ hplain.isTidy_tidy canonized.text
  have hcanonical : IsCanonical s.text canonized.uuid :=
    htext ▸ hplain.isCanonical_tidy (hcanon.isCanonical hfresh)
  have hagain := Scheme.clean_of_canonizes hmarkers (hcanonical.canonizes fresh')
  rw [htidy.tidy_eq hplain] at hagain
  rw [← h]
  exact parse_congr (hagain.trans hclean.symm)

end Sectioned

end KeyExpansion
