-- SUMMARY: Texts and numbers are written so that they are read back.
import KeyExpansion.Proofs.Decimal.Whole
import KeyExpansion.Proofs.Yaml.Block
import KeyExpansion.Proofs.Yaml.Lines

/-! # Written scalars

A text is written plain only if that is read as the same text, and single quotes only hold
what they keep. Numbers hold no mark, so that they are plain wherever they stand. -/

namespace KeyExpansion.Yaml

variable {cs : List Char} {next : Char}

/-! ## Texts -/

theorem hasPair_of_left {first second : Char → Bool} (h : ∀ c ∈ cs.dropLast, first c = false) :
    hasPair first second cs = false := by
  induction cs with
  | nil => rfl
  | cons c cs ih =>
    cases cs with
    | nil => rfl
    | cons d cs =>
      obtain ⟨hc, hcs⟩ := List.forall_mem_cons.mp h
      rw [hasPair, hc, ih hcs]
      rfl

theorem endsWord_of_isSpace {c : Char} (h : isSpace c = true) : endsWord (some c) = true := by
  simp only [isSpace, isBlank, isBreak, Bool.or_eq_true, beq_iff_eq] at h
  rcases h with (rfl | rfl) | (rfl | rfl) | rfl <;> rfl

theorem hasPair_cons {first second : Char → Bool} (c : Char) (cs : List Char) (next : Char) :
    hasPair first second (c :: cs ++ [next])
      = (first c && second (cs.headD next) || hasPair first second (cs ++ [next])) := by
  cases cs with
  | nil => simp [hasPair]
  | cons d cs => rfl

/-- What does not end a word is not the end, nor white space. -/
theorem isSpace_headD (h : endsWord cs.head? = false) : isSpace (cs.headD next) = false := by
  cases cs with
  | nil => cases h
  | cons c cs =>
    rw [List.headD_cons, ← Bool.not_eq_true]
    intro hspace
    rw [List.head?_cons, endsWord_of_isSpace hspace] at h
    cases h

/-- A colon that is no mark has no white space behind it, nor does it stand last. -/
theorem isSpace_of_colon {c : Char} (h : (c == ':' && endsWord cs.head?) = false) :
    (c == ':' && isSpace (cs.headD next)) = false := by
  rw [Bool.and_eq_false_imp] at h ⊢
  exact fun hc => isSpace_headD (h hc)

theorem hasPair_colon {before : Option Char} (h : hasInnerMark before cs = false) :
    hasPair (· == ':') isSpace (cs ++ [next]) = false := by
  induction cs generalizing before with
  | nil => rfl
  | cons c cs ih =>
    simp only [hasInnerMark, Bool.or_eq_false_iff] at h
    rw [hasPair_cons, isSpace_of_colon h.1.1, ih h.2]
    rfl

theorem hasPair_comment {c : Char} (h : hasInnerMark (some c) cs = false) :
    hasPair isBlank (· == '#') (c :: cs) = false := by
  induction cs generalizing c with
  | nil => rfl
  | cons d cs ih =>
    simp only [hasInnerMark, Bool.or_eq_false_iff] at h
    have hblank : (isBlank c && d == '#') = false := by
      rw [Bool.and_eq_false_imp]
      intro hblank
      have hword := endsWord_of_isSpace (c := c) (by simp [isSpace, hblank])
      simpa [hword] using h.1.2
    rw [hasPair, hblank, ih h.2]
    rfl

/-- A text that may be written without quotes is one plain scalar. -/
theorem isPlain_of_allowsPlain (hne : cs ≠ []) (h : allowsPlain cs = true) :
    isPlain next cs = true := by
  obtain ⟨c, cs, rfl⟩ := List.exists_cons_of_ne_nil hne
  simp only [allowsPlain, hasMark, Bool.and_eq_true, Bool.not_eq_true', Bool.or_eq_false_iff,
    List.all_eq_true, List.any_eq_false, bne_iff_ne, List.head?_cons, Bool.not_eq_true] at h
  obtain ⟨⟨⟨⟨hprint, hline⟩, hfirst⟩, hlast⟩, ⟨⟨⟨-, -⟩, hlead⟩, hmark⟩, hinner⟩ := h
  have hblank {d : Char} (hd : d ∈ c :: cs) (hspace : d ≠ ' ') : isBlank d = false := by
    rw [← Bool.not_eq_true]
    exact fun hblank => hspace (isBlank_of_printable (hprint d hd) hblank)
  refine isPlain_iff.mpr ⟨?_, hline, ?_, ?_, hasPair_comment hinner⟩
  · have hspace : isSpace c = false := by
      rw [isSpace, hblank List.mem_cons_self (by simpa using hfirst),
        isBreak_of_isLineBreak (hline c List.mem_cons_self)]
      rfl
    rw [opensPlain, hspace]
    by_cases hmarked : ['-', '?', ':'].contains c = true
    · have hword : endsWord cs.head? = false := by
        rw [Bool.and_eq_false_imp] at hmark
        apply hmark
        simp only [List.contains_cons, List.contains_nil, Bool.or_false] at hmarked
        rw [← hmarked]
        ac_rfl
      rw [isSpace_headD hword, hmarked]
      simp
    · have hindicator : Lexer.indicators.contains c = false := by
        simp [Lexer.indicators, leadingMarks] at hlead hmarked ⊢
        simp [hlead, hmarked]
      rw [hindicator]
      rfl
  · intro d hd
    exact hblank (List.mem_of_getLast? hd) (by rintro rfl; exact hlast hd)
  · have hcolon : (c == ':' && endsWord cs.head?) = false := by
      rw [Bool.and_eq_false_imp] at hmark ⊢
      exact fun hc => hmark (by simp [hc])
    rw [hasPair_cons, hasPair_colon hinner, isSpace_of_colon hcolon]
    rfl

theorem staysSingle_of_allowsSingle (hfeed : '\n' ∉ cs) (h : allowsSingle cs = true) :
    StaysSingle cs := by
  simp only [allowsSingle, Bool.and_eq_true, Bool.not_eq_true', List.all_eq_true] at h
  exact ⟨fun c hc => ⟨h.1.1 c hc, fun heq => hfeed (heq ▸ hc)⟩, h.1.2, h.2⟩

/-- A plain scalar that is read as a text is read as itself. -/
theorem ofPlain_eq_str {s : String} (h : Node.ofPlain cs = some (.str s)) : s = String.ofList cs := by
  have hfloat (h : (((readFloat? cs).map Node.float).getD (.str (String.ofList cs))) = .str s) :
      s = String.ofList cs := by
    cases hread : readFloat? cs with
    | none =>
      rw [hread] at h
      exact (Node.str.inj h).symm
    | some x =>
      rw [hread] at h
      cases h
  rw [Node.ofPlain] at h
  split at h
  · cases h
  · split at h
    · cases h
    · rw [Node.ofInt] at h
      split at h
      · cases h
      · split at h
        · cases h
        · exact hfloat (Option.some.inj h)
    · split at h
      · exact (Node.str.inj (Option.some.inj h)).symm
      · exact hfloat (Option.some.inj h)

theorem ofPlain_of_not_isAmbiguous (h : isAmbiguous cs = false) :
    Node.ofPlain cs = some (.str (String.ofList cs)) := by
  rw [isAmbiguous, Bool.or_eq_false_iff] at h
  have hstr := h.2
  split at hstr
  · next s hs => rw [hs, ofPlain_eq_str hs]
  · cases hstr

theorem linesOf_ne_nil (cs : List Char) : linesOf cs ≠ [] := by
  cases cs with
  | nil => simp [linesOf]
  | cons c cs =>
    rw [linesOf]
    split
    · split <;> simp
    · simp

/-- A literal block has several lines. -/
theorem feed_mem_literal (indent : Nat) (cs : List Char) : '\n' ∈ (literal indent cs).toList := by
  obtain ⟨line, lines, hlines⟩ := List.exists_cons_of_ne_nil
    (linesOf_ne_nil (if cs.getLast? == some '\n' then cs.dropLast else cs))
  simp only [literal, hlines, String.toList_append, List.mem_append, List.map_cons, String.join_cons]
  refine .inr (.inl ?_)
  split <;> simp

/-- The forms of a text on one line. -/
inductive IsWritten (s : String) : String → Prop where
  | plain (isPlain : ∀ next, isPlain next s.toList = true)
      (ofPlain : Node.ofPlain s.toList = some (.str s))
      (printable : ∀ c ∈ s.toList, isPrintable c = true) : IsWritten s s
  | single (stays : StaysSingle s.toList) : IsWritten s (singleQuoted s.toList)
  | double : IsWritten s (doubleQuoted s.toList)

theorem writeText_cases (indent : Nat) (isKey : Bool) (s : String) :
    isKey = false ∧ allowsLiteral s.toList = true ∧ writeText indent isKey s = literal indent s.toList ∨
      IsWritten s (writeText indent isKey s) := by
  rw [writeText]
  generalize hcs : s.toList = cs
  by_cases hfeed : cs.contains '\n' = true
  · rw [if_pos hfeed]
    by_cases hliteral : allowsLiteral cs && !isKey
    · rw [if_pos hliteral]
      rw [Bool.and_eq_true, Bool.not_eq_true'] at hliteral
      exact .inl ⟨hliteral.2, hliteral.1, rfl⟩
    · rw [if_neg hliteral, ← hcs]
      exact .inr .double
  · rw [if_neg hfeed]
    refine .inr ?_
    by_cases hplain : !isAmbiguous cs && allowsPlain cs
    · rw [if_pos hplain]
      rw [Bool.and_eq_true, Bool.not_eq_true'] at hplain
      have hne : cs ≠ [] := by
        intro hempty
        rw [hempty] at hplain
        exact absurd hplain.1 (by decide)
      have hread := ofPlain_of_not_isAmbiguous hplain.1
      rw [← hcs, String.ofList_toList] at hread
      refine .plain (fun _ => hcs ▸ isPlain_of_allowsPlain hne hplain.2) hread ?_
      simp only [allowsPlain, Bool.and_eq_true, List.all_eq_true] at hplain
      exact hcs ▸ hplain.2.1.1.1.1
    · rw [if_neg hplain]
      by_cases hsingle : allowsSingle cs = true
      · rw [if_pos hsingle]
        have hstays := staysSingle_of_allowsSingle (by simpa using hfeed) hsingle
        rw [← hcs] at hstays ⊢
        exact .single hstays
      · rw [if_neg hsingle, ← hcs]
        exact .double

/-! ## Numbers -/

/-- A visible character that is no mark behind another. -/
def isSolid (c : Char) : Bool :=
  0x20 < c.toNat && c.toNat ≤ 0x7e && c != ':' && c != '#'

variable {c : Char}

theorem isSolid_iff : isSolid c = true ↔ 0x20 < c.toNat ∧ c.toNat ≤ 0x7e ∧ c ≠ ':' ∧ c ≠ '#' := by
  simp [isSolid, and_assoc]

theorem isPrintable_of_isSolid (h : isSolid c = true) : isPrintable c = true := by
  obtain ⟨hlow, hhigh, -⟩ := isSolid_iff.mp h
  simp [isPrintable, Nat.le_of_lt hlow, hhigh]

/-- A solid character is none that is not visible. -/
theorem ne_of_isSolid {d : Char} (h : isSolid c = true) (hd : d.toNat ≤ 0x20 ∨ 0x7e < d.toNat) :
    c ≠ d := by
  rintro rfl
  obtain ⟨hlow, hhigh, -⟩ := isSolid_iff.mp h
  omega

theorem isBlank_of_isSolid (h : isSolid c = true) : isBlank c = false := by
  simp [isBlank, ne_of_isSolid h]

theorem isLineBreak_of_isSolid (h : isSolid c = true) : isLineBreak c = false := by
  simp [isLineBreak, endsWord.isBreakChar, ne_of_isSolid h]

theorem isPlain_of_solid (hsolid : ∀ d ∈ c :: cs, isSolid d = true)
    (hfirst : Lexer.indicators.contains c = false ∨ c = '-' ∧ cs ≠ []) :
    isPlain next (c :: cs) = true := by
  have hspace {d : Char} (hd : d ∈ c :: cs) : isSpace d = false := by
    rw [isSpace, isBlank_of_isSolid (hsolid d hd),
      isBreak_of_isLineBreak (isLineBreak_of_isSolid (hsolid d hd))]
    rfl
  refine isPlain_iff.mpr ⟨?_, ?_⟩
  · rw [opensPlain, hspace List.mem_cons_self]
    rcases hfirst with hfirst | ⟨rfl, hne⟩
    · rw [hfirst]
      rfl
    · obtain ⟨d, cs, rfl⟩ := List.exists_cons_of_ne_nil hne
      rw [List.headD_cons, hspace (by simp)]
      simp
  · refine ⟨fun d hd => isLineBreak_of_isSolid (hsolid d hd),
      fun d hd => isBlank_of_isSolid (hsolid d (List.mem_of_getLast? hd)),
      hasPair_of_left fun d hd => ?_,
      hasPair_of_left fun d hd => isBlank_of_isSolid (hsolid d (List.dropLast_subset _ hd))⟩
    rw [List.dropLast_concat] at hd
    simpa using (isSolid_iff.mp (hsolid d hd)).2.2.1

theorem isSolid_of_isDigit (h : c.isDigit = true) : isSolid c = true := by
  have hother {d : Char} (hd : d.isDigit = false) : c ≠ d := by
    rintro rfl
    exact absurd (h.symm.trans hd) (by simp)
  obtain ⟨hlow, hhigh⟩ : 0x30 ≤ c.toNat ∧ c.toNat ≤ 0x39 := Char.isDigit_iff_toNat.mp h
  exact isSolid_iff.mpr ⟨by omega, by omega, hother rfl, hother rfl⟩

theorem not_indicator_of_isDigit (h : c.isDigit = true) :
    Lexer.indicators.contains c = false := by
  have hother {d : Char} (hd : d.isDigit = false) : c ≠ d := by
    rintro rfl
    exact absurd (h.symm.trans hd) (by simp)
  simp [Lexer.indicators, hother]

/-- A whole number is a sign and digits. -/
theorem exists_sign (i : Int) : ∃ negative n,
    Decimal.takeSign (toString i).toList = (negative, Nat.toDigits 10 n) ∧
      Decimal.withSign negative n = i := by
  by_cases h : 0 ≤ i
  · refine ⟨false, i.toNat, ?_, Int.toNat_of_nonneg h⟩
    rw [Decimal.toList_of_nonneg h]
    exact Decimal.takeSign_of_digits fun c hc => Decimal.isDigit_of_mem_toDigits hc
  · refine ⟨true, (-i).toNat, ?_, ?_⟩
    · rw [Decimal.toList_of_neg (by omega)]
      rfl
    · simp only [Decimal.withSign, if_true]
      omega

theorem isPaddedNumber_toString (i : Int) : isPaddedNumber (toString i).toList = false := by
  obtain ⟨negative, n, hsign, -⟩ := exists_sign i
  rw [isPaddedNumber, hsign]
  by_cases hn : n = 0
  · subst hn
    rfl
  · have hhead := Decimal.head?_toDigits_ne hn
    simp [hhead]

theorem readInt?_toString (i : Int) : readInt? (toString i).toList = some i := by
  obtain ⟨negative, n, hsign, hvalue⟩ := exists_sign i
  have hother {d : Char} (hd : d.isDigit = false) : d ∉ Nat.toDigits 10 n := by
    intro hmem
    rw [Decimal.isDigit_of_mem_toDigits hmem] at hd
    cases hd
  simp only [readInt?, hsign]
  split
  · next hdigits => exact absurd (hdigits ▸ by simp) (hother (d := 'x') rfl)
  · next hdigits => exact absurd (hdigits ▸ by simp) (hother (d := 'o') rfl)
  · next hdigits => exact absurd (hdigits ▸ by simp) (hother (d := 'b') rfl)
  · rw [isPaddedNumber_toString, Decimal.readNat?_toDigits]
    simp [hvalue]

/-- A word with a character that no number has is no number. -/
theorem toString_ne_word {i : Int} {word : String}
    (h : word.toList.any (fun c => !c.isDigit && c != '-') = true) :
    String.ofList (toString i).toList ≠ word := by
  rintro rfl
  obtain ⟨c, hc, hother⟩ := List.any_eq_true.mp h
  rw [String.toList_ofList] at hc
  rcases Decimal.mem_toList hc with hdigit | rfl
  · simp [hdigit] at hother
  · simp at hother

theorem not_isNullWord_toString (i : Int) : isNullWord (toString i).toList = false := by
  have hne {word : String} (h : word.toList.any (fun c => !c.isDigit && c != '-') = true) :=
    toString_ne_word (i := i) h
  simp only [isNullWord, List.contains_cons, List.contains_nil, Bool.or_false, Bool.or_eq_false_iff,
    beq_eq_false_iff_ne]
  exact ⟨hne (by decide), hne (by decide), hne (by decide), hne (by decide)⟩

theorem readBool?_toString (i : Int) : readBool? (toString i).toList = none := by
  have hne {word : String} (h : word.toList.any (fun c => !c.isDigit && c != '-') = true) :=
    toString_ne_word (i := i) h
  rw [readBool?, if_neg, if_neg]
  · simp only [List.contains_cons, List.contains_nil, Bool.or_false, Bool.or_eq_true, beq_iff_eq, not_or]
    exact ⟨hne (by decide), hne (by decide), hne (by decide)⟩
  · simp only [List.contains_cons, List.contains_nil, Bool.or_false, Bool.or_eq_true, beq_iff_eq, not_or]
    exact ⟨hne (by decide), hne (by decide), hne (by decide)⟩

/-- A number of 64 bits is read back. -/
theorem ofPlain_toString (i : Int64) : Node.ofPlain (toString i.toInt).toList = some (.int i.toInt) := by
  have hne : (toString i.toInt).toList.isEmpty = false := by
    simpa using Decimal.toList_ne_nil i.toInt
  have hsigned : Decimal.isSigned 64 i.toInt = true := by
    simp only [Decimal.isSigned, Bool.and_eq_true, decide_eq_true_eq]
    exact ⟨i.le_toInt, i.toInt_lt⟩
  rw [Node.ofPlain, hne, not_isNullWord_toString, readBool?_toString, readInt?_toString]
  simp [Node.ofInt, hsigned]

/-- A number is one plain scalar. -/
theorem isPlain_toString (i : Int) : isPlain next (toString i).toList = true := by
  by_cases h : 0 ≤ i
  · rw [Decimal.toList_of_nonneg h]
    obtain ⟨c, digits, hdigits⟩ := List.exists_cons_of_ne_nil (@Nat.toDigits_ne_nil i.toNat 10)
    have hdigit : ∀ d ∈ c :: digits, d.isDigit = true := by
      rw [← hdigits]
      exact fun d hd => Decimal.isDigit_of_mem_toDigits hd
    rw [hdigits]
    exact isPlain_of_solid (fun d hd => isSolid_of_isDigit (hdigit d hd))
      (.inl (not_indicator_of_isDigit (hdigit c List.mem_cons_self)))
  · rw [Decimal.toList_of_neg (by omega)]
    refine isPlain_of_solid ?_ (.inr ⟨rfl, Nat.toDigits_ne_nil⟩)
    refine List.forall_mem_cons.mpr ⟨by decide, fun c hc => isSolid_of_isDigit ?_⟩
    exact Decimal.isDigit_of_mem_toDigits hc

/-! ## Floats -/

/-- The text starts with a digit and has no mark in it. -/
structure IsNumeral (s : String) : Prop where
  first : ∃ c cs, s.toList = c :: cs ∧ c.isDigit = true
  solid : ∀ c ∈ s.toList, isSolid c = true

theorem IsNumeral.append {s more : String} (h : IsNumeral s)
    (hmore : ∀ c ∈ more.toList, isSolid c = true) : IsNumeral (s ++ more) := by
  obtain ⟨⟨c, cs, hs, hdigit⟩, hsolid⟩ := h
  refine ⟨⟨c, cs ++ more.toList, ?_, hdigit⟩, ?_⟩
  · rw [String.toList_append, hs, List.cons_append]
  · rw [String.toList_append]
    exact List.forall_mem_append.mpr ⟨hsolid, hmore⟩

theorem isNumeral_of_digits {s : String} (hne : s.toList ≠ [])
    (h : ∀ c ∈ s.toList, c.isDigit = true) : IsNumeral s := by
  obtain ⟨c, cs, hs⟩ := List.exists_cons_of_ne_nil hne
  exact ⟨⟨c, cs, hs, h c (hs ▸ List.mem_cons_self)⟩, fun c hc => isSolid_of_isDigit (h c hc)⟩

/-- A point stands behind a digit. -/
theorem isNumeral_withPoint {digits : String} (hne : digits.toList ≠ [])
    (h : ∀ c ∈ digits.toList, c.isDigit = true) (places : Nat) :
    IsNumeral (Decimal.withPoint digits places) := by
  rw [Decimal.withPoint]
  split
  · exact isNumeral_of_digits hne h
  · extract_lets padded whole part
    have hpadded : ∀ c ∈ padded.toList, c.isDigit = true := by
      intro c hc
      rw [String.toList_append, Decimal.zeros, String.toList_ofList, List.mem_append] at hc
      rcases hc with hc | hc
      · rw [List.eq_of_mem_replicate hc]
        rfl
      · exact h c hc
    have hlength : places < padded.length := by
      simp only [padded, Decimal.zeros, String.length_append, String.length_ofList,
        List.length_replicate]
      omega
    have hwhole : (String.ofList whole).toList ≠ [] := by
      rw [String.toList_ofList, ← List.length_pos_iff, List.length_take, String.length_toList]
      omega
    have hdigits : ∀ c ∈ (String.ofList whole).toList, c.isDigit = true := by
      intro c hc
      rw [String.toList_ofList] at hc
      exact hpadded c (List.mem_of_mem_take hc)
    refine ((isNumeral_of_digits hwhole hdigits).append (List.all_eq_true.mp rfl)).append ?_
    intro c hc
    rw [String.toList_ofList] at hc
    exact isSolid_of_isDigit (hpadded c (List.mem_of_mem_drop hc))

theorem isDigit_of_mem_toString {n : Nat} : ∀ c ∈ (toString n).toList, c.isDigit = true := by
  intro c hc
  rw [Nat.toString_eq_ofList_toDigits, String.toList_ofList] at hc
  exact Decimal.isDigit_of_mem_toDigits hc

theorem toString_ne_nil (n : Nat) : (toString n).toList ≠ [] := by
  rw [Nat.toString_eq_ofList_toDigits, String.toList_ofList]
  exact Nat.toDigits_ne_nil

theorem isSolid_of_mem_toString {i : Int} : ∀ c ∈ (toString i).toList, isSolid c = true := by
  intro c hc
  rcases Decimal.mem_toList hc with hdigit | rfl
  · exact isSolid_of_isDigit hdigit
  · decide

theorem isNumeral_positional (s : Decimal.Scientific) : IsNumeral s.positional := by
  rw [Decimal.Scientific.positional]
  apply isNumeral_withPoint
  · rw [String.toList_append]
    exact List.append_ne_nil_of_left_ne_nil (toString_ne_nil s.digits) _
  · rw [String.toList_append, Decimal.zeros, String.toList_ofList]
    refine List.forall_mem_append.mpr ⟨isDigit_of_mem_toString, fun c hc => ?_⟩
    rw [List.eq_of_mem_replicate hc]
    rfl

theorem isNumeral_withExponent (s : Decimal.Scientific) : IsNumeral s.withExponent := by
  have hpoint := isNumeral_withPoint (toString_ne_nil s.digits) isDigit_of_mem_toString
    ((toString s.digits).length - 1)
  exact (hpoint.append (List.all_eq_true.mp rfl)).append isSolid_of_mem_toString

theorem isNumeral_scientific (b : Decimal.Binary) : IsNumeral b.scientific := by
  rw [Decimal.Binary.scientific]
  split
  · exact ⟨⟨'0', ['.', '0'], rfl, rfl⟩, List.all_eq_true.mp rfl⟩
  · extract_lets s point
    split
    · exact (isNumeral_positional s).append (List.all_eq_true.mp rfl)
    · split
      · exact isNumeral_positional s
      · exact isNumeral_withExponent s

/-- A text of visible characters that is plain, and does not start like the bounds of a document. -/
structure IsUnmarked (cs : List Char) : Prop where
  solid : ∀ c ∈ cs, isSolid c = true
  isPlain : ∀ next, isPlain next cs = true
  notMark : ∀ rest, atDocumentMark (place 0 0 0 (cs ++ rest)) = false

theorem IsNumeral.isUnmarked_signed {s : String} (h : IsNumeral s) (negative : Bool) :
    IsUnmarked (Decimal.signed negative s).toList := by
  obtain ⟨⟨c, cs, hs, hdigit⟩, hsolid⟩ := h
  rw [hs] at hsolid
  have hother {d : Char} (hd : d.isDigit = false) : c ≠ d := by
    rintro rfl
    exact absurd (hdigit.symm.trans hd) (by simp)
  have hbreak : isBreak c = false := by simp [isBreak, hother]
  cases negative with
  | false =>
    rw [Decimal.signed, if_neg (by simp), hs]
    refine ⟨hsolid, fun next => isPlain_of_solid hsolid (.inl (not_indicator_of_isDigit hdigit)), ?_⟩
    intro rest
    rw [List.cons_append, place_cons hbreak]
    exact atDocumentMark_of_char (hother rfl) (hother rfl)
  | true =>
    rw [Decimal.signed, if_pos rfl, String.toList_append, hs]
    have hall : ∀ d ∈ '-' :: c :: cs, isSolid d = true := List.forall_mem_cons.mpr ⟨by decide, hsolid⟩
    refine ⟨hall, fun next => isPlain_of_solid hall (.inr ⟨rfl, List.cons_ne_nil c cs⟩), ?_⟩
    intro rest
    show atDocumentMark (place 0 0 0 ('-' :: c :: (cs ++ rest))) = false
    rw [place_cons rfl, place_cons hbreak]
    generalize place 0 2 2 (cs ++ rest) = gs
    cases gs <;> simp [atDocumentMark, atMarker, hother]

/-- A float is one plain scalar. -/
theorem isUnmarked_floatText (x : Float) : IsUnmarked (Node.floatText x).toList := by
  rw [Node.floatText]
  split
  · have hsolid : ∀ c ∈ ".nan".toList, isSolid c = true := List.all_eq_true.mp rfl
    exact ⟨hsolid, fun next => isPlain_of_solid hsolid (.inl (by decide)), fun rest => rfl⟩
  · next negative _ =>
    cases negative with
    | false =>
      have hsolid : ∀ c ∈ ".inf".toList, isSolid c = true := List.all_eq_true.mp rfl
      exact ⟨hsolid, fun next => isPlain_of_solid hsolid (.inl (by decide)), fun rest => rfl⟩
    | true =>
      have hsolid : ∀ c ∈ "-.inf".toList, isSolid c = true := List.all_eq_true.mp rfl
      exact ⟨hsolid, fun next => isPlain_of_solid hsolid (.inr ⟨rfl, by decide⟩), fun rest => rfl⟩
  · exact (isNumeral_scientific _).isUnmarked_signed _

/-- A plain text at the start is read with the line end behind it, and nothing is left. -/
theorem readPlain_alone {cs : List Char} (hne : cs ≠ []) (h : StaysPlain '\n' cs)
    (hmark : atDocumentMark (place 0 0 0 (cs ++ ['\n'])) = false) :
    readPlain false 0 [] .empty (place 0 0 0 (cs ++ ['\n'])) = some ⟨cs, [], true⟩ := by
  rw [readPlain_append hne h rfl (fun h => absurd rfl h) hmark, place_break rfl, readPlain]
  simp [readPlain, place, isBreak, Gap.addBreak, Gap.hasBreak]

/-- A plain text and its line end make one scalar, in front of which a key may start. -/
theorem goes_alone {cs : List Char} (h : isPlain '\n' cs = true)
    (hmark : atDocumentMark (place 0 0 0 (cs ++ ['\n'])) = false) :
    Lexer.Goes { rest := place 0 0 0 (cs ++ ['\n']) }
      (· = ⟨[], -1, [], [some ⟨false, 0, 0, 0, 0⟩], true, [.scalar cs true]⟩) := by
  obtain ⟨hstarts, hstays⟩ := isPlain_iff.mp h
  cases cs with
  | nil => cases hstarts
  | cons c cs =>
    have hbreak := isBreak_of_isLineBreak (hstays.line c List.mem_cons_self)
    have hread := readPlain_alone (List.cons_ne_nil c cs) hstays hmark
    rw [List.cons_append] at hread hmark ⊢
    rw [place_cons hbreak] at hmark
    apply Lexer.goes_step (skip_goesOn (goesOn_of_opensPlain hstarts Int.zero_lt_one))
      (place_cons hbreak)
    · rw [Lexer.step_eq (by simp) (by simp),
        Lexer.token_plain rfl (starts_of_opensPlain hstarts) hmark, Lexer.scalar,
        Lexer.noteKey_allowed, ← place_cons hbreak]
      simp only [Int.reduceNeg, Int.reduceAdd, hread]
      rfl
    · simp [length_place]

/-- A plain text and its line end are one token. -/
theorem tokens?_plain {text : String} {result : List Token} (h : IsUnmarked text.toList)
    (hresult : tokens? (text ++ "\n") = some result) : result = [.scalar text.toList true] := by
  have hgoes := goes_alone (h.isPlain '\n') (h.notMark ['\n'])
  have htext : (text ++ "\n").toList = text.toList ++ ['\n'] := String.toList_append
  rw [← htext] at hgoes
  have hne {d : Char} (hd : d.toNat ≤ 0x20 ∨ 0x7e < d.toNat) : ∀ e ∈ text.toList, e ≠ d :=
    fun e he => ne_of_isSolid (h.solid e he) hd
  have hmark : (text ++ "\n").toList.head? ≠ some '\ufeff' := by
    rw [htext]
    intro hhead
    rcases List.mem_append.mp (List.mem_of_mem_head? hhead) with hmem | hmem
    · exact hne (by decide) _ hmem rfl
    · exact absurd hmem (by decide)
  have hunified : IsUnified (text ++ "\n").toList := by
    rw [htext]
    exact IsUnified.append (fun e he => ⟨hne (by decide) e he, hne (by decide) e he⟩)
      (by simp [IsUnified])
  obtain ⟨_, rfl, hreads⟩ := hgoes.of_tokens? hmark hunified hresult
  obtain ⟨l, hl, rfl⟩ := hreads (some { rest := [], tokens := [.scalar text.toList true] }) <| by
    intro count hcount
    obtain ⟨count, rfl⟩ := Nat.exists_eq_succ_of_ne_zero (Nat.ne_zero_of_lt hcount)
    rfl
  obtain rfl := Option.some.inj hl
  rfl

/-- A float that is read back from a text of its own is read back from its digits. -/
theorem ofPlain_floatText {x : Float} (h : read? (write (.float x)) = some (.float x)) :
    Node.ofPlain (Node.floatText x).toList = some (.float x) := by
  have hread : read? (Node.floatText x ++ "\n") = some (.float x) := h
  rw [read?] at h
  obtain ⟨tokens, htokens, -⟩ := Option.bind_eq_some_iff.mp hread
  obtain rfl := tokens?_plain (isUnmarked_floatText x) htokens
  rw [← hread, Parse.read?_eq htokens (by simp) Parse.takes_scalar]
  rfl

end KeyExpansion.Yaml
