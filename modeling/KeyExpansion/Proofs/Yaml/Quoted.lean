-- SUMMARY: Texts between quotes are read back.
import KeyExpansion.Proofs.Yaml.Plain
import Mathlib.Algebra.Group.Nat.Defs
import Mathlib.Data.Nat.Init

/-! # Quoted scalars

A text between double quotes is read back, whatever it holds. Between single quotes line ends
other than line feeds stand as they are, so that a line that starts like the bounds of a
document makes the text unreadable; otherwise it is read back too. -/

namespace KeyExpansion.Yaml

variable {line column index : Nat} {cs rest text : List Char} {gap : Gap}

/-! ## Hexadecimal digits -/

/-- The number that hexadecimal digits write behind others. -/
def hexFrom? (value : Nat) : List Char → Option Nat
  | [] => some value
  | c :: cs => (Decimal.digitValue? 16 c).bind fun digit => hexFrom? (value * 16 + digit) cs

theorem hexFrom?_append (value : Nat) (cs rest : List Char) :
    hexFrom? value (cs ++ rest) = (hexFrom? value cs).bind (hexFrom? · rest) := by
  induction cs generalizing value with
  | nil => rfl
  | cons c cs ih =>
    rw [List.cons_append, hexFrom?, hexFrom?]
    cases Decimal.digitValue? 16 c with
    | none => rfl
    | some digit => exact ih _

theorem hexFrom?_zeros (count : Nat) (cs : List Char) :
    hexFrom? 0 (List.replicate count '0' ++ cs) = hexFrom? 0 cs := by
  induction count with
  | zero => rfl
  | succ count ih => exact ih

theorem digitValue?_toUpper {n : Nat} (h : n < 16) :
    Decimal.digitValue? 16 n.digitChar.toUpper = some n := by
  revert h n
  decide

theorem hexFrom?_toDigits (n : Nat) :
    hexFrom? 0 ((Nat.toDigits 16 n).map Char.toUpper) = some n := by
  induction n using Nat.strong_induction_on with
  | _ n ih =>
    rw [Nat.toDigits_eq_if (by decide)]
    split
    · next hsmall => simp [hexFrom?, digitValue?_toUpper hsmall]
    · next hlarge =>
      have hdigit : n % 16 < 16 := Nat.mod_lt n (by decide)
      rw [List.map_append, hexFrom?_append, ih (n / 16) (by omega)]
      simp only [Option.bind_some, List.map_cons, List.map_nil, hexFrom?, digitValue?_toUpper hdigit]
      congr 1
      omega

theorem hexFrom?_upperHex (count n : Nat) : hexFrom? 0 (upperHex count n) = some n := by
  rw [upperHex, hexFrom?_zeros, hexFrom?_toDigits]

theorem length_upperHex {count n : Nat} (hcount : 0 < count) (h : n < 16 ^ count) :
    (upperHex count n).length = count := by
  have hlength := (Nat.length_toDigits_le_iff (by decide) hcount).mpr h
  simp only [upperHex, List.length_append, List.length_replicate, List.length_map]
  omega

/-! ## Double quotes -/

theorem isBreak_of_digit {c : Char} {n : Nat} (h : Decimal.digitValue? 16 c = some n) :
    isBreak c = false := by
  rw [Bool.eq_false_iff]
  intro hbreak
  simp only [isBreak, Bool.or_eq_true, beq_iff_eq] at hbreak
  rcases hbreak with (rfl | rfl) | rfl <;> simp [Decimal.digitValue?] at h

/-- Digits behind a backslash make a character. -/
theorem readDouble_digits {value n : Nat} {made : Char} (hne : cs ≠ [])
    (hdigits : hexFrom? value cs = some n) (hmade : charOf? n = some made) :
    readDouble (.digits cs.length value) text .empty (place line column index (cs ++ rest))
      = readDouble .none (made :: text) .empty
          (place line (column + cs.length) (index + cs.length) rest) := by
  induction cs generalizing value column index with
  | nil => exact absurd rfl hne
  | cons c cs ih =>
    obtain ⟨digit, hdigit, hdigits⟩ := Option.bind_eq_some_iff.mp hdigits
    rw [List.cons_append, place_cons (isBreak_of_digit hdigit), readDouble]
    simp only [hdigit, List.length_cons]
    by_cases htail : cs = []
    · subst htail
      obtain rfl := Option.some.inj hdigits
      simp [hmade]
    · have hlength := List.length_pos_iff.mpr htail
      rw [if_neg (by omega), Nat.add_sub_cancel, ih htail hdigits]
      simp [Nat.add_assoc, Nat.add_comm 1]

/-- A character that stands for itself between double quotes. -/
theorem readDouble_char {c : Char} (hcolumn : column ≠ 0) (hgap : gap.hasBreak = false)
    (hbreak : isBreak c = false) (hquote : c ≠ '"') (hslash : c ≠ '\\') :
    ∃ gap' text', gap'.hasBreak = false ∧ gap'.fold ++ text' = c :: (gap.fold ++ text) ∧
      readDouble .none text gap (place line column index (c :: rest))
        = readDouble .none text' gap' (place line (column + 1) (index + 1) rest) := by
  have hmark : atDocumentMark
      (⟨c, line, column, index⟩ :: place line (column + 1) (index + 1) rest) = false :=
    atDocumentMark_of_column hcolumn
  rw [place_cons hbreak, readDouble]
  simp only [hmark, hbreak, Bool.false_eq_true, if_false, beq_iff_eq, hquote, hslash]
  by_cases hblank : isBlank c = true
  · rw [if_pos hblank]
    exact ⟨_, _, (hasBreak_addBlank _ gap).trans hgap, by rw [fold_addBlank hgap]; rfl, rfl⟩
  · rw [if_neg hblank]
    exact ⟨.empty, _, rfl, rfl, rfl⟩

/-- A character that is written behind a backslash. -/
theorem readDouble_slash {made : Char} {escape : List Char} (hcolumn : column ≠ 0)
    (hescape : readDouble .slash (gap.fold ++ text) .empty
        (place line (column + 1) (index + 1) (escape ++ rest))
      = readDouble .none (made :: (gap.fold ++ text)) .empty
        (place line (column + 1 + escape.length) (index + 1 + escape.length) rest)) :
    readDouble .none text gap (place line column index ('\\' :: escape ++ rest))
      = readDouble .none (made :: (gap.fold ++ text)) .empty
        (place line (column + ('\\' :: escape).length) (index + ('\\' :: escape).length) rest) := by
  have hmark : atDocumentMark (⟨'\\', line, column, index⟩ ::
      place line (column + 1) (index + 1) (escape ++ rest)) = false :=
    atDocumentMark_of_column hcolumn
  rw [List.length_cons, Nat.add_comm escape.length, ← Nat.add_assoc, ← Nat.add_assoc, ← hescape,
    List.cons_append, place_cons rfl, readDouble]
  simp [hmark, isBreak, isBlank]

/-- A letter behind a backslash stands for the character it is written for. -/
theorem readDouble_letter {c letter : Char} (h : escapeLetter? c = some letter) :
    readDouble .slash text .empty (place line column index (letter :: rest))
      = readDouble .none (c :: text) .empty (place line (column + 1) (index + 1) rest) := by
  have htable : isBreak letter = false ∧ escaped? letter = some c := by
    obtain ⟨before, after, hentries, -⟩ := List.lookup_eq_some_iff.mp h
    have hmem : (c, letter) ∈ before ++ (c, letter) :: after := by simp
    rw [← hentries] at hmem
    refine (?_ : ∀ entry ∈ _, isBreak entry.2 = false ∧ escaped? entry.2 = some entry.1) (c, letter) hmem
    decide
  rw [place_cons htable.1, readDouble]
  simp [htable]

/-- The number of a character behind a backslash and a letter. -/
theorem readDouble_hex {c letter : Char} {count : Nat} (hcount : 0 < count)
    (hletter : escaped? letter = none) (hdigits : escapeDigits? letter = some count)
    (hbreak : isBreak letter = false) (hc : c.toNat < 16 ^ count) :
    readDouble .slash text .empty (place line column index (letter :: upperHex count c.toNat ++ rest))
      = readDouble .none (c :: text) .empty
        (place line (column + (letter :: upperHex count c.toNat).length)
          (index + (letter :: upperHex count c.toNat).length) rest) := by
  have hlength := length_upperHex hcount hc
  have hne : upperHex count c.toNat ≠ [] := by
    rw [← List.length_pos_iff, hlength]
    exact hcount
  have hmade : charOf? c.toNat = some c := by
    rw [charOf?, if_pos (show c.toNat.isValidChar from c.valid), Char.ofNat_toNat]
  have hread := @readDouble_digits line (column + 1) (index + 1) _ rest text 0 c.toNat c hne
    (hexFrom?_upperHex count c.toNat) hmade
  rw [hlength] at hread
  rw [List.cons_append, place_cons hbreak, readDouble]
  simp only [hbreak, hletter, hdigits, Bool.false_eq_true, if_false, hread]
  simp [hlength, Nat.add_assoc, Nat.add_comm 1]

/-- A character between double quotes is read back as it is written. -/
theorem readDouble_escapeDouble (c : Char) (rest : List Char) (hcolumn : column ≠ 0)
    (hgap : gap.hasBreak = false) :
    ∃ gap' text', gap'.hasBreak = false ∧ gap'.fold ++ text' = c :: (gap.fold ++ text) ∧
      readDouble .none text gap (place line column index (escapeDouble c ++ rest))
        = readDouble .none text' gap' (place line (column + (escapeDouble c).length)
          (index + (escapeDouble c).length) rest) := by
  rw [escapeDouble]
  split
  · next hplain =>
    simp only [Bool.and_eq_true, Bool.not_eq_true', bne_iff_ne, ne_eq] at hplain
    exact readDouble_char hcolumn hgap (isBreak_of_isLineBreak hplain.1.1.2) hplain.1.2 hplain.2
  · next hplain =>
    refine ⟨.empty, c :: (gap.fold ++ text), rfl, rfl, ?_⟩
    split
    · next letter hletter =>
      apply readDouble_slash hcolumn
      exact readDouble_letter hletter
    · split
      · next hsmall =>
        apply readDouble_slash hcolumn
        exact readDouble_hex Nat.two_pos rfl rfl rfl (by omega)
      · split
        · next hsmall =>
          apply readDouble_slash hcolumn
          exact readDouble_hex (Nat.succ_pos 3) rfl rfl rfl (by omega)
        · next hlarge =>
          have hother {d : Char} (hd : d.toNat ≤ 0xffff) : c ≠ d := by
            rintro rfl
            exact hlarge hd
          refine absurd ?_ hplain
          simp [isPrintable, isLineBreak, endsWord.isBreakChar, hother, Nat.not_le.mp hlarge]

/-- A text between double quotes is read back. -/
theorem readDouble_doubleQuoted (hcolumn : column ≠ 0) (hgap : gap.hasBreak = false) :
    readDouble .none text gap (place line column index (cs.flatMap escapeDouble ++ '"' :: rest))
      = some ⟨(gap.fold ++ text).reverse ++ cs,
          place line (column + (cs.flatMap escapeDouble).length + 1)
            (index + (cs.flatMap escapeDouble).length + 1) rest, false⟩ := by
  induction cs generalizing column index text gap with
  | nil =>
    have hmark : atDocumentMark (⟨'"', line, column, index⟩ ::
        place line (column + 1) (index + 1) rest) = false :=
      atDocumentMark_of_column hcolumn
    rw [List.flatMap_nil, List.nil_append, place_cons rfl, readDouble]
    simp [hmark, isBreak, isBlank]
  | cons c cs ih =>
    obtain ⟨gap', text', hgap', hfold, hread⟩ :=
      readDouble_escapeDouble c (cs.flatMap escapeDouble ++ '"' :: rest) hcolumn hgap
    rw [List.flatMap_cons, List.append_assoc, hread, ih (by omega) hgap', hfold]
    simp [Nat.add_assoc]

/-! ## Single quotes -/

/-- What is written for a character between single quotes. -/
def escapeSingle (c : Char) : List Char :=
  if c == '\'' then ['\'', '\''] else [c]

/-- The gap is kept as it is in front of a character. -/
def Gap.IsKept (next : Option Char) : Gap → Prop
  | .empty => True
  | .blanks _ => ∀ c ∈ next, isLineBreak c = false
  | .breaks first _ => (∃ c, first = some c ∧ c ≠ '\n') ∧ next ≠ some ' '

/-- A text that may stand between single quotes. -/
structure StaysSingle (cs : List Char) : Prop where
  printable : ∀ c ∈ cs, isPrintable c = true ∧ c ≠ '\n'
  after : hasPair isLineBreak (· == ' ') cs = false
  before : hasPair (· == ' ') isLineBreak cs = false

theorem StaysSingle.tail {c : Char} (h : StaysSingle (c :: cs)) : StaysSingle cs := by
  obtain ⟨hprintable, hafter, hbefore⟩ := h
  refine ⟨fun d hd => hprintable d (List.mem_cons_of_mem c hd), ?_, ?_⟩
  · cases cs with
    | nil => rfl
    | cons d cs => exact (Bool.or_eq_false_iff.mp hafter).2
  · cases cs with
    | nil => rfl
    | cons d cs => exact (Bool.or_eq_false_iff.mp hbefore).2

/-- A line end is kept in front of what may follow it. -/
theorem StaysSingle.isKept_addBreak {c : Char} (h : StaysSingle (c :: cs)) (hbreak : isBreak c = true)
    (hgap : gap.IsKept (some c)) :
    (gap.addBreak c).IsKept cs.head? ∧ (gap.addBreak c).fold = c :: gap.fold := by
  have hfeed := (h.printable c List.mem_cons_self).2
  have hline : isLineBreak c = true := by
    rw [← Bool.not_eq_false]
    intro hline
    rw [isBreak_of_isLineBreak hline] at hbreak
    cases hbreak
  have hnext : cs.head? ≠ some ' ' := by
    intro hhead
    obtain ⟨tail, rfl⟩ := List.head?_eq_some_iff.mp hhead
    have hpair := h.after
    simp [hasPair, hline] at hpair
  cases gap with
  | empty => exact ⟨⟨⟨c, rfl, hfeed⟩, hnext⟩, by simp [Gap.addBreak, Gap.fold, hfeed]⟩
  | blanks seen =>
    rw [hgap c rfl] at hline
    cases hline
  | breaks first others =>
    obtain ⟨⟨d, rfl, hd⟩, -⟩ := hgap
    exact ⟨⟨⟨d, rfl, hd⟩, hnext⟩, by simp [Gap.addBreak, Gap.fold, hd]⟩

/-- So is a blank. -/
theorem StaysSingle.isKept_addBlank (h : StaysSingle (' ' :: cs)) (hgap : gap.IsKept (some ' ')) :
    (gap.addBlank ' ').IsKept cs.head? ∧ (gap.addBlank ' ').fold = ' ' :: gap.fold := by
  have hnext : ∀ c ∈ cs.head?, isLineBreak c = false := by
    intro c hhead
    obtain ⟨tail, rfl⟩ := List.head?_eq_some_iff.mp hhead
    have hpair := h.before
    simp only [hasPair, Bool.or_eq_false_iff] at hpair
    simpa using hpair.1
  cases gap with
  | empty => exact ⟨hnext, rfl⟩
  | blanks seen => exact ⟨hnext, rfl⟩
  | breaks first others => exact absurd rfl hgap.2

theorem isBlank_of_printable {c : Char} (h : isPrintable c = true) (hblank : isBlank c = true) :
    c = ' ' := by
  simp only [isBlank, Bool.or_eq_true, beq_iff_eq] at hblank
  rcases hblank with rfl | rfl
  · rfl
  · cases h

theorem readSingle_end (hrest : rest.head? ≠ some '\'') :
    readSingle true text .empty (place line column index rest)
      = some ⟨text.reverse, place line column index rest, false⟩ := by
  cases rest with
  | nil => rfl
  | cons c rest =>
    have hc : c ≠ '\'' := fun hc => hrest (congrArg some hc)
    rw [place]
    split <;> simp [readSingle, hc]

/-- Two quotes are one quote of the text. -/
theorem readSingle_quotes :
    readSingle false text gap (place line column index ('\'' :: '\'' :: rest))
      = readSingle false ('\'' :: (gap.fold ++ text)) .empty
          (place line (column + 2) (index + 2) rest) := by
  have hmark (gs : List Glyph) : atDocumentMark (⟨'\'', line, column, index⟩ :: gs) = false :=
    atDocumentMark_of_char (by simp) (by simp)
  rw [place_cons rfl, readSingle]
  simp [hmark, isBreak, isBlank, place_cons, readSingle]

/-- One quote ends the text. -/
theorem readSingle_quote (hrest : rest.head? ≠ some '\'') :
    readSingle false text gap (place line column index ('\'' :: rest))
      = some ⟨(gap.fold ++ text).reverse, place line (column + 1) (index + 1) rest, false⟩ := by
  have hmark : atDocumentMark (⟨'\'', line, column, index⟩ ::
      place line (column + 1) (index + 1) rest) = false :=
    atDocumentMark_of_char (by simp) (by simp)
  rw [place_cons rfl, readSingle]
  simp [hmark, isBreak, isBlank, readSingle_end hrest]

/-- A text has been read and another is left, or there is no answer. -/
def ReadsOrFails (text rest : List Char) (read : Option Read) : Prop :=
  read = none ∨ ∃ line column index, read = some ⟨text, place line column index rest, false⟩

/-- A text between single quotes is read back, or not at all. -/
theorem readSingle_singleQuoted (h : StaysSingle cs) (hgap : gap.IsKept cs.head?)
    (hrest : rest.head? ≠ some '\'') :
    ReadsOrFails ((gap.fold ++ text).reverse ++ cs) rest (readSingle false text gap
      (place line column index (cs.flatMap escapeSingle ++ '\'' :: rest))) := by
  induction cs generalizing line column index text gap with
  | nil =>
    refine .inr ⟨line, column + 1, index + 1, ?_⟩
    rw [List.flatMap_nil, List.nil_append, readSingle_quote hrest, List.append_nil]
  | cons c cs ih =>
    rw [List.flatMap_cons, List.append_assoc]
    generalize cs.flatMap escapeSingle ++ '\'' :: rest = behind at ih ⊢
    by_cases hquote : c = '\''
    · subst hquote
      rw [show escapeSingle '\'' ++ behind = '\'' :: '\'' :: behind from rfl, readSingle_quotes]
      simpa using @ih line (column + 2) (index + 2) ('\'' :: (gap.fold ++ text)) .empty h.tail trivial
    · have hescape : escapeSingle c = [c] := by simp [escapeSingle, hquote]
      have hprintable := (h.printable c List.mem_cons_self).1
      rw [hescape, List.singleton_append]
      by_cases hbreak : isBreak c = true
      · obtain ⟨hkept, hfold⟩ := h.isKept_addBreak hbreak hgap
        rw [place_break hbreak, readSingle]
        simp only [Bool.false_eq_true, if_false, hbreak, if_true]
        split
        · exact .inl rfl
        · simpa [hfold] using @ih (line + 1) 0 (index + 1) text _ h.tail hkept
      · rw [Bool.not_eq_true] at hbreak
        rw [place_cons hbreak, readSingle]
        simp only [Bool.false_eq_true, if_false, hbreak, beq_iff_eq, hquote]
        split
        · exact .inl rfl
        · split
          · next hblank =>
            obtain rfl := isBlank_of_printable hprintable hblank
            obtain ⟨hkept, hfold⟩ := h.isKept_addBlank hgap
            simpa [hfold] using @ih line (column + 1) (index + 1) text _ h.tail hkept
          · simpa using @ih line (column + 1) (index + 1) (c :: (gap.fold ++ text)) .empty h.tail trivial

end KeyExpansion.Yaml
