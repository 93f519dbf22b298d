-- SUMMARY: The texts that write a format, what each of them says, and the one that is printed.
import KeyExpansion.Format.Parser
import KeyExpansion.Proofs.Decimal.Whole
import KeyExpansion.Proofs.Except
import Mathlib.Data.List.TakeWhile

/-! # The grammar of formats

A format is written in parts, `[[fill]align][0][width][.precision][type]`. Only two characters can
be read in two ways: the one before an alignment is the fill, even if it is an alignment itself,
and a zero before the width is the zero flag. With these rules a text writes one format at most.
Accepted are the texts that have the form, and the format that is printed for a parsed one is read
as the same format. -/

namespace KeyExpansion

/-- The character that writes an alignment. -/
def Align.toChar : Align → Char
  | .left => '<'
  | .right => '>'
  | .center => '^'

theorem Align.ofChar?_toChar (align : Align) : ofChar? align.toChar = some align := by
  cases align <;> rfl

namespace Format

/-- The digits write a number that is a size. -/
structure IsSize (digits : List Char) (n : Nat) : Prop where
  ne_nil : digits ≠ []
  isDigit : ∀ c ∈ digits, c.isDigit = true
  value_eq : Nat.ofDigitChars 10 digits 0 = n
  bounded : n < Decimal.pow2 sizeBits

/-- How fill and alignment are written. -/
inductive WritesAlign : Char → Option Align → List Char → Prop where
  | absent : WritesAlign ' ' none []
  | bare {c : Char} {align : Align} (isAlign : Align.ofChar? c = some align) :
      WritesAlign ' ' (some align) [c]
  | filled {fill c : Char} {align : Align} (isAlign : Align.ofChar? c = some align) :
      WritesAlign fill (some align) [fill, c]

/-- How a width is written. -/
inductive WritesWidth : Option Nat → List Char → Prop where
  | absent : WritesWidth none []
  | digits {digits : List Char} {n : Nat} (size : IsSize digits n) : WritesWidth (some n) digits

/-- How a precision is written. -/
inductive WritesPrecision : Option Nat → List Char → Prop where
  | absent : WritesPrecision none []
  | digits {digits : List Char} {n : Nat} (size : IsSize digits n) :
      WritesPrecision (some n) ('.' :: digits)

/-- The zero flag, or nothing. -/
def flag (zero : Bool) : List Char :=
  if zero then ['0'] else []

/-- The text writes the format, with these parts for the alignment, the width and the precision. -/
structure WritesParts (f : Format) (lead width precision text : List Char) : Prop where
  text_eq : text = lead ++ (flag f.zero ++ (width ++ (precision ++ f.type.toList)))
  align : WritesAlign f.fill f.align lead
  width : WritesWidth f.width width
  precision : WritesPrecision f.precision precision
  type : ∀ c ∈ f.type, c ∈ types

/-- The text has the form of a format. -/
def HasForm (text : List Char) : Prop :=
  ∃ f lead width precision, WritesParts f lead width precision text

/-- The text writes the format. A zero before the width is the zero flag. -/
def Writes (f : Format) (text : List Char) : Prop :=
  ∃ lead width precision, WritesParts f lead width precision text ∧
    (f.zero = false → width.head? ≠ some '0')

variable {f : Format} {c : Char} {cs text rest : List Char} {n : Nat}

/-! ## Sizes -/

theorem readSize?_eq_some : readSize? cs = some n ↔ IsSize cs n := by
  simp only [readSize?, Option.filter_eq_some_iff, Decimal.readNat?_eq_some, decide_eq_true_eq]
  constructor
  · rintro ⟨⟨hne, hdigits, hvalue⟩, hbound⟩
    exact ⟨hne, hdigits, hvalue, hbound⟩
  · rintro ⟨hne, hdigits, hvalue, hbound⟩
    exact ⟨⟨hne, hdigits, hvalue⟩, hbound⟩

/-- The digits that are printed for a size write it. -/
theorem isSize_toDigits (h : n < Decimal.pow2 sizeBits) : IsSize (Nat.toDigits 10 n) n where
  ne_nil := Nat.toDigits_ne_nil
  isDigit _ hc := Decimal.isDigit_of_mem_toDigits hc
  value_eq := Nat.ofDigitChars_ten_toDigits
  bounded := h

/-- No digit stands at the start of the text. -/
def NoDigit (text : List Char) : Prop :=
  ∀ c ∈ text.head?, c.isDigit = false

theorem takeDigits_append (hdigits : ∀ c ∈ cs, c.isDigit = true) (hrest : NoDigit rest) :
    takeDigits (cs ++ rest) = (cs, rest) := by
  have hend : rest.takeWhile Char.isDigit = [] ∧ rest.dropWhile Char.isDigit = rest := by
    cases rest with
    | nil => exact ⟨rfl, rfl⟩
    | cons c rest => simp [hrest c rfl]
  rw [takeDigits, List.takeWhile_append_of_pos hdigits, List.dropWhile_append_of_pos hdigits,
    hend.1, hend.2, List.append_nil]

theorem append_of_takeDigits (h : takeDigits text = (cs, rest)) : text = cs ++ rest := by
  obtain ⟨rfl, rfl⟩ := Prod.mk.inj h
  exact List.takeWhile_append_dropWhile.symm

/-! ## The parts -/

theorem ofChar?_eq_none_of_isDigit (h : c.isDigit = true) : Align.ofChar? c = none := by
  unfold Align.ofChar?
  split
  · exact absurd h (by decide)
  · exact absurd h (by decide)
  · exact absurd h (by decide)
  · rfl

theorem takeAlign_append {fill : Char} {align : Option Align} (h : WritesAlign fill align cs)
    (hrest : ∀ c ∈ rest, Align.ofChar? c = none) : takeAlign (cs ++ rest) = ((fill, align), rest) := by
  -- What follows is looked at as well, up to its second character.
  cases h with
  | absent =>
    rcases rest with _ | ⟨c, _ | ⟨d, rest⟩⟩
    · rfl
    · simp [takeAlign, hrest c]
    · simp [takeAlign, hrest c, hrest d]
  | bare isAlign =>
    rcases rest with _ | ⟨d, rest⟩
    · simp [takeAlign, isAlign]
    · simp [takeAlign, isAlign, hrest d]
  | filled isAlign => simp [takeAlign, isAlign]

theorem exists_of_takeAlign {fill : Char} {align : Option Align}
    (h : takeAlign text = ((fill, align), rest)) :
    ∃ lead, text = lead ++ rest ∧ WritesAlign fill align lead := by
  unfold takeAlign at h
  split at h
  · obtain ⟨⟨rfl, rfl⟩, rfl⟩ := by simpa using h
    exact ⟨[], rfl, .absent⟩
  · next c =>
    split at h
    · next isAlign =>
      obtain ⟨⟨rfl, rfl⟩, rfl⟩ := by simpa using h
      exact ⟨[c], rfl, .bare isAlign⟩
    · obtain ⟨⟨rfl, rfl⟩, rfl⟩ := by simpa using h
      exact ⟨[], rfl, .absent⟩
  · next c d cs =>
    split at h
    · next isAlign =>
      obtain ⟨⟨rfl, rfl⟩, rfl⟩ := by simpa using h
      exact ⟨[c, d], rfl, .filled isAlign⟩
    · split at h
      · next isAlign =>
        obtain ⟨⟨rfl, rfl⟩, rfl⟩ := by simpa using h
        exact ⟨[c], rfl, .bare isAlign⟩
      · obtain ⟨⟨rfl, rfl⟩, rfl⟩ := by simpa using h
        exact ⟨[], rfl, .absent⟩

theorem takeZero_eq_iff {zero : Bool} :
    takeZero text = (zero, rest) ↔
      text = flag zero ++ rest ∧ (zero = false → rest.head? ≠ some '0') := by
  constructor
  · intro h
    unfold takeZero at h
    split at h
    · obtain ⟨rfl, rfl⟩ := Prod.mk.inj h
      exact ⟨rfl, by simp⟩
    · next hother =>
      obtain ⟨rfl, rfl⟩ := Prod.mk.inj h
      refine ⟨rfl, fun _ hhead => ?_⟩
      obtain ⟨cs, rfl⟩ := List.head?_eq_some_iff.mp hhead
      exact hother cs rfl
  · rintro ⟨rfl, hhead⟩
    cases zero with
    | true => rfl
    | false =>
      unfold takeZero
      split
      · next cs hcs => exact absurd (congrArg List.head? hcs) (hhead rfl)
      · rfl

theorem takeWidth_append {width : Option Nat} (h : WritesWidth width cs) (hrest : NoDigit rest) :
    takeWidth (cs ++ rest) = .ok (width, rest) := by
  cases h with
  | absent =>
    have hdigits : takeDigits ([] ++ rest) = ([], rest) :=
      takeDigits_append (fun c hc => absurd hc (List.not_mem_nil)) hrest
    rw [takeWidth, hdigits]
  | digits size =>
    obtain ⟨c, digits, rfl⟩ := List.exists_cons_of_ne_nil size.ne_nil
    rw [takeWidth, takeDigits_append size.isDigit hrest]
    simp only [readSize?_eq_some.mpr size]

theorem exists_of_takeWidth {width : Option Nat} (h : takeWidth text = .ok (width, rest)) :
    ∃ digits, text = digits ++ rest ∧ WritesWidth width digits := by
  unfold takeWidth at h
  split at h
  · next hdigits =>
    obtain ⟨rfl, rfl⟩ := by simpa using h
    exact ⟨[], append_of_takeDigits hdigits, .absent⟩
  · next hdigits =>
    split at h
    · next hsize =>
      obtain ⟨rfl, rfl⟩ := by simpa using h
      exact ⟨_, append_of_takeDigits hdigits, .digits (readSize?_eq_some.mp hsize)⟩
    · cases h

theorem WritesWidth.isDigit {width : Option Nat} (h : WritesWidth width cs) (hc : c ∈ cs) :
    c.isDigit = true := by
  cases h with
  | absent => cases hc
  | digits size => exact size.isDigit c hc

/-- What follows a zero at the start of a width is a width as well, or nothing. -/
theorem WritesWidth.of_zero {width : Option Nat} (h : WritesWidth width ('0' :: cs)) :
    ∃ width, WritesWidth width cs := by
  cases h with
  | digits size =>
    by_cases hne : cs = []
    · exact ⟨none, hne ▸ .absent⟩
    · refine ⟨_, .digits ⟨hne, fun c hc => size.isDigit c (List.mem_cons_of_mem _ hc), rfl, ?_⟩⟩
      rw [← Decimal.ofDigitChars_zeros 1]
      exact size.value_eq ▸ size.bounded

theorem takePrecision_append {precision : Option Nat} (h : WritesPrecision precision cs)
    (hrest : NoDigit rest) (hpoint : rest.head? ≠ some '.') :
    takePrecision (cs ++ rest) = .ok (precision, rest) := by
  cases h with
  | absent =>
    unfold takePrecision
    split
    · next cs hcs =>
      apply absurd _ hpoint
      rw [← List.nil_append rest, hcs, List.head?_cons]
    · rfl
  | digits size =>
    obtain ⟨c, digits, rfl⟩ := List.exists_cons_of_ne_nil size.ne_nil
    rw [List.cons_append, takePrecision, takeDigits_append size.isDigit hrest]
    simp only [readSize?_eq_some.mpr size]

theorem exists_of_takePrecision {precision : Option Nat}
    (h : takePrecision text = .ok (precision, rest)) :
    ∃ digits, text = digits ++ rest ∧ WritesPrecision precision digits := by
  unfold takePrecision at h
  split at h
  · split at h
    · cases h
    · next hdigits =>
      split at h
      · next hsize =>
        obtain ⟨rfl, rfl⟩ := by simpa using h
        exact ⟨'.' :: _, congrArg ('.' :: ·) (append_of_takeDigits hdigits),
          .digits (readSize?_eq_some.mp hsize)⟩
      · cases h
  · obtain ⟨rfl, rfl⟩ := by simpa using h
    exact ⟨[], rfl, .absent⟩

theorem WritesPrecision.eq_or_isDigit {precision : Option Nat} (h : WritesPrecision precision cs)
    (hc : c ∈ cs) : c = '.' ∨ c.isDigit = true := by
  cases h with
  | absent => cases hc
  | digits size => exact (List.mem_cons.mp hc).imp_right (size.isDigit c)

theorem WritesPrecision.noDigit_append {precision : Option Nat} (h : WritesPrecision precision cs)
    (hrest : NoDigit rest) : NoDigit (cs ++ rest) := by
  cases h with
  | absent => exact hrest
  | digits size =>
    rintro _ ⟨rfl⟩
    rfl

theorem takeType_eq_ok {type : Option Char} :
    takeType text = .ok type ↔ text = type.toList ∧ ∀ c ∈ type, c ∈ types := by
  rcases text with _ | ⟨c, rest⟩
  · cases type <;> simp [takeType]
  · rw [takeType]
    split
    · next hlast =>
      obtain ⟨htype, rfl⟩ : c ∈ types ∧ rest = [] := by simpa using hlast
      cases type with
      | none => simp
      | some d =>
        simp only [Except.ok.injEq, Option.some.injEq, Option.toList_some, List.cons.injEq, and_true]
        constructor
        · rintro rfl
          exact ⟨rfl, by simpa using htype⟩
        · exact fun h => h.1
    · next hlast =>
      simp only [reduceCtorEq, false_iff]
      rintro ⟨htext, htype⟩
      cases type with
      | none => cases htext
      | some d =>
        obtain ⟨rfl, rfl⟩ := by simpa using htext
        exact hlast (by simpa using htype)

/-! ## Formats -/

/-- A format is parsed part by part. -/
theorem parse_eq_ok {text : String} :
    parse text = .ok f ↔ ∃ afterAlign afterZero afterWidth afterPrecision,
      takeAlign text.toList = ((f.fill, f.align), afterAlign) ∧
      takeZero afterAlign = (f.zero, afterZero) ∧
      takeWidth afterZero = .ok (f.width, afterWidth) ∧
      takePrecision afterWidth = .ok (f.precision, afterPrecision) ∧
      takeType afterPrecision = .ok f.type := by
  simp only [parse, Except.bind_eq_ok, Except.pure_eq_ok]
  constructor
  · rintro ⟨⟨width, afterWidth⟩, hwidth, ⟨precision, afterPrecision⟩, hprecision, type, htype, rfl⟩
    exact ⟨_, _, afterWidth, afterPrecision, rfl, rfl, hwidth, hprecision, htype⟩
  · rintro ⟨_, _, afterWidth, afterPrecision, halign, hzero, hwidth, hprecision, htype⟩
    rw [halign, hzero]
    exact ⟨_, hwidth, _, hprecision, _, htype, rfl⟩

theorem plain_of_mem_types (h : c ∈ types) :
    Align.ofChar? c = none ∧ c.isDigit = false ∧ c ≠ '.' := by
  simp only [types, List.mem_cons, List.not_mem_nil, or_false] at h
  rcases h with rfl | rfl | rfl
  all_goals exact ⟨rfl, rfl, by decide⟩

namespace WritesParts

variable {lead width precision : List Char}

/-- What follows the alignment consists of digits, points and types. -/
theorem mem_cases (h : WritesParts f lead width precision text)
    (hc : c ∈ flag f.zero ++ (width ++ (precision ++ f.type.toList))) :
    c.isDigit = true ∨ c = '.' ∨ c ∈ types := by
  simp only [List.mem_append, Option.mem_toList] at hc
  rcases hc with hflag | hwidth | hprecision | htype
  · obtain ⟨-, rfl⟩ : f.zero = true ∧ c = '0' := by simpa [flag] using hflag
    exact .inl rfl
  · exact .inl (h.width.isDigit hwidth)
  · exact (h.precision.eq_or_isDigit hprecision).symm.imp_right .inl
  · exact .inr (.inr (h.type c htype))

/-- No alignment is among the parts that follow it. -/
theorem ofChar?_eq_none (h : WritesParts f lead width precision text)
    (hc : c ∈ flag f.zero ++ (width ++ (precision ++ f.type.toList))) :
    Align.ofChar? c = none := by
  rcases h.mem_cases hc with hdigit | rfl | htype
  · exact ofChar?_eq_none_of_isDigit hdigit
  · rfl
  · exact (plain_of_mem_types htype).1

theorem noDigit_type (h : WritesParts f lead width precision text) : NoDigit f.type.toList := by
  intro c hc
  have htype : c ∈ f.type := by simpa using hc
  exact (plain_of_mem_types (h.type c htype)).2.1

theorem head?_type_ne (h : WritesParts f lead width precision text) :
    f.type.toList.head? ≠ some '.' := by
  intro hpoint
  have htype : '.' ∈ f.type := by simpa using hpoint
  exact (plain_of_mem_types (h.type '.' htype)).2.2 rfl

/-- The parts are told apart, but for a zero that may be the flag or belong to the width. -/
theorem parse_eq {text : String} (h : WritesParts f lead width precision text.toList)
    (hflag : f.zero = false → width.head? ≠ some '0') : parse text = .ok f := by
  have hdigits : NoDigit (precision ++ f.type.toList) := h.precision.noDigit_append h.noDigit_type
  have hzero : f.zero = false → (width ++ (precision ++ f.type.toList)).head? ≠ some '0' := by
    intro hplain
    cases width with
    | nil => exact fun hhead => absurd (hdigits '0' hhead) (by decide)
    | cons c width => exact hflag hplain
  apply parse_eq_ok.mpr
  refine ⟨flag f.zero ++ (width ++ (precision ++ f.type.toList)), width ++ (precision ++ f.type.toList),
    precision ++ f.type.toList, f.type.toList, ?_, ?_, ?_, ?_, ?_⟩
  · rw [h.text_eq]
    exact takeAlign_append h.align fun c hc => h.ofChar?_eq_none hc
  · exact takeZero_eq_iff.mpr ⟨rfl, hzero⟩
  · exact takeWidth_append h.width hdigits
  · exact takePrecision_append h.precision h.noDigit_type h.head?_type_ne
  · exact takeType_eq_ok.mpr ⟨rfl, h.type⟩

end WritesParts

/-- The format that is parsed is the one that the text writes. -/
theorem parse_eq_ok_iff_writes {text : String} : parse text = .ok f ↔ Writes f text.toList := by
  constructor
  · intro h
    obtain ⟨_, _, _, _, halign, hzero, hwidth, hprecision, htype⟩ := parse_eq_ok.mp h
    obtain ⟨lead, htext, hlead⟩ := exists_of_takeAlign halign
    obtain ⟨rfl, hhead⟩ := takeZero_eq_iff.mp hzero
    obtain ⟨digits, rfl, hdigits⟩ := exists_of_takeWidth hwidth
    obtain ⟨places, rfl, hplaces⟩ := exists_of_takePrecision hprecision
    obtain ⟨rfl, hletter⟩ := takeType_eq_ok.mp htype
    refine ⟨lead, digits, places, ⟨htext, hlead, hdigits, hplaces, hletter⟩, ?_⟩
    intro hplain hzero
    apply hhead hplain
    rw [List.head?_append, hzero, Option.some_or]
  · rintro ⟨lead, width, precision, h, hflag⟩
    exact h.parse_eq hflag

/-- A zero in front of a width may as well be the flag. -/
theorem HasForm.exists_writes (h : HasForm text) : ∃ f, Writes f text := by
  obtain ⟨f, lead, width, precision, h⟩ := h
  by_cases hflag : f.zero = false → width.head? ≠ some '0'
  · exact ⟨f, lead, width, precision, h, hflag⟩
  · -- The format with the flag has the rest of the digits for its width.
    obtain ⟨hplain, hhead⟩ := by simpa using hflag
    obtain ⟨more, rfl⟩ := List.head?_eq_some_iff.mp hhead
    obtain ⟨width, hwidth⟩ := h.width.of_zero
    have hparts : WritesParts { f with zero := true, width } lead more precision text :=
      ⟨by rw [h.text_eq, hplain]; rfl, h.align, hwidth, h.precision, h.type⟩
    exact ⟨_, lead, more, precision, hparts, by simp⟩

/-! ## Printed formats -/

/-- The text of a format. The fill is written when there is an alignment. -/
def toText (f : Format) : String :=
  (match f.align with
    | some align => String.ofList [f.fill, align.toChar]
    | none => "")
    ++ (if f.zero then "0" else "")
    ++ (match f.width with
      | some width => toString width
      | none => "")
    ++ (match f.precision with
      | some precision => "." ++ toString precision
      | none => "")
    ++ (match f.type with
      | some type => String.singleton type
      | none => "")

/-- The fill and the alignment as they are printed. -/
def printedAlign (fill : Char) : Option Align → List Char
  | some align => [fill, align.toChar]
  | none => []

/-- The width as it is printed. -/
def printedWidth : Option Nat → List Char
  | some width => Nat.toDigits 10 width
  | none => []

/-- The precision as it is printed. -/
def printedPrecision : Option Nat → List Char
  | some precision => '.' :: Nat.toDigits 10 precision
  | none => []

theorem toList_toText (f : Format) :
    f.toText.toList = printedAlign f.fill f.align ++ (flag f.zero ++ (printedWidth f.width ++
      (printedPrecision f.precision ++ f.type.toList))) := by
  simp only [toText, String.toList_append, List.append_assoc]
  congr 1
  · cases f.align <;> simp [printedAlign]
  congr 1
  · cases f.zero <;> simp [flag]
  congr 1
  · cases f.width <;> simp [printedWidth, Nat.toString_eq_repr]
  congr 1
  · cases f.precision <;> simp [printedPrecision, Nat.toString_eq_repr]
  · cases f.type <;> simp

theorem WritesAlign.printed {fill : Char} {align : Option Align} (h : WritesAlign fill align cs) :
    WritesAlign fill align (printedAlign fill align) := by
  cases h with
  | absent => exact .absent
  | bare isAlign => exact .filled (Align.ofChar?_toChar _)
  | filled isAlign => exact .filled (Align.ofChar?_toChar _)

theorem WritesWidth.printed {width : Option Nat} (h : WritesWidth width cs) :
    WritesWidth width (printedWidth width) := by
  cases h with
  | absent => exact .absent
  | digits size => exact .digits (isSize_toDigits size.bounded)

/-- A width that does not start with a zero is not printed with one either. -/
theorem WritesWidth.head?_printedWidth_ne {width : Option Nat} (h : WritesWidth width cs)
    (hhead : cs.head? ≠ some '0') : (printedWidth width).head? ≠ some '0' := by
  cases h with
  | absent => exact hhead
  | digits size =>
    apply Decimal.head?_toDigits_ne
    rw [← size.value_eq]
    exact Decimal.ofDigitChars_ne_zero size.ne_nil size.isDigit hhead

theorem WritesPrecision.printed {precision : Option Nat} (h : WritesPrecision precision cs) :
    WritesPrecision precision (printedPrecision precision) := by
  cases h with
  | absent => exact .absent
  | digits size => exact .digits (isSize_toDigits size.bounded)

/-- A format that has a text is printed as one of the texts that write it. -/
theorem Writes.toText (h : Writes f text) : Writes f f.toText.toList := by
  obtain ⟨lead, width, precision, h, hflag⟩ := h
  refine ⟨_, _, _, ⟨toList_toText f, h.align.printed, h.width.printed, h.precision.printed, h.type⟩, ?_⟩
  intro hplain
  exact h.width.head?_printedWidth_ne (hflag hplain)

/-- A text is parsed exactly if it has the form of a format. It writes one format, in which a
character before an alignment is the fill, and the text that is printed for that format writes it
again. -/
theorem parse_writes (text : String) :
    ((∃ f, parse text = .ok f) ↔ HasForm text.toList) ∧
      (∀ f, parse text = .ok f ↔ Writes f text.toList) ∧
      (∀ c d rest align, text.toList = c :: d :: rest → Align.ofChar? d = some align →
        ∀ f, parse text = .ok f → f.fill = c ∧ f.align = some align) ∧
      ∀ f, parse text = .ok f → parse f.toText = .ok f := by
  refine ⟨⟨?_, ?_⟩, fun f => parse_eq_ok_iff_writes, ?_, ?_⟩
  · rintro ⟨f, h⟩
    obtain ⟨lead, width, precision, h, -⟩ := parse_eq_ok_iff_writes.mp h
    exact ⟨f, lead, width, precision, h⟩
  · intro h
    obtain ⟨f, h⟩ := h.exists_writes
    exact ⟨f, parse_eq_ok_iff_writes.mpr h⟩
  · intro c d rest align htext halign f h
    obtain ⟨_, _, _, _, htake, -⟩ := parse_eq_ok.mp h
    obtain ⟨⟨hfill, halign⟩, -⟩ := by simpa [htext, takeAlign, halign] using htake
    exact ⟨hfill.symm, halign.symm⟩
  · intro f h
    exact parse_eq_ok_iff_writes.mpr (parse_eq_ok_iff_writes.mp h).toText

example : parse "<<007.05f" =
    .ok ⟨'<', some .left, true, some 7, some 5, some 'f'⟩ := by decide

end Format

end KeyExpansion
