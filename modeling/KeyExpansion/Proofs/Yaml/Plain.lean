-- SUMMARY: Plain scalars are read back as they stand.
import KeyExpansion.Yaml.Token
import KeyExpansion.Yaml.Writer

/-! # Plain scalars

A text without quotes is one scalar if nothing in it starts, ends or comments anything. Then
it is read whole, up to the colon or the line end behind it. The white space behind a line
end is read with it, as far as the first character that stands too far to the left. -/

namespace KeyExpansion.Yaml

variable {line column index : Nat} {cs rest : List Char}

/-! ## Positions -/

/-- Where the text behind a text stands. -/
def endOf (line column : Nat) : List Char → Nat × Nat
  | [] => (line, column)
  | c :: cs => if isBreak c then endOf (line + 1) 0 cs else endOf line (column + 1) cs

/-- The column does not depend on the line. -/
theorem endOf_snd (line column : Nat) (cs : List Char) :
    (endOf line column cs).2 = (endOf 0 column cs).2 := by
  induction cs generalizing line column with
  | nil => rfl
  | cons c cs ih =>
    rw [endOf, endOf]
    split
    · rw [ih, ih (0 + 1)]
    · exact ih line (column + 1)

theorem length_place (line column index : Nat) (cs : List Char) :
    (place line column index cs).length = cs.length := by
  induction cs generalizing line column index with
  | nil => rfl
  | cons c cs ih =>
    rw [place]
    split <;> simp [ih]

theorem place_cons {c : Char} (h : isBreak c = false) :
    place line column index (c :: rest)
      = ⟨c, line, column, index⟩ :: place line (column + 1) (index + 1) rest := by
  rw [place, if_neg (by simp [h])]

theorem place_break {c : Char} (h : isBreak c = true) :
    place line column index (c :: rest)
      = ⟨c, line, column, index⟩ :: place (line + 1) 0 (index + 1) rest := by
  rw [place, if_pos h]

theorem atSpace_place {c : Char} : atSpace (place line column index (c :: rest)) = isSpace c := rfl

theorem atMarker_of_char {g : Glyph} {gs : List Glyph} {mark : Char}
    (h : g.column = 0 → g.char ≠ mark) : atMarker mark (g :: gs) = false := by
  unfold atMarker
  split
  · simp_all
  · rfl

theorem atMarker_ne {g : Glyph} {gs : List Glyph} {mark : Char} (h : g.char ≠ mark) :
    atMarker mark (g :: gs) = false :=
  atMarker_of_char fun _ => h

theorem atDocumentMark_of_char {g : Glyph} {gs : List Glyph} (hdash : g.char ≠ '-')
    (hdot : g.char ≠ '.') : atDocumentMark (g :: gs) = false := by
  rw [atDocumentMark, atMarker_ne hdash, atMarker_ne hdot, Bool.or_self]

theorem atDocumentMark_of_column {g : Glyph} {gs : List Glyph} (h : g.column ≠ 0) :
    atDocumentMark (g :: gs) = false := by
  rw [atDocumentMark, atMarker_of_char (absurd · h), atMarker_of_char (absurd · h), Bool.or_self]

/-! ## Plain texts -/

/-- The text is over, or goes on to the left of a column with a character that is read. -/
def GoesOn (indent : Int) (column : Nat) : List Char → Prop
  | [] => True
  | c :: _ => isSpace c = false ∧ c ≠ '#' ∧ (column : Int) < indent

/-- Does the text start a plain scalar, in front of a character? -/
def opensPlain (next : Char) : List Char → Bool
  | [] => false
  | c :: cs =>
    (!isSpace c && !Lexer.indicators.contains c)
      || (['-', '?', ':'].contains c && !isSpace (cs.headD next))

/-- Is the text one plain scalar in front of a character? -/
def isPlain (next : Char) (cs : List Char) : Bool :=
  opensPlain next cs && !cs.any isLineBreak && !cs.getLast?.any isBlank
    && !hasPair (· == ':') isSpace (cs ++ [next]) && !hasPair isBlank (· == '#') cs

/-- What `isPlain` says of what is left of a text. -/
structure StaysPlain (next : Char) (cs : List Char) : Prop where
  line : ∀ c ∈ cs, isLineBreak c = false
  last : ∀ c ∈ cs.getLast?, isBlank c = false
  colon : hasPair (· == ':') isSpace (cs ++ [next]) = false
  comment : hasPair isBlank (· == '#') cs = false

variable {next : Char}

theorem isPlain_iff : isPlain next cs = true ↔ opensPlain next cs = true ∧ StaysPlain next cs := by
  simp only [isPlain, Bool.and_eq_true, Bool.not_eq_true', List.any_eq_false, Option.any_eq_false]
  constructor
  · rintro ⟨⟨⟨⟨hopens, hline⟩, hlast⟩, hcolon⟩, hcomment⟩
    exact ⟨hopens, by simpa using hline, by simpa using hlast, hcolon, hcomment⟩
  · rintro ⟨hopens, hline, hlast, hcolon, hcomment⟩
    exact ⟨⟨⟨⟨hopens, by simpa using hline⟩, by simpa using hlast⟩, hcolon⟩, hcomment⟩

/-- How a plain text starts, wherever it stands. -/
theorem starts_of_opensPlain {c : Char} (h : opensPlain next (c :: cs) = true) :
    isSpace c = false ∧ Lexer.indicators.contains c = false ∨
      ['-', '?', ':'].contains c = true ∧
        atSpace (place line column index (cs ++ next :: rest)) = false := by
  have hspace : atSpace (place line column index (cs ++ next :: rest)) = isSpace (cs.headD next) := by
    cases cs <;> rfl
  rw [hspace]
  simpa only [opensPlain, Bool.or_eq_true, Bool.and_eq_true, Bool.not_eq_true'] using h

theorem goesOn_of_opensPlain {c : Char} {indent : Int} (h : opensPlain next (c :: cs) = true)
    (hcolumn : column < indent) : GoesOn indent column (c :: rest) := by
  have hstarts := @starts_of_opensPlain 0 0 0 cs rest next c h
  simp only [List.contains_cons, List.contains_nil, Bool.or_false, Bool.or_eq_true, beq_iff_eq]
    at hstarts
  rcases hstarts with ⟨hspace, hindicator⟩ | ⟨rfl | rfl | rfl, -⟩
  · refine ⟨hspace, ?_, hcolumn⟩
    rintro rfl
    exact absurd hindicator (by decide)
  · exact ⟨rfl, by decide, hcolumn⟩
  · exact ⟨rfl, by decide, hcolumn⟩
  · exact ⟨rfl, by decide, hcolumn⟩

theorem isBreak_of_isLineBreak {c : Char} (h : isLineBreak c = false) : isBreak c = false := by
  simp only [isLineBreak, endsWord.isBreakChar, Bool.or_eq_false_iff, beq_eq_false_iff_ne] at h
  simp [isBreak, h]

theorem StaysPlain.tail {c : Char} (h : StaysPlain next (c :: cs)) (hne : cs ≠ []) :
    StaysPlain next cs := by
  obtain ⟨d, cs, rfl⟩ := List.exists_cons_of_ne_nil hne
  obtain ⟨hline, hlast, hcolon, hcomment⟩ := h
  simp only [List.cons_append, hasPair, Bool.or_eq_false_iff] at hcolon hcomment
  exact ⟨fun e he => hline e (List.mem_cons_of_mem c he), hlast, hcolon.2, hcomment.2⟩

/-- A colon in the text has no white space behind it. -/
theorem StaysPlain.colon_inside {c : Char} (h : StaysPlain next (c :: cs)) (hc : c = ':') :
    atSpace (place line column index (cs ++ next :: rest)) = false := by
  have hcolon := h.colon
  cases cs with
  | nil => simpa [hasPair, hc, atSpace_place] using hcolon
  | cons d cs =>
    simp only [List.cons_append, hasPair, hc, beq_self_eq_true, Bool.true_and,
      Bool.or_eq_false_iff] at hcolon
    exact hcolon.1

/-! ## Reading -/

variable {indent : Int} {text : List Char} {gap : Gap}

@[simp]
theorem fold_empty : Gap.fold .empty = [] := rfl

theorem fold_addBlank {c : Char} (h : gap.hasBreak = false) : (gap.addBlank c).fold = c :: gap.fold := by
  cases gap with
  | empty => rfl
  | blanks seen => rfl
  | breaks first others => cases h

theorem hasBreak_addBlank (c : Char) (gap : Gap) : (gap.addBlank c).hasBreak = gap.hasBreak := by
  cases gap <;> rfl

/-- A plain text is read whole. The gap in front of it is one between words, and no mark of a
document starts here. -/
theorem readPlain_append (hne : cs ≠ []) (h : StaysPlain next cs) (hgap : gap.hasBreak = false)
    (hfirst : gap ≠ .empty → cs.head? ≠ some '#')
    (hmark : atDocumentMark (place line column index (cs ++ next :: rest)) = false) :
    readPlain false indent text gap (place line column index (cs ++ next :: rest))
      = readPlain false indent (cs.reverse ++ (gap.fold ++ text)) .empty
          (place line (column + cs.length) (index + cs.length) (next :: rest)) := by
  induction cs generalizing column index text gap with
  | nil => exact absurd rfl hne
  | cons c cs ih =>
    have hbreak := isBreak_of_isLineBreak (h.line c List.mem_cons_self)
    have hlater (htail : cs ≠ []) :
        atDocumentMark (place line (column + 1) (index + 1) (cs ++ next :: rest)) = false := by
      obtain ⟨d, cs, rfl⟩ := List.exists_cons_of_ne_nil htail
      rw [List.cons_append, place]
      exact atDocumentMark_of_column (by simp)
    rw [List.cons_append, place_cons hbreak] at hmark ⊢
    rw [readPlain]
    simp only [hbreak, Bool.false_eq_true, if_false, hgap, Bool.false_and]
    by_cases hblank : isBlank c = true
    · have htail : cs ≠ [] := by
        rintro rfl
        exact absurd (h.last c rfl) (by simp [hblank])
      have hcomment : cs.head? ≠ some '#' := by
        intro hhead
        obtain ⟨d, tail, rfl⟩ := List.exists_cons_of_ne_nil htail
        have hpair := h.comment
        simp [hasPair, hblank, Option.some.inj hhead] at hpair
      have hblanks := (hasBreak_addBlank c gap).trans hgap
      rw [if_pos hblank, ih htail (h.tail htail) hblanks (fun _ => hcomment) (hlater htail),
        fold_addBlank hgap]
      simp [Nat.add_assoc, Nat.add_comm 1]
    · have hcomment : (gap != .empty && c == '#') = false := by
        rw [Bool.and_eq_false_imp]
        intro hsome
        simpa using hfirst (by simpa using hsome)
      have hcolon : (c == ':' && atSpace (place line (column + 1) (index + 1) (cs ++ next :: rest)))
          = false := by
        rw [Bool.and_eq_false_imp]
        intro hc
        exact h.colon_inside (by simpa using hc)
      simp only [hblank, Bool.false_eq_true, if_false, hcomment, hmark, hcolon, Bool.or_self]
      by_cases htail : cs = []
      · subst htail
        rfl
      · rw [ih htail (h.tail htail) rfl (fun hgap => absurd rfl hgap) (hlater htail)]
        simp [Gap.fold, Nat.add_assoc, Nat.add_comm 1]

/-- A colon in front of white space ends a plain text. -/
theorem readPlain_colon (hnext : isSpace next = true) :
    readPlain false indent text .empty (place line column index (':' :: next :: rest))
      = some ⟨text.reverse, place line column index (':' :: next :: rest), false⟩ := by
  have hmark : atDocumentMark (⟨':', line, column, index⟩ ::
      place line (column + 1) (index + 1) (next :: rest)) = false :=
    atDocumentMark_of_char (by simp) (by simp)
  rw [place_cons rfl, readPlain]
  simp [hmark, isBreak, isBlank, Gap.hasBreak, atSpace_place, hnext]

/-! ## Gaps -/

/-- Are these blanks, line ends and comments? A comment starts its line, and `start` tells that
a line starts here. -/
def isGap (start comment : Bool) : List Char → Bool
  | [] => !comment
  | c :: cs =>
    if isBreak c then isGap true false cs
    else if comment then isGap false true cs
    else if c == '#' then start && isGap false true cs
    else c == ' ' && isGap false false cs

variable {start comment : Bool} {between : List Char} {l : Lexer}

/-- The ways in which a gap starts. -/
inductive IsGap : Bool → Bool → List Char → Prop where
  | done {start : Bool} : IsGap start false []
  | lineEnd {start comment : Bool} {c : Char} {cs : List Char} (hbreak : isBreak c = true)
      (rest : IsGap true false cs) : IsGap start comment (c :: cs)
  | commented {start : Bool} {c : Char} {cs : List Char} (hbreak : isBreak c = false)
      (rest : IsGap false true cs) : IsGap start true (c :: cs)
  | mark {cs : List Char} (rest : IsGap false true cs) : IsGap true false ('#' :: cs)
  | blank {start : Bool} {cs : List Char} (rest : IsGap false false cs) :
      IsGap start false (' ' :: cs)

theorem IsGap.of_isGap (h : isGap start comment between = true) : IsGap start comment between := by
  induction between generalizing start comment with
  | nil =>
    obtain rfl : comment = false := by simpa [isGap] using h
    exact .done
  | cons c between ih =>
    rw [isGap] at h
    split at h
    case isTrue hbreak => exact .lineEnd hbreak (ih h)
    case isFalse hbreak =>
      rw [Bool.not_eq_true] at hbreak
      cases comment with
      | true => exact .commented hbreak (ih (by simpa using h))
      | false =>
        by_cases hmark : c = '#'
        · obtain ⟨rfl, hrest⟩ : start = true ∧ isGap false true between = true := by
            simpa [hmark] using h
          exact hmark ▸ .mark (ih hrest)
        · obtain ⟨rfl, hrest⟩ : c = ' ' ∧ isGap false false between = true := by
            simpa [hmark] using h
          exact .blank (ih hrest)

theorem any_isBreak_getLast?_of_cons {c : Char} (hbreak : isBreak c = false)
    (hlast : (c :: between).getLast?.any isBreak = true) : between.getLast?.any isBreak = true := by
  cases between with
  | nil => simp [hbreak] at hlast
  | cons d between => rwa [List.getLast?_cons_cons] at hlast

/-- Behind a gap that a line end ends, what follows starts a line. -/
theorem IsGap.append (h : IsGap start comment between)
    (hlast : between.getLast?.any isBreak = true) :
    isGap start comment (between ++ rest) = isGap true false rest ∧
      (endOf line column (between ++ rest)).2 = (endOf 0 0 rest).2 := by
  induction h generalizing line column with
  | done => cases hlast
  | @lineEnd _ _ c cs hbreak _ ih =>
    rw [List.cons_append, isGap, endOf, if_pos hbreak, if_pos hbreak]
    cases cs with
    | nil => exact ⟨rfl, endOf_snd (line + 1) 0 rest⟩
    | cons d cs => exact ih (by rwa [List.getLast?_cons_cons] at hlast)
  | commented hbreak _ ih =>
    simpa [isGap, endOf, hbreak] using ih (any_isBreak_getLast?_of_cons hbreak hlast)
  | mark _ ih => exact ih (any_isBreak_getLast?_of_cons rfl hlast)
  | blank _ ih => exact ih (any_isBreak_getLast?_of_cons rfl hlast)

theorem skip_goesOn (h : GoesOn indent column rest) :
    l.skip false (place line column index rest) = { l with rest := place line column index rest } := by
  cases rest with
  | nil => rfl
  | cons c rest =>
    obtain ⟨hspace, hcomment, -⟩ := h
    rw [isSpace, Bool.or_eq_false_iff] at hspace
    have hblank := hspace.1
    rw [isBlank, Bool.or_eq_false_iff] at hblank
    rw [place_cons hspace.2, Lexer.skip]
    simp [hspace.2, hblank, hcomment]

/-- A gap is skipped. A key may start behind a line end. -/
theorem IsGap.skip (h : IsGap start comment between) (hflow : l.inFlow = false)
    (hrest : GoesOn indent (endOf line column between).2 rest) :
    l.skip comment (place line column index (between ++ rest)) =
      { l with
        keyAllowed := l.keyAllowed || between.any isBreak
        rest := place (endOf line column between).1 (endOf line column between).2
          (index + between.length) rest } := by
  induction h generalizing l line column index with
  | done => simpa [endOf] using skip_goesOn hrest
  | lineEnd hbreak _ ih =>
    simp only [endOf, hbreak, if_true] at hrest ⊢
    have hskip := @ih (line + 1) 0 (index + 1) { l with keyAllowed := l.keyAllowed || !l.inFlow }
      hflow hrest
    rw [List.cons_append, place_break hbreak, Lexer.skip, if_pos hbreak, hskip]
    simp [hflow, hbreak, Nat.add_assoc, Nat.add_comm 1]
  | commented hbreak _ ih =>
    simp only [endOf, hbreak, Bool.false_eq_true, if_false] at hrest ⊢
    rw [List.cons_append, place_cons hbreak, Lexer.skip, if_neg (by simp [hbreak]),
      if_pos (Bool.true_or _), ih hflow hrest]
    simp [hbreak, Nat.add_assoc, Nat.add_comm 1]
  | mark _ ih =>
    rw [List.cons_append, place_cons rfl, Lexer.skip, if_neg (by simp [isBreak]), if_pos (by simp),
      ih hflow hrest]
    simp [endOf, isBreak, Nat.add_assoc, Nat.add_comm 1]
  | blank _ ih =>
    rw [List.cons_append, place_cons rfl, Lexer.skip, if_neg (by simp [isBreak]), if_neg (by simp),
      if_pos (by simp), ih hflow hrest]
    simp [endOf, isBreak, Nat.add_assoc, Nat.add_comm 1]

theorem hasBreak_addBreak (c : Char) (gap : Gap) : (gap.addBreak c).hasBreak = true := by
  cases gap <;> rfl

theorem readPlain_outside {g : Glyph} {gs : List Glyph} (hgap : gap.hasBreak = true)
    (hspace : isSpace g.char = false) (hcolumn : (g.column : Int) < indent) :
    readPlain false indent text gap (g :: gs) = some ⟨text.reverse, g :: gs, true⟩ := by
  rw [isSpace, Bool.or_eq_false_iff] at hspace
  simp [readPlain, hspace, hgap, hcolumn]

/-- What a reader leaves that stopped in a gap: no more than the gap and the text behind it, and
nothing but gap in front of that text. -/
structure LeavesGap (line column index : Nat) (between rest : List Char) (left : List Glyph) :
    Prop where
  least : rest.length ≤ left.length
  most : left.length ≤ between.length + rest.length
  skip : ∀ l : Lexer, l.inFlow = false → l.keyAllowed = true → l.skip false left =
    { l with
      rest := place (endOf line column between).1 (endOf line column between).2
        (index + between.length) rest }

/-- A reader may leave the whole gap. -/
theorem IsGap.leaves (h : IsGap start false between)
    (hrest : GoesOn indent (endOf line column between).2 rest) :
    LeavesGap line column index between rest (place line column index (between ++ rest)) where
  least := by simp [length_place]
  most := by simp [length_place]
  skip l hflow hkey := by
    rw [h.skip hflow hrest, hkey, Bool.true_or, ← hkey]

/-- It may have read the first line end. -/
theorem LeavesGap.lineEnd {c : Char} {left : List Glyph} (hbreak : isBreak c = true)
    (h : LeavesGap (line + 1) 0 (index + 1) between rest left) :
    LeavesGap line column index (c :: between) rest left where
  least := h.least
  most := Nat.le_trans h.most (by simp)
  skip l hflow hkey := by
    rw [h.skip l hflow hkey, endOf, if_pos hbreak, List.length_cons, Nat.add_assoc, Nat.add_comm 1]

/-- It may have read the first blank. -/
theorem LeavesGap.blank {left : List Glyph}
    (h : LeavesGap line (column + 1) (index + 1) between rest left) :
    LeavesGap line column index (' ' :: between) rest left where
  least := h.least
  most := Nat.le_trans h.most (by simp)
  skip l hflow hkey := by
    rw [h.skip l hflow hkey, endOf, if_neg (by decide), List.length_cons, Nat.add_assoc,
      Nat.add_comm 1]

/-- Behind a line end a plain scalar reads on up to a comment or to the end of the gap. -/
theorem IsGap.readPlain (h : IsGap start comment between) (hcomment : comment = false)
    (hgap : gap.hasBreak = true)
    (hstart : start = true → column = 0) (hindent : 0 < indent)
    (hrest : GoesOn indent (endOf line column between).2 rest) :
    ∃ left, Yaml.readPlain false indent text gap (place line column index (between ++ rest))
          = some ⟨text.reverse, left, true⟩ ∧
      LeavesGap line column index between rest left := by
  induction h generalizing gap line column index with
  | done =>
    refine ⟨_, ?_, (@IsGap.done true).leaves hrest⟩
    cases rest with
    | nil => simp [place, Yaml.readPlain, hgap]
    | cons c rest =>
      have hbreak := hrest.1
      rw [isSpace, Bool.or_eq_false_iff] at hbreak
      rw [List.nil_append, place_cons hbreak.2]
      exact readPlain_outside hgap hrest.1 hrest.2.2
  | @lineEnd _ _ c _ hbreak _ ih =>
    rw [endOf, if_pos hbreak] at hrest
    obtain ⟨left, hread, hleft⟩ := ih rfl (hasBreak_addBreak c gap) (fun _ => rfl) hrest
    refine ⟨left, ?_, hleft.lineEnd hbreak⟩
    rw [List.cons_append, place_break hbreak, Yaml.readPlain]
    simpa [hbreak] using hread
  | commented => cases hcomment
  | mark hbetween =>
    -- A comment is no part of the scalar, and it starts its line.
    refine ⟨_, ?_, hbetween.mark.leaves hrest⟩
    rw [List.cons_append, place_cons rfl]
    apply readPlain_outside hgap rfl
    simpa [hstart rfl] using hindent
  | blank _ ih =>
    obtain ⟨left, hread, hleft⟩ := ih rfl ((hasBreak_addBlank ' ' gap).trans hgap) nofun hrest
    refine ⟨left, ?_, hleft.blank⟩
    rw [List.cons_append, place_cons rfl, Yaml.readPlain]
    simpa [isBreak, isBlank] using hread

/-- So does a plain scalar that its line end ends. -/
theorem readPlain_lineEnd (h : isGap true false between = true) (hindent : 0 < indent)
    (hrest : GoesOn indent (endOf 0 0 between).2 rest) :
    ∃ left, readPlain false indent text .empty (place line column index ('\n' :: (between ++ rest)))
          = some ⟨text.reverse, left, true⟩ ∧
      rest.length ≤ left.length ∧ left.length ≤ between.length + rest.length ∧
      ∀ l : Lexer, l.inFlow = false → l.keyAllowed = true → ∃ line' index', l.skip false left =
        { l with rest := place line' (endOf 0 0 between).2 index' rest } := by
  rw [← endOf_snd (line + 1)] at hrest ⊢
  obtain ⟨left, hread, hleft⟩ :=
    @IsGap.readPlain (line + 1) 0 (index + 1) rest indent text (.breaks (some '\n') []) true false between
      (.of_isGap h) rfl rfl (fun _ => rfl) hindent hrest
  refine ⟨left, ?_, hleft.least, hleft.most,
    fun l hflow hallowed => ⟨_, _, hleft.skip l hflow hallowed⟩⟩
  rw [place_break rfl, readPlain]
  exact hread

end KeyExpansion.Yaml
