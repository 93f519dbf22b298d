-- SUMMARY: What is left of a key that is made again with further options.
import KeyExpansion.Proofs.Key.Built
import KeyExpansion.Proofs.Template.Field

/-! # Rebuilt keys

A key is made again from its template: with a new help text, say, it is what its template
makes, with that help text and its own check, fallback, limit and coercion. The mark that
a key was given, and the format and conversion of a template, stand in no template and are
lost. So a key stays what it was only if its template says all of it. -/

namespace KeyExpansion.Key

open Template (Piece)

/-! ## Options apart from the text -/

/-- Options that leave mark, name, format and conversion to the text. -/
structure Options.FollowsText (o : Options) : Prop where
  implicit : o.implicit = false
  mark : o.mark = none
  conversion : o.conversion = none
  format : o.format = none
  force : o.force = false

/-- Options that set nothing but a check, a fallback, a limit or a help text. -/
structure Options.IsExtra (o : Options) : Prop extends o.FollowsText where
  coercion : o.coercion = none

theorem Options.IsExtra.followsText_inherit {o : Options} (h : o.IsExtra) (k : Key) :
    (o.inherit k).FollowsText :=
  ⟨h.implicit, h.mark, h.conversion, h.format, h.force⟩

/-- The key with what the options say apart from the text. -/
def under (k : Key) (o : Options) : Key :=
  { k with
    coercion := o.coercion.getD k.coercion
    check := o.check
    fallback := o.fallback
    limit := o.limit
    help := o.help }

section FollowsText

variable {o : Options} (ho : o.FollowsText)
include ho

theorem makeSingle_followsText (p : Piece) :
    makeSingle o p = (·.under o) <$> makeSingle {} p := by
  simp only [makeSingle, ho.mark, ho.conversion, ho.format]
  cases readConversion p.name ((none : Option String).getD p.conversion) with
  | error e => rfl
  | ok conversion =>
    simp only [assemble, bind, Except.bind]
    cases checkFormat ((none : Option String).getD p.format) with
    | error e => rfl
    | ok _ => rfl

theorem makeTemplate_followsText (text : String) (pieces : List Piece) :
    makeTemplate o text pieces = (·.under o) <$> makeTemplate {} text pieces := by
  simp only [makeTemplate, templateMark, ho.mark, ho.conversion, ho.format, bind, Except.bind]
  cases (pieces.filter (!·.isLiteral)).mapM (makeSingle {}) with
  | error e => rfl
  | ok subkeys => rfl

theorem ofPieces_followsText (text : String) {pieces : List Piece}
    (hfield : ∃ p ∈ pieces, p.isLiteral = false) :
    ofPieces o text pieces = (·.under o) <$> ofPieces {} text pieces := by
  have hall : pieces.all (·.isLiteral) = false := by simpa using hfield
  simp only [ofPieces, hall, Bool.false_eq_true, if_false, ho.mark]
  split
  · split
    · exact makeSingle_followsText ho _
    · exact makeTemplate_followsText ho text _
  · exact makeTemplate_followsText ho text pieces

/-- A text with a field makes what it makes without options, under the options. -/
theorem makeText_followsText {text : String}
    (hfield : ∀ pieces, Template.pieces text = .ok pieces → ∃ p ∈ pieces, p.isLiteral = false) :
    makeText o text = (·.under o) <$> ofText text := by
  simp only [ofText, makeText, ho.force, ho.implicit, Bool.false_eq_true, if_false]
  cases hread : readPieces text with
  | error e => rfl
  | ok pieces => exact ofPieces_followsText ho text (hfield pieces (readPieces_eq_ok.mp hread))

end FollowsText

/-! ## Where keys come from -/

variable {o : Options} {text : String} {k : Key}

theorem field_of_makeImplicit (hbrace : hasBrace text = false) (h : makeImplicit o text = .ok k) :
    ∃ p, p.isLiteral = false ∧ Template.IsName p.name.toList ∧ makeSingle o p = .ok k := by
  have hfree := Template.hasBrace_eq_false.mp hbrace
  obtain ⟨hne, p, hpieces, hp⟩ := alone_of_makeImplicit h
  obtain ⟨f, cs, hcs⟩ := List.exists_cons_of_ne_nil (l := text.toList) (by simpa using hne)
  have hf : Template.IsBraceFree [f] := by
    simpa [Template.IsBraceFree] using hfree f (by simp [hcs])
  obtain ⟨-, hread⟩ := (Template.pieces_inBraces_alone hcs hf).mp hpieces
  obtain ⟨hlit, hname⟩ := Piece.name_of_ofField hfree hread
  exact ⟨p, hlit, hname, hp⟩

/-- The field that a single key is written as. -/
def field (k : Key) : Piece where
  lead := ""
  name := k.text
  format := k.format
  conversion := (k.conversion.map String.singleton).getD ""

/-- A key of one field or of several. -/
inductive ComesFrom (o : Options) (text : String) (k : Key) : Prop where
  | field {p : Piece} (isLiteral : k.field.isLiteral = false) (name : Template.IsName k.text.toList)
      (makes : makeSingle o p = .ok k)
  | fields {pieces : List Piece} (reads : Template.pieces text = .ok pieces)
      (field : ∃ p ∈ pieces, p.isLiteral = false) (makes : makeTemplate o text pieces = .ok k)

theorem comesFrom_of_makeSingle {p : Piece} (hlit : p.isLiteral = false)
    (hname : Template.IsName p.name.toList) (h : makeSingle o p = .ok k) : ComesFrom o text k := by
  have hmakes := h
  obtain ⟨conversion, -, -, -, rfl⟩ := makeSingle_eq_ok.mp h
  exact .field hlit hname hmakes

/-- A text that is not forced makes plain text, or a key of fields. -/
theorem comesFrom_of_makeText (hforce : o.force = false) (hnull : k.isNull = false)
    (h : makeText o text = .ok k) : ComesFrom o text k := by
  cases fromText_of_makeText h with
  | forced force => simp [hforce] at force
  | bare _ brace makes =>
    obtain ⟨p, hlit, hname, h⟩ := field_of_makeImplicit brace makes
    exact comesFrom_of_makeSingle hlit hname h
  | plain makes => simp [isNull_of_makeNull makes] at hnull
  | @field p reads _ isLiteral makes =>
    have hname := (Template.isRead_of_mem_pieces reads p (by simp)).name isLiteral
    exact comesFrom_of_makeSingle isLiteral hname makes
  | template reads field _ makes => exact .fields reads field makes

/-! ## What a template says -/

theorem template_of_parts_none (hnull : k.isNull = false) (hparts : k.parts = none) :
    k.template = inBraces k.field.joined := by
  rw [template, hnull, isMulti, hparts, Option.isSome_none, Bool.or_self, if_neg Bool.false_ne_true]
  cases hconversion : k.conversion with
  | none => simp [field, Piece.joined, hconversion]
  | some letter => simp [field, Piece.joined, hconversion]

theorem readConversion_eq_ok {name conversion : String} {letter : Option Char} :
    readConversion name conversion = .ok letter ↔
      conversion = (letter.map String.singleton).getD "" := by
  have hsame : conversion = (letter.map String.singleton).getD "" ↔
      conversion.toList = letter.toList := by
    cases letter with
    | none => simp
    | some c =>
      rw [← String.toList_inj]
      simp
  rw [hsame, readConversion]
  generalize conversion.toList = cs
  rcases cs with _ | ⟨c, _ | ⟨d, cs⟩⟩ <;> cases letter <;> simp

/-- A template that has nothing but its text, which is not one field alone. -/
structure IsItsText (k : Key) (parts : Parts) : Prop where
  mark : k.mark = .multi
  format : k.format = ""
  conversion : k.conversion = none
  alone : parts.hasLiteral = false → parts.subkeys.length ≠ 1

/-- The template of the key says all of it but its options apart from the text. -/
structure IsSpelled (k : Key) : Prop where
  field : k.parts = none → k.field.IsReadBack ∧ naturalMark k.field k.conversion = k.mark
  template : ∀ parts ∈ k.parts, k.IsItsText parts

/-- Keys that differ in nothing but options apart from their text. -/
structure Alike (k l : Key) : Prop where
  text : k.text = l.text
  family : k.family = l.family
  mark : k.mark = l.mark
  format : k.format = l.format
  conversion : k.conversion = l.conversion
  parts : k.parts = l.parts
  label : k.label = l.label

theorem Alike.isNull_eq {l : Key} (h : k.Alike l) : k.isNull = l.isNull := by
  rw [isNull, isNull, h.mark]

theorem Alike.field_eq {l : Key} (h : k.Alike l) : k.field = l.field := by
  rw [field, field, h.text, h.format, h.conversion]

theorem under_eq_under {l : Key} {c : Coercion} (ho : o.coercion = some c) :
    k.under o = l.under o ↔ k.Alike l := by
  constructor
  · intro h
    simp only [under, Key.mk.injEq] at h
    obtain ⟨htext, hfamily, hmark, -, -, -, hformat, hconversion, -, -, hparts, hlabel⟩ := h
    exact ⟨htext, hfamily, hmark, hformat, hconversion, hparts, hlabel⟩
  · intro h
    simp only [under, ho, Option.getD_some, h.text, h.family, h.mark, h.format, h.conversion,
      h.parts, h.label]

/-- The template of a key has a field, whatever else is read in it. -/
theorem exists_field_of_template (hfrom : ComesFrom o text k) (hnull : k.isNull = false)
    {pieces : List Piece} (h : Template.pieces k.template = .ok pieces) :
    ∃ p ∈ pieces, p.isLiteral = false := by
  cases hfrom with
  | field hlit hname makes =>
    obtain ⟨conversion, -, -, -, hk⟩ := makeSingle_eq_ok.mp makes
    rw [template_of_parts_none hnull (by rw [← hk]; rfl)] at h
    exact Piece.exists_field_of_joined hlit hname h
  | @fields read reads hfield makes =>
    obtain ⟨mark, -, subkeys, -, conversion, -, -, rfl⟩ := makeTemplate_eq_ok.mp makes
    obtain rfl : read = pieces := by
      simpa [template, isMulti, templated, reads] using h
    exact hfield

/-! ## What a text makes by itself -/

/-- The pieces of a template are one field alone if its parts are. -/
theorem alone_iff {pieces : List Piece} {subkeys : List Key} (hread : ∀ p ∈ pieces, p.IsRead)
    (hsubkeys : (pieces.filter (!·.isLiteral)).mapM (makeSingle {}) = .ok subkeys) :
    (pieces.any (!·.lead.isEmpty) = false ∧ subkeys.length = 1) ↔
      ∃ p, pieces = [p] ∧ p.lead = "" := by
  have hlength := (Except.mapM_eq_ok.mp hsubkeys).length_eq
  constructor
  · rintro ⟨hlead, hone⟩
    have hlead : ∀ p ∈ pieces, p.lead = "" := by simpa using hlead
    have hall : pieces.filter (!·.isLiteral) = pieces := by
      refine List.filter_eq_self.mpr fun p hp => ?_
      simp [(hread p hp).isLiteral_eq_false (hlead p hp)]
    rw [hall, hone] at hlength
    obtain ⟨p, rfl⟩ := List.length_eq_one_iff.mp hlength
    exact ⟨p, rfl, hlead p (by simp)⟩
  · rintro ⟨p, rfl, hlead⟩
    have hlit := (hread p (by simp)).isLiteral_eq_false hlead
    exact ⟨by simp [hlead], by simpa [hlit] using hlength.symm⟩

/-- A field alone makes its single key. -/
theorem ofText_eq_makeSingle {p : Piece} (hpieces : Template.pieces text = .ok [p])
    (hlead : p.lead = "") (hlit : p.isLiteral = false) : ofText text = makeSingle {} p := by
  have hread : readPieces text = .ok [p] := readPieces_eq_ok.mpr hpieces
  rw [ofText, makeText, if_neg (by simp), if_neg (by simp), hread]
  simp [bind, Except.bind, ofPieces, hlit, hlead]

/-- A text that makes a single key by itself is the field of that key. -/
theorem field_of_ofText (h : ofText text = .ok k) (hnull : k.isNull = false) (hparts : k.parts = none) :
    Template.pieces text = .ok [k.field] ∧ naturalMark k.field k.conversion = k.mark := by
  cases fromText_of_makeText h with
  | forced force => cases force
  | bare asked => simp at asked
  | plain makes => simp [isNull_of_makeNull makes] at hnull
  | template _ _ _ makes =>
    obtain ⟨_, -, _, -, _, -, -, rfl⟩ := makeTemplate_eq_ok.mp makes
    cases hparts
  | @field p reads lead _ makes =>
    obtain ⟨letter, hletter, -, -, hk⟩ := makeSingle_eq_ok.mp makes
    -- Format and conversion of the field are those of the key, so it is what the key is written as.
    have hp : p = k.field := by
      obtain ⟨plead, name, format, conversion⟩ := p
      obtain rfl : plead = "" := lead
      simp [← hk, field, assembled, ← readConversion_eq_ok.mp hletter]
    refine ⟨by rw [reads, hp], ?_⟩
    rw [← hp, ← hk]
    rfl

/-- A template that a text makes by itself has nothing but that text. -/
theorem isItsText_of_ofText (h : ofText text = .ok k) (hnull : k.isNull = false) {parts : Parts}
    (hparts : k.parts = some parts) : k.IsItsText parts := by
  cases fromText_of_makeText h with
  | forced force => cases force
  | bare asked => simp at asked
  | plain makes => simp [isNull_of_makeNull makes] at hnull
  | field _ _ _ makes => simp [parts_of_makeSingle makes] at hparts
  | template reads _ hmany makes =>
    obtain ⟨own, hown, subkeys, hsubkeys, letter, hletter, -, rfl⟩ := makeTemplate_eq_ok.mp makes
    obtain rfl : Mark.multi = own := by simpa [templateMark] using hown
    obtain rfl : none = letter := by simpa [readConversion] using hletter
    obtain rfl := Option.some.inj hparts
    refine ⟨rfl, rfl, rfl, fun hlead hone => ?_⟩
    have hread := Template.isRead_of_mem_pieces reads
    obtain ⟨p, hp, hlead⟩ := (alone_iff hread hsubkeys).mp ⟨hlead, hone⟩
    cases hmany p hp hlead

section Field

variable (hnull : k.isNull = false) (hparts : k.parts = none) (hlit : k.field.isLiteral = false)
  (hname : Template.IsName k.text.toList)
include hnull hparts hlit hname

/-- A single key whose template makes a key of the same field is read back from it. -/
theorem isReadBack_of_ofText {w : Key} (hw : ofText k.template = .ok w) (hwNull : w.isNull = false)
    (hwParts : w.parts = none) (hfield : w.field = k.field) :
    k.field.IsReadBack ∧ naturalMark w.field w.conversion = w.mark := by
  obtain ⟨hpieces, hmark⟩ := field_of_ofText hw hwNull hwParts
  rw [hfield, template_of_parts_none hnull hparts] at hpieces
  exact ⟨(Piece.pieces_joined rfl hlit hname).mp hpieces, hmark⟩

/-- A field that is read back makes its key, of the mark that the field gives by itself. -/
theorem ofText_template_of_isReadBack (hformat : checkFormat k.format = .ok ())
    (h : k.field.IsReadBack) :
    ofText k.template
      = .ok (assembled {} k.text k.format k.conversion (naturalMark k.field k.conversion)) := by
  have hpieces := (Piece.pieces_joined rfl hlit hname).mpr h
  rw [template_of_parts_none hnull hparts, ofText_eq_makeSingle hpieces rfl hlit, makeSingle_eq_ok]
  exact ⟨k.conversion, readConversion_eq_ok.mpr rfl, by simp, hformat, rfl⟩

end Field

theorem alike_single_iff {p : Piece} (hlit : k.field.isLiteral = false)
    (hname : Template.IsName k.text.toList) (hnull : k.isNull = false) (h : makeSingle o p = .ok k) :
    (∃ w, ofText k.template = .ok w ∧ w.Alike k) ↔
      k.field.IsReadBack ∧ naturalMark k.field k.conversion = k.mark := by
  obtain ⟨conversion, -, -, hformat, hk⟩ := makeSingle_eq_ok.mp h
  have hparts : k.parts = none := by rw [← hk]; rfl
  constructor
  · rintro ⟨w, hw, hsame⟩
    obtain ⟨hback, hmark⟩ := isReadBack_of_ofText hnull hparts hlit hname hw
      (hsame.isNull_eq.trans hnull) (hsame.parts.trans hparts) hsame.field_eq
    rw [hsame.field_eq, hsame.conversion, hsame.mark] at hmark
    exact ⟨hback, hmark⟩
  · rintro ⟨hback, hmark⟩
    have hcheck : checkFormat k.format = .ok () := by
      rw [← hk]
      exact hformat
    refine ⟨_, ofText_template_of_isReadBack hnull hparts hlit hname hcheck hback, ?_⟩
    rw [hmark, ← hk]
    exact ⟨rfl, rfl, rfl, rfl, rfl, rfl, rfl⟩

theorem alike_template_iff {pieces : List Piece} (hpieces : Template.pieces text = .ok pieces)
    (hfield : ∃ p ∈ pieces, p.isLiteral = false) (hnull : k.isNull = false)
    (h : makeTemplate o text pieces = .ok k) :
    (∃ w, ofText k.template = .ok w ∧ w.Alike k) ↔ ∀ parts ∈ k.parts, k.IsItsText parts := by
  obtain ⟨mark, -, subkeys, hsubkeys, conversion, -, -, rfl⟩ := makeTemplate_eq_ok.mp h
  have htemplate : (templated o text mark conversion pieces subkeys).template = text := by
    simp [template, isMulti, templated]
  rw [htemplate]
  constructor
  · rintro ⟨w, hw, hsame⟩ parts hparts
    have hits := isItsText_of_ofText hw (hsame.isNull_eq.trans hnull) (hsame.parts.trans hparts)
    exact ⟨hsame.mark ▸ hits.mark, hsame.format ▸ hits.format, hsame.conversion ▸ hits.conversion,
      hits.alone⟩
  · intro hits
    obtain ⟨hmark, hformat, hconversion, hmany⟩ := hits _ rfl
    refine ⟨templated {} text .multi none pieces subkeys, ?_, ?_⟩
    · rw [ofText_eq_makeTemplate hpieces hfield, makeTemplate_eq_ok]
      · exact ⟨.multi, rfl, subkeys, hsubkeys, none, rfl, rfl, rfl⟩
      · intro p hp hlead
        have hread := Template.isRead_of_mem_pieces hpieces
        obtain ⟨hlead, hone⟩ := (alone_iff hread hsubkeys).mpr ⟨p, hp, hlead⟩
        exact hmany hlead hone
    · exact ⟨rfl, congrArg Family.template hmark.symm, hmark.symm, hformat.symm, hconversion.symm,
        rfl, rfl⟩

theorem alike_iff (hfrom : ComesFrom o text k) (hnull : k.isNull = false) :
    (∃ w, ofText k.template = .ok w ∧ w.Alike k) ↔ k.IsSpelled := by
  cases hfrom with
  | field hlit hname makes =>
    rw [alike_single_iff hlit hname hnull makes]
    obtain ⟨_, -, -, -, rfl⟩ := makeSingle_eq_ok.mp makes
    refine ⟨fun h => ⟨fun _ => h, ?_⟩, fun h => h.field rfl⟩
    intro _ hparts
    cases hparts
  | fields reads hfield makes =>
    rw [alike_template_iff reads hfield hnull makes]
    obtain ⟨_, -, _, -, _, -, -, rfl⟩ := makeTemplate_eq_ok.mp makes
    refine ⟨fun h => ⟨?_, h⟩, fun h => h.template⟩
    intro hparts
    cases hparts

/-! ## Rebuilding -/

/-- A key that is made again with further options is what its template makes, with its own
    options where none is set. -/
theorem make_key_eq {extra : Options} (hfrom : ComesFrom o text k) (hnull : k.isNull = false)
    (hextra : extra.IsExtra) (hchange : extra.change k = true) :
    make (.key k) extra = (·.under (extra.inherit k)) <$> ofText k.template := by
  rw [make, if_pos hchange]
  exact makeText_followsText (hextra.followsText_inherit k) fun _ => exists_field_of_template hfrom hnull

/-- Setting a check, a fallback, a limit or a help text changes nothing else about a key
    exactly if its template says all of it. -/
theorem make_key_keeps_iff {input : Input} {extra : Options} (hinput : ∀ other, input ≠ .key other)
    (hmake : make input o = .ok k) (hforce : o.force = false) (hnull : k.isNull = false)
    (hextra : extra.IsExtra) (hchange : extra.change k = true) :
    make (.key k) extra = .ok { k with
        check := extra.check.or k.check
        fallback := extra.fallback.or k.fallback
        limit := extra.limit.or k.limit
        help := extra.help.or k.help } ↔ k.IsSpelled := by
  have hcoercion : (extra.inherit k).coercion = some k.coercion := by
    simp [Options.inherit, hextra.mark, hextra.coercion]
  have hkept : k.under (extra.inherit k) = { k with
      check := extra.check.or k.check
      fallback := extra.fallback.or k.fallback
      limit := extra.limit.or k.limit
      help := extra.help.or k.help } := by
    rw [under, hcoercion]
    rfl
  obtain ⟨text, hfrom⟩ : ∃ text, ComesFrom o text k := by
    cases input with
    | text text => exact ⟨text, comesFrom_of_makeText hforce hnull hmake⟩
    | path path => exact ⟨path.text, comesFrom_of_makeText hforce hnull hmake⟩
    | key other => exact absurd rfl (hinput other)
  -- Both sides are under the same options, so only what these leave alone is to be compared.
  rw [make_key_eq hfrom hnull hextra hchange, ← hkept, Except.map_eq_ok, ← alike_iff hfrom hnull]
  simp only [under_eq_under hcoercion]

theorem make_key_keeps_path :
    (∀ other, Input.text "\x7bname:>4!p\x7d" ≠ .key other) ∧
      make (.text "\x7bname:>4!p\x7d") { check := some (.is .path) }
        = .ok (assembled { check := some (.is .path) } "name" ">4" (some 'p') .path) ∧
      make (.key (assembled { check := some (.is .path) } "name" ">4" (some 'p') .path))
          { help := some "where" }
        = .ok (assembled { check := some (.is .path), help := some "where" } "name" ">4" (some 'p')
            .path) := by
  have hinput : ∀ other, Input.text "\x7bname:>4!p\x7d" ≠ .key other := by simp
  have hmake : make (.text "\x7bname:>4!p\x7d") { check := some (.is .path) }
      = .ok (assembled { check := some (.is .path) } "name" ">4" (some 'p') .path) := by
    rfl
  refine ⟨hinput, hmake, ?_⟩
  refine (make_key_keeps_iff hinput hmake rfl rfl ⟨⟨rfl, rfl, rfl, rfl, rfl⟩, rfl⟩ rfl).mpr ⟨?_, ?_⟩
  · have hformat : Template.IsBraceFree ['>', '4'] := by simp [Template.IsBraceFree]
    have hconversion : Template.IsBraceFree ['p'] := by simp [Template.IsBraceFree]
    have hlegible : Template.IsLegible ['>', '4'] ['p'] := ⟨by simp, by simp, by simp⟩
    exact fun _ => ⟨⟨hformat, hconversion, hlegible⟩, rfl⟩
  · intro _ hparts
    cases hparts

/-- A mark that was given is lost. -/
theorem make_key_forgets_mark : ∃ k k',
    make (.text "\x7ba\x7d") { mark := some .path } = .ok k ∧
      make (.key k) { help := some "where" } = .ok k' ∧ k.mark = .path ∧ k'.mark = .free := by
  refine ⟨_, _, rfl, rfl, rfl, rfl⟩

end KeyExpansion.Key
