-- SUMMARY: Which keys fields and bare names make.
import KeyExpansion.Key.Make
import KeyExpansion.Proofs.Template.ParamName
import KeyExpansion.Proofs.Template.Pieces

/-! # Keys of fields

A field makes one key, whose parts are written down here in full. A field without a
conversion, and a bare name, make a key that asks for nothing but a value. -/

namespace KeyExpansion

/-- The conversions there are. -/
theorem Conversion.mem_of_find? {letter : Char} {c : Conversion} (h : find? letter = some c) :
    c = { coercion := .sectioned } ∨ c = { coercion := .code, mark := some .code } ∨
      c = { coercion := .float } ∨ c = { coercion := .int } ∨
      c = { coercion := .path, mark := some .path } ∨ c = { coercion := .str, mark := some .str } := by
  have hmem : (letter, c) ∈ all := by
    obtain ⟨before, after, hall, -⟩ := List.lookup_eq_some_iff.mp h
    simp [hall]
  simp only [all, List.mem_cons, Prod.mk.injEq, List.not_mem_nil, or_false] at hmem
  rcases hmem with ⟨-, rfl⟩ | ⟨-, rfl⟩ | ⟨-, rfl⟩ | ⟨-, rfl⟩ | ⟨-, rfl⟩ | ⟨-, rfl⟩ <;> simp

namespace Key

theorem readPieces_eq_ok {text : String} {pieces : List Template.Piece} :
    readPieces text = .ok pieces ↔ Template.pieces text = .ok pieces := by
  unfold readPieces
  cases Template.pieces text <;> simp

/-- The key that options and the parts of a field are put together to. -/
def assembled (o : Options) (name format : String) (conversion : Option Char) (mark : Mark) : Key where
  text := name
  family := Family.single mark
  mark := mark
  coercion := o.coercion.getD (Family.single mark).coercion
  check := o.check
  fallback := o.fallback
  format := format
  conversion := conversion
  limit := o.limit
  help := o.help
  parts := none
  label := none

theorem assemble_eq_ok {o : Options} {name format : String} {conversion : Option Char} {mark : Mark}
    {k : Key} :
    assemble o name format conversion mark = .ok k ↔
      checkFormat format = .ok () ∧ assembled o name format conversion mark = k := by
  simp only [assemble, Except.bind_eq_ok, Except.pure_eq_ok]
  exact ⟨fun ⟨_, h, hk⟩ => ⟨h, hk⟩, fun ⟨h, hk⟩ => ⟨(), h, hk⟩⟩

theorem makeSingle_eq_ok {o : Options} {p : Template.Piece} {k : Key} :
    makeSingle o p = .ok k ↔
      ∃ conversion, readConversion p.name (o.conversion.getD p.conversion) = .ok conversion ∧
        o.mark ≠ some .null ∧ checkFormat (o.format.getD p.format) = .ok () ∧
        assembled o p.name (o.format.getD p.format) conversion
          (o.mark.getD (naturalMark p conversion)) = k := by
  simp only [makeSingle, Except.bind_eq_ok]
  refine exists_congr fun conversion => and_congr_right fun _ => ?_
  by_cases hnull : o.mark = some .null
  · simp [hnull, throw, throwThe, MonadExceptOf.throw]
  · simp [hnull, assemble_eq_ok]

/-- The key of plain text. -/
def plainText (o : Options) (text : String) : Key where
  text := text
  family := Family.single .null
  mark := .null
  coercion := .identity
  check := none
  fallback := o.fallback
  format := ""
  conversion := none
  limit := none
  help := o.help
  parts := none
  label := none

theorem makeNull_eq_ok {o : Options} {text : String} {k : Key} :
    makeNull o text = .ok k ↔
      o.mark.filter (· != .null) = none ∧ (∀ value, o.fallback ≠ some (.value value)) ∧
        plainText o text = k := by
  unfold makeNull
  cases hmark : o.mark.filter (· != .null) with
  | some mark => simp
  | none =>
    rcases hfallback : o.fallback with _ | value | _
    · simp [plainText, hfallback]
    · simp
    · simp [plainText, hfallback]

/-- A format that a key may carry can be read. -/
theorem parse_of_checkFormat {format : String} (h : checkFormat format = .ok ()) :
    ∃ f, Format.parse format = .ok f := by
  unfold checkFormat at h
  split at h
  · rename_i hempty
    have : format = "" := by simpa using hempty
    subst this
    exact ⟨{}, rfl⟩
  · cases hf : Format.parse format with
    | ok f => exact ⟨f, rfl⟩
    | error fault => simp [hf] at h

/-! ## Fields without a conversion -/

/-- The key of a field that names no conversion. -/
def ofField (name format : String) : Key :=
  assembled {} name format none (if isIndirectName name.toList then .indirect else .free)

theorem eq_ofField_of_makeSingle {p : Template.Piece} {k : Key} (hconv : p.conversion = "")
    (h : makeSingle {} p = .ok k) :
    k = ofField p.name p.format ∧ ∃ f, Format.parse p.format = .ok f := by
  obtain ⟨conversion, hread, -, hformat, rfl⟩ := makeSingle_eq_ok.mp h
  have hnone : conversion = none := by
    simpa [hconv, readConversion, eq_comm] using hread
  subst hnone
  exact ⟨rfl, parse_of_checkFormat hformat⟩

/-- A key that asks for nothing but the value under its name. -/
structure IsBare (k : Key) : Prop where
  coercion : k.coercion = .identity
  conversion : k.conversion = none
  check : k.check = none
  conduct : k.family.conduct = .standard ∨ k.family.conduct = .indirect

theorem ofField_isBare (name format : String) : (ofField name format).IsBare := by
  unfold ofField
  split
  · exact ⟨rfl, rfl, rfl, .inr rfl⟩
  · exact ⟨rfl, rfl, rfl, .inl rfl⟩

@[simp] theorem ofField_text (name format : String) : (ofField name format).text = name := rfl
@[simp] theorem ofField_format (name format : String) : (ofField name format).format = format := rfl
@[simp] theorem ofField_parts (name format : String) : (ofField name format).parts = none := rfl
@[simp] theorem ofField_limit (name format : String) : (ofField name format).limit = none := rfl

@[simp] theorem ofField_isNull (name format : String) : (ofField name format).isNull = false := by
  unfold ofField
  split <;> rfl

@[simp] theorem ofField_direct (name format : String) :
    (ofField name format).direct = directName name := rfl

@[simp] theorem ofField_indirect (name format : String) :
    (ofField name format).indirect = indirectName name := rfl

end Key

/-! ## Bare names -/

/-- A name that any template may refer to, and that asks for no other name. -/
structure IsSimpleName (name : String) : Prop where
  nonempty : name ≠ ""
  plain : ∀ c ∈ name.toList, c ∉ ['{', '}', '!', ':', '\n']
  last : name.toList.getLast? ≠ some '_'

instance (name : String) : Decidable (IsSimpleName name) :=
  decidable_of_iff
    (name ≠ "" ∧ name.toList.all (fun c => !(['{', '}', '!', ':', '\n'].contains c)) = true ∧
      name.toList.getLast? ≠ some '_')
    ⟨fun ⟨hne, hplain, hlast⟩ => ⟨hne, by simpa using hplain, hlast⟩,
      fun h => ⟨h.nonempty, by simpa using h.plain, h.last⟩⟩

namespace IsSimpleName

variable {name : String} (h : IsSimpleName name)
include h

theorem isBraceFree : Template.IsBraceFree name.toList := fun c hc => by
  have := h.plain c hc
  simp_all

theorem endsName_eq_false : ∀ c ∈ name.toList, Template.endsName c = false := fun c hc => by
  have := h.plain c hc
  simp_all [Template.endsName]

theorem isIndirectName_eq_false : isIndirectName name.toList = false := by
  simpa [isIndirectName, indirectMark] using h.last

theorem directName_eq : directName name = name := by
  simp [directName, h.isIndirectName_eq_false]

theorem indirectName_eq : indirectName name = name.push '_' := by
  simp [indirectName, h.isIndirectName_eq_false, indirectMark]

theorem pieces_inBraces : Template.pieces (inBraces name) = .ok [{ lead := "", name }] :=
  Template.pieces_inBraces h.nonempty h.isBraceFree h.endsName_eq_false

end IsSimpleName

namespace Key

theorem makeSingle_name (name : String) :
    makeSingle {} { lead := "", name } = .ok (ofField name "") :=
  makeSingle_eq_ok.mpr ⟨none, rfl, by simp, rfl, rfl⟩

/-- A simple name that is taken as it stands makes the key of one field. -/
theorem makeText_of_simple {o : Options} {name : String} (h : IsSimpleName name)
    (hforce : o.force = false) (himplicit : o.implicit = true) (hmark : o.mark ≠ some .multi) :
    makeText o name = makeSingle o { lead := "", name } := by
  have hbrace : hasBrace name = false := Template.hasBrace_eq_false.mpr h.isBraceFree
  have hline : '\n' ∉ name.toList := fun hc => by simpa using h.plain _ hc
  have hparam := ParamName.parse?_isSome h.nonempty hline
  have hread : readPieces (inBraces name) = .ok [{ lead := "", name }] := by
    simp [readPieces, h.pieces_inBraces]
  rw [makeText, if_neg (by simp [hforce]), if_pos himplicit, if_neg (by simp [hbrace])]
  simp [makeImplicit, hmark, Option.isNone_eq_false_iff.mpr hparam, hread, bind, Except.bind]

theorem ofName_of_simple {name : String} (h : IsSimpleName name) :
    ofName name = .ok (ofField name "") := by
  rw [ofName, makeText_of_simple h rfl rfl (by simp)]
  exact makeSingle_name name

theorem ofText_inBraces_of_simple {name : String} (h : IsSimpleName name) :
    ofText (inBraces name) = .ok (ofField name "") := by
  have hread : readPieces (inBraces name) = .ok [{ lead := "", name }] := by
    simp [readPieces, h.pieces_inBraces]
  have hlit : ({ lead := "", name } : Template.Piece).isLiteral = false := by
    simpa [Template.Piece.isLiteral] using h.nonempty
  rw [ofText, makeText, if_neg (by simp), if_neg (by simp), hread]
  simpa [bind, Except.bind, ofPieces, hlit] using makeSingle_name name

/-- A name without braces that a source gives names a key. -/
theorem ofReference_of_simple {name : String} (h : IsSimpleName name) :
    ofReference name = .ok (ofField name "") := by
  have hopen : name.toList.contains '{' = false := by
    simpa using fun hc => (h.isBraceFree _ hc).1 rfl
  rw [ofReference, hopen, if_neg Bool.false_ne_true, ofName_of_simple h]

end Key

end KeyExpansion
