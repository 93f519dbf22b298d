-- SUMMARY: Which keys template texts make.
import KeyExpansion.Proofs.Key.Single

/-! # Keys of templates

A template makes a key that holds a key for each of its fields, in order, and the
template with empty slots in their place. -/

namespace KeyExpansion.Key

open Template (Piece)

/-- The key that options and the pieces of a template are put together to. -/
def templated (o : Options) (text : String) (mark : Mark) (conversion : Option Char)
    (pieces : List Piece) (subkeys : List Key) : Key where
  text := text
  family := Family.template mark
  mark := mark
  coercion := o.coercion.getD (Family.template mark).coercion
  check := o.check
  fallback := o.fallback
  format := o.format.getD ""
  conversion := conversion
  limit := o.limit
  help := o.help
  parts := some {
    subkeys
    slots := String.join (pieces.map Piece.slot)
    hasLiteral := pieces.any (!·.lead.isEmpty) }
  label := none

theorem makeTemplate_eq_ok {o : Options} {text : String} {pieces : List Piece} {k : Key} :
    makeTemplate o text pieces = .ok k ↔
      ∃ mark, templateMark o text = .ok mark ∧
      ∃ subkeys, (pieces.filter (!·.isLiteral)).mapM (makeSingle {}) = .ok subkeys ∧
      ∃ conversion, readConversion text (o.conversion.getD "") = .ok conversion ∧
        checkFormat (o.format.getD "") = .ok () ∧
        templated o text mark conversion pieces subkeys = k := by
  simp only [makeTemplate, Except.bind_eq_ok, Except.pure_eq_ok]
  refine exists_congr fun mark => and_congr_right fun _ => ?_
  refine exists_congr fun subkeys => and_congr_right fun _ => ?_
  refine exists_congr fun conversion => and_congr_right fun _ => ?_
  exact ⟨fun ⟨_, h, hk⟩ => ⟨h, hk⟩, fun ⟨h, hk⟩ => ⟨(), h, hk⟩⟩

/-- Anything but one field alone is read as a template. -/
theorem ofText_eq_makeTemplate {text : String} {pieces : List Piece}
    (hpieces : Template.pieces text = .ok pieces) (hfield : ∃ p ∈ pieces, p.isLiteral = false)
    (halone : ∀ p, pieces = [p] → p.lead ≠ "") : ofText text = makeTemplate {} text pieces := by
  have hall : pieces.all (·.isLiteral) = false := by simpa using hfield
  have hread : readPieces text = .ok pieces := by simp [readPieces, hpieces]
  rw [ofText, makeText, if_neg (by simp), if_neg (by simp), hread]
  simp only [bind, Except.bind, ofPieces, hall, Bool.false_eq_true, if_false]
  split
  · rename_i p
    simp [halone p rfl]
  · rfl

/-- The keys of fields that name no conversion. -/
theorem mapM_makeSingle {fields : List Piece} {subkeys : List Key}
    (hconv : ∀ p ∈ fields, p.conversion = "")
    (h : fields.mapM (makeSingle {}) = .ok subkeys) :
    subkeys = fields.map (fun p => ofField p.name p.format) ∧
      ∀ p ∈ fields, ∃ f, Format.parse p.format = .ok f := by
  have hforall := Except.mapM_eq_ok.mp h
  clear h
  induction hforall with
  | nil => simp
  | @cons p k fields subkeys hp _ ih =>
    obtain ⟨rfl, hformat⟩ := eq_ofField_of_makeSingle (hconv p (by simp)) hp
    obtain ⟨rfl, hformats⟩ := ih fun p hp => hconv p (by simp [hp])
    exact ⟨rfl, List.forall_mem_cons.mpr ⟨hformat, hformats⟩⟩

theorem templated_isBare (text : String) (pieces : List Piece) (subkeys : List Key) :
    (templated {} text .multi none pieces subkeys).IsBare :=
  ⟨rfl, rfl, rfl, .inl rfl⟩

end KeyExpansion.Key
