-- SUMMARY: What is written for a value is printable.
import KeyExpansion.Proofs.Yaml.Written
import KeyExpansion.Value.Node

/-! # Printable texts

Between double quotes a character without a written form is escaped, and the other forms are
only used for texts without such characters. So the line ends of a text that is written for a
value are line feeds. -/

namespace KeyExpansion.Yaml

/-- All characters have a written form. -/
def IsPrintable (s : String) : Prop :=
  ∀ c ∈ s.toList, isPrintable c = true

variable {s t : String} {l : List String} {cs : List Char} {indent : Nat} {isKey : Bool}

instance (s : String) : Decidable (IsPrintable s) :=
  List.decidableBAll _ _

namespace IsPrintable

theorem append (hs : IsPrintable s) (ht : IsPrintable t) : IsPrintable (s ++ t) := by
  rw [IsPrintable, String.toList_append]
  exact List.forall_mem_append.mpr ⟨hs, ht⟩

theorem join (h : ∀ s ∈ l, IsPrintable s) : IsPrintable (String.join l) := by
  intro c hc
  rw [String.toList_join, List.mem_flatMap] at hc
  obtain ⟨s, hs, hc⟩ := hc
  exact h s hs c hc

theorem intercalate (hs : IsPrintable s) (h : ∀ t ∈ l, IsPrintable t) :
    IsPrintable (s.intercalate l) := by
  induction l with
  | nil => exact nofun
  | cons t l ih =>
    obtain ⟨ht, hl⟩ := List.forall_mem_cons.mp h
    cases l with
    | nil => exact ht
    | cons u l =>
      rw [String.intercalate_cons_cons]
      exact (ht.append hs).append (ih hl)

end IsPrintable

/-! ## Scalars -/

theorem isPrintable_ofList (h : ∀ c ∈ cs, isPrintable c = true) : IsPrintable (String.ofList cs) := by
  rw [IsPrintable, String.toList_ofList]
  exact h

/-- A printable text has line feeds only. -/
theorem IsPrintable.isUnified (h : IsPrintable s) : IsUnified s.toList := by
  intro c hc
  have hprint := h c hc
  constructor <;> rintro rfl <;> cases hprint

theorem isPrintable_of_solid (h : ∀ c ∈ s.toList, isSolid c = true) : IsPrintable s :=
  fun c hc => isPrintable_of_isSolid (h c hc)

theorem isPrintable_padding (n : Nat) : IsPrintable (padding n) := by
  refine isPrintable_ofList fun c hc => ?_
  rw [List.eq_of_mem_replicate hc]
  rfl

theorem isPrintable_digit {c : Char} {n : Nat} (h : Decimal.digitValue? 16 c = some n) :
    isPrintable c = true := by
  have hbounds : 0x20 ≤ c.toNat ∧ c.toNat ≤ 0x7e := by
    obtain ⟨hvalue, -⟩ := Option.filter_eq_some_iff.mp h
    split at hvalue
    · next hdigit =>
      obtain ⟨hlow, hhigh⟩ : 0x30 ≤ c.toNat ∧ c.toNat ≤ 0x39 := Char.isDigit_iff_toNat.mp hdigit
      omega
    · split at hvalue
      · next hletter =>
        rw [Bool.and_eq_true, decide_eq_true_eq, decide_eq_true_eq] at hletter
        obtain ⟨hlow, hhigh⟩ : 0x61 ≤ c.toNat ∧ c.toNat ≤ 0x66 := hletter
        omega
      · split at hvalue
        · next hletter =>
          rw [Bool.and_eq_true, decide_eq_true_eq, decide_eq_true_eq] at hletter
          obtain ⟨hlow, hhigh⟩ : 0x41 ≤ c.toNat ∧ c.toNat ≤ 0x46 := hletter
          omega
        · cases hvalue
  simp [isPrintable, hbounds]

theorem isPrintable_hex {value n : Nat} (h : hexFrom? value cs = some n) :
    ∀ c ∈ cs, isPrintable c = true := by
  induction cs generalizing value with
  | nil => exact nofun
  | cons c cs ih =>
    obtain ⟨digit, hdigit, hdigits⟩ := Option.bind_eq_some_iff.mp h
    exact List.forall_mem_cons.mpr ⟨isPrintable_digit hdigit, ih hdigits⟩

theorem isPrintable_escapeLetter {c letter : Char} (h : escapeLetter? c = some letter) :
    isPrintable letter = true := by
  obtain ⟨before, after, hentries, -⟩ := List.lookup_eq_some_iff.mp h
  have hmem : (c, letter) ∈ before ++ (c, letter) :: after := by simp
  rw [← hentries] at hmem
  refine (?_ : ∀ entry ∈ _, isPrintable entry.2 = true) (c, letter) hmem
  decide

theorem isPrintable_escapeDouble (c : Char) : ∀ d ∈ escapeDouble c, isPrintable d = true := by
  have hhex (letter : Char) (count : Nat) (hletter : isPrintable letter = true) :
      ∀ d ∈ '\\' :: letter :: upperHex count c.toNat, isPrintable d = true :=
    List.forall_mem_cons.mpr ⟨rfl, List.forall_mem_cons.mpr
      ⟨hletter, isPrintable_hex (hexFrom?_upperHex count c.toNat)⟩⟩
  rw [escapeDouble]
  split
  · next hplain =>
    simp only [Bool.and_eq_true] at hplain
    exact List.forall_mem_singleton.mpr hplain.1.1.1
  · split
    · next letter hletter =>
      exact List.forall_mem_cons.mpr
        ⟨rfl, List.forall_mem_singleton.mpr (isPrintable_escapeLetter hletter)⟩
    · split
      · exact hhex 'x' 2 rfl
      · split
        · exact hhex 'u' 4 rfl
        · exact hhex 'U' 8 rfl

theorem isPrintable_between {quote : Char} {escape : Char → List Char}
    (hquote : isPrintable quote = true)
    (h : ∀ c ∈ cs, ∀ d ∈ escape c, isPrintable d = true) :
    IsPrintable (String.ofList (quote :: cs.flatMap escape ++ [quote])) := by
  refine isPrintable_ofList (List.forall_mem_append.mpr ⟨?_, List.forall_mem_singleton.mpr hquote⟩)
  refine List.forall_mem_cons.mpr ⟨hquote, fun d hd => ?_⟩
  obtain ⟨c, hc, hd⟩ := List.mem_flatMap.mp hd
  exact h c hc d hd

theorem isPrintable_doubleQuoted (cs : List Char) : IsPrintable (doubleQuoted cs) :=
  isPrintable_between rfl fun c _ => isPrintable_escapeDouble c

theorem isPrintable_singleQuoted (h : ∀ c ∈ cs, isPrintable c = true) :
    IsPrintable (singleQuoted cs) := by
  refine isPrintable_between rfl fun c hc d hd => ?_
  split at hd
  · rw [List.eq_of_mem_replicate (n := 2) hd]
    rfl
  · rw [List.mem_singleton.mp hd]
    exact h c hc

theorem IsWritten.isPrintable (h : IsWritten s t) : IsPrintable t := by
  cases h with
  | plain _ _ printable => exact printable
  | single stays => exact isPrintable_singleQuoted fun c hc => (stays.printable c hc).1
  | double => exact isPrintable_doubleQuoted _

theorem mem_linesOf {line : List Char} (h : line ∈ linesOf cs) : ∀ c ∈ line, c ∈ cs := by
  induction cs generalizing line with
  | nil =>
    rw [List.mem_singleton.mp h]
    exact nofun
  | cons d cs ih =>
    obtain ⟨first, lines, hlines⟩ := List.exists_cons_of_ne_nil (linesOf_ne_nil cs)
    rw [linesOf, hlines] at h
    rw [hlines] at ih
    simp only at h
    split at h
    · rcases List.mem_cons.mp h with rfl | h
      · exact nofun
      · exact fun c hc => List.mem_cons_of_mem d (ih h c hc)
    · rcases List.mem_cons.mp h with rfl | h
      · refine List.forall_mem_cons.mpr ⟨List.mem_cons_self, fun c hc => ?_⟩
        exact List.mem_cons_of_mem d (ih List.mem_cons_self c hc)
      · exact fun c hc => List.mem_cons_of_mem d (ih (List.mem_cons_of_mem first h) c hc)

theorem isPrintable_literalHints (cs : List Char) : IsPrintable (literalHints cs) := by
  rw [literalHints]
  apply IsPrintable.append
  · split <;> decide
  · split
    · split
      · decide
      · split <;> decide
    · decide

theorem isPrintable_literal (h : ∀ c ∈ cs, isPrintable c = true) : IsPrintable (literal indent cs) := by
  rw [literal]
  refine ((show IsPrintable "|" by decide).append (isPrintable_literalHints cs)).append (.join ?_)
  intro text htext
  obtain ⟨line, hline, rfl⟩ := List.mem_map.mp htext
  split
  · decide
  · refine ((show IsPrintable "\n" by decide).append (isPrintable_padding indent)).append ?_
    refine isPrintable_ofList fun c hc => h c ?_
    have hmem := mem_linesOf hline c hc
    split at hmem
    · exact List.dropLast_subset _ hmem
    · exact hmem

theorem isPrintable_writeText (indent : Nat) (isKey : Bool) (s : String) :
    IsPrintable (writeText indent isKey s) := by
  rcases writeText_cases indent isKey s with ⟨-, hliteral, htext⟩ | hwritten
  · rw [htext]
    simp only [allowsLiteral, Bool.and_eq_true, List.all_eq_true] at hliteral
    exact isPrintable_literal hliteral.1.1
  · exact hwritten.isPrintable

theorem isPrintable_writeScalar (indent : Nat) (isKey : Bool) {node : Node}
    (h : ∀ tag inner, node ≠ .tagged tag inner) : IsPrintable (writeScalar indent isKey node) := by
  cases node with
  | null => exact (by decide : IsPrintable "null")
  | bool b =>
    show IsPrintable (toString b)
    cases b <;> decide
  | int i => exact isPrintable_of_solid isSolid_of_mem_toString
  | float x => exact isPrintable_of_solid (isUnmarked_floatText x).solid
  | str s => exact isPrintable_writeText indent isKey s
  | sequence items => exact (by decide : IsPrintable "[]")
  | mapping entries => exact (by decide : IsPrintable "\x7b\x7d")
  | tagged tag inner => exact absurd rfl (h tag inner)

/-! ## Collections -/

theorem isPrintable_line (n : Nat) : IsPrintable ("\n" ++ padding n) :=
  (show IsPrintable "\n" by decide).append (isPrintable_padding n)

theorem isPrintable_atIndent (h : ∀ s ∈ l, IsPrintable s) : IsPrintable (atIndent indent l) :=
  (isPrintable_line indent).intercalate h

mutual

theorem isPrintable_writeInline (indent : Nat) :
    (v : Value) → IsPrintable (writeInline indent v.toNode)
  | .list (item :: items) => isPrintable_atIndent (isPrintable_writeItems indent (item :: items))
  | .map (entry :: entries) => isPrintable_atIndent (isPrintable_writeEntries indent (entry :: entries))
  | .list [] | .map [] | .null | .bool _ | .int _ | .float _ | .str _ | .path _ | .key _ | .sectioned _
  | .code _ => isPrintable_writeScalar indent false nofun

theorem isPrintable_writeItems (indent : Nat) :
    (vs : List Value) → ∀ s ∈ writeItems indent (Value.toNodes vs), IsPrintable s
  | [] => nofun
  | v :: vs => by
    refine List.forall_mem_cons.mpr ⟨?_, isPrintable_writeItems indent vs⟩
    exact (show IsPrintable "- " by decide).append (isPrintable_writeInline (indent + indentStep) v)

theorem isPrintable_writeValue (indent : Nat) :
    (v : Value) → IsPrintable (writeValue indent v.toNode)
  | .list (item :: items) =>
    (isPrintable_line indent).append
      (isPrintable_atIndent (isPrintable_writeItems indent (item :: items)))
  | .map (entry :: entries) =>
    (isPrintable_line (indent + indentStep)).append
      (isPrintable_atIndent (isPrintable_writeEntries (indent + indentStep) (entry :: entries)))
  | .list [] | .map [] | .null | .bool _ | .int _ | .float _ | .str _ | .path _ | .key _ | .sectioned _
  | .code _ =>
    (show IsPrintable " " by decide).append (isPrintable_writeScalar (indent + indentStep) false nofun)

theorem isPrintable_writeEntries (indent : Nat) :
    (entries : List (String × Value)) →
      ∀ s ∈ writeEntries indent (Value.toEntries entries), IsPrintable s
  | [] => nofun
  | (name, v) :: entries => by
    refine List.forall_mem_cons.mpr ⟨?_, isPrintable_writeEntries indent entries⟩
    split
    · exact ((isPrintable_writeText (indent + indentStep) true name).append (by decide)).append
        (isPrintable_writeValue indent v)
    · have hkey := isPrintable_writeText (indent + indentStep) false name
      exact (((((show IsPrintable "? " by decide).append hkey).append (by decide)).append
        (isPrintable_padding indent)).append (by decide)).append
          (isPrintable_writeInline (indent + indentStep) v)

end

/-- What is written for a value is printable. -/
theorem isPrintable_write (v : Value) : IsPrintable (write v.toNode) := by
  have hline : IsPrintable "\n" := by decide
  unfold write
  split
  · exact (isPrintable_writeInline 0 v).append hline
  · exact (isPrintable_writeInline 0 v).append hline
  · refine (isPrintable_writeScalar indentStep false fun tag inner h => ?_).append hline
    cases v <;> cases h

end KeyExpansion.Yaml
