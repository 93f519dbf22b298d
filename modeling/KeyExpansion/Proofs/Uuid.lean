-- SUMMARY: Uuids that are read are lower-case digits, and the hyphenated form reads back.
import KeyExpansion.Proofs.Text.Search
import KeyExpansion.Uuid

/-! # Uuids

A uuid that was read or drawn consists of thirty-two lower-case hexadecimal digits. Its
hyphenated form has nothing but digits and hyphens in it and reads as the uuid. -/

namespace KeyExpansion

/-- The digits of uuids. -/
def lowerHex : List Char :=
  "0123456789abcdef".toList

/-- The digits in both cases, and the hyphen. -/
def plainChars : List Char :=
  lowerHex ++ "ABCDEF-".toList

/-- What may stand around the digits and hyphens of a uuid. -/
def uuidFrames : List (List Char × List Char) :=
  [([], []), ("urn:uuid:".toList, []), (['\x7b'], ['\x7d'])]

/-- What may stand in the written forms of uuids. -/
def uuidChars : List Char :=
  plainChars ++ "urnid:\x7b\x7d".toList

/-- A hexadecimal digit is one of twenty-two characters. -/
theorem mem_of_isHexDigit {c : Char} (h : isHexDigit c = true) :
    c ∈ lowerHex ++ "ABCDEF".toList := by
  have hrange : 48 ≤ c.toNat ∧ c.toNat ≤ 57 ∨ 97 ≤ c.toNat ∧ c.toNat ≤ 102 ∨
      65 ≤ c.toNat ∧ c.toNat ≤ 70 := by
    simp only [isHexDigit, Char.isDigit, Bool.or_eq_true, Bool.and_eq_true, decide_eq_true_eq,
      or_assoc] at h
    exact h
  have hall : ∀ n < 103, 48 ≤ n ∧ n ≤ 57 ∨ 97 ≤ n ∧ n ≤ 102 ∨ 65 ≤ n ∧ n ≤ 70 →
      Char.ofNat n ∈ lowerHex ++ "ABCDEF".toList := by decide
  rw [← Char.ofNat_toNat c]
  exact hall c.toNat (by omega) hrange

theorem mem_plainChars_of_isHexDigit {c : Char} (h : isHexDigit c = true) : c ∈ plainChars := by
  have hsubset : lowerHex ++ "ABCDEF".toList ⊆ plainChars := by decide
  exact hsubset (mem_of_isHexDigit h)

theorem isHexDigit_of_mem {c : Char} (h : c ∈ lowerHex) : isHexDigit c = true := by
  have hall : lowerHex.all isHexDigit = true := by decide
  exact List.all_eq_true.mp hall c h

theorem toLower_mem_of_isHexDigit {c : Char} (h : isHexDigit c = true) : c.toLower ∈ lowerHex := by
  have hsubset : (lowerHex ++ "ABCDEF".toList).map Char.toLower ⊆ lowerHex := by decide
  exact hsubset (List.mem_map_of_mem (mem_of_isHexDigit h))

theorem toLower_eq_of_mem {c : Char} (h : c ∈ lowerHex) : c.toLower = c := by
  have hall : lowerHex.all (fun c => c.toLower == c) = true := by decide
  exact eq_of_beq (List.all_eq_true.mp hall c h)

namespace Uuid

/-! ## Reading -/

/-- The uuid is thirty-two lower-case hexadecimal digits. -/
structure IsProper (u : Uuid) : Prop where
  length_eq : u.digits.length = 32
  mem_lowerHex : ∀ c ∈ u.digits, c ∈ lowerHex

theorem readSimple_some {cs : List Char} {u : Uuid} (h : readSimple? cs = some u) :
    u.IsProper ∧ cs ⊆ plainChars := by
  obtain ⟨hread, heq⟩ := Option.ite_none_right_eq_some.mp h
  obtain rfl := Option.some.inj heq
  simp only [Bool.and_eq_true, decide_eq_true_eq, List.all_eq_true] at hread
  obtain ⟨hlength, hdigits⟩ := hread
  refine ⟨⟨by rw [List.length_map, hlength], ?_⟩, ?_⟩
  · intro c hc
    obtain ⟨digit, hdigit, rfl⟩ := List.mem_map.mp hc
    exact toLower_mem_of_isHexDigit (hdigits digit hdigit)
  · intro c hc
    exact mem_plainChars_of_isHexDigit (hdigits c hc)

theorem readHyphenated_some {cs : List Char} {u : Uuid} (h : readHyphenated? cs = some u) :
    u.IsProper ∧ cs ⊆ plainChars := by
  obtain ⟨-, hread⟩ := Option.ite_none_right_eq_some.mp h
  obtain ⟨hproper, hdigits⟩ := readSimple_some hread
  refine ⟨hproper, ?_⟩
  intro c hc
  rw [← (Text.splits_splitOn ['-'] cs).join_eq] at hc
  rcases Text.mem_join hc with hc | ⟨word, hword, hc⟩
  · rw [List.mem_singleton.mp hc]
    decide
  · exact hdigits (List.mem_flatten.mpr ⟨word, hword, hc⟩)

/-- What reads as a uuid is digits and hyphens in one of the frames. -/
theorem read_some_framed {cs : List Char} {u : Uuid} (h : read? cs = some u) :
    u.IsProper ∧ ∃ frame ∈ uuidFrames, ∃ plain, cs = frame.1 ++ plain ++ frame.2 ∧
      plain ⊆ plainChars := by
  have hplain (hproper : u.IsProper) (hcs : cs ⊆ plainChars) : u.IsProper ∧
      ∃ frame ∈ uuidFrames, ∃ plain, cs = frame.1 ++ plain ++ frame.2 ∧ plain ⊆ plainChars :=
    ⟨hproper, ([], []), by decide, cs, by simp, hcs⟩
  rw [read?] at h
  cases hurn : Text.stripPrefix? "urn:uuid:".toList cs with
  | some rest =>
    rw [hurn] at h
    obtain ⟨hproper, hrest⟩ := readHyphenated_some h
    refine ⟨hproper, ("urn:uuid:".toList, []), by decide, rest, ?_, hrest⟩
    rw [Text.stripPrefix?_eq_some.mp hurn, List.append_nil]
  | none =>
    simp only [hurn] at h
    cases hbraces : (Text.stripPrefix? ['\x7b'] cs).bind (Text.stripSuffix? ['\x7d']) with
    | some inner =>
      rw [hbraces] at h
      obtain ⟨hproper, hinner⟩ := readHyphenated_some h
      obtain ⟨rest, hopen, hclose⟩ := Option.bind_eq_some_iff.mp hbraces
      refine ⟨hproper, (['\x7b'], ['\x7d']), by decide, inner, ?_, hinner⟩
      rw [Text.stripPrefix?_eq_some.mp hopen, Text.stripSuffix?_eq_some.mp hclose,
        List.append_assoc]
    | none =>
      rw [hbraces] at h
      rcases Option.or_eq_some_iff.mp h with h | ⟨-, h⟩
      · exact hplain (readSimple_some h).1 (readSimple_some h).2
      · exact hplain (readHyphenated_some h).1 (readHyphenated_some h).2

/-- What reads as a uuid is proper, and nothing stands in it that no form of uuids has. -/
theorem read_some {cs : List Char} {u : Uuid} (h : read? cs = some u) :
    u.IsProper ∧ ∀ c ∈ cs, c ∈ uuidChars := by
  have hframes : ∀ frame ∈ uuidFrames, frame.1 ⊆ uuidChars ∧ frame.2 ⊆ uuidChars := by decide
  obtain ⟨hproper, frame, hframe, plain, rfl, hplain⟩ := read_some_framed h
  refine ⟨hproper, ?_⟩
  intro c hc
  simp only [List.mem_append] at hc
  rcases hc with (hc | hc) | hc
  · exact (hframes frame hframe).1 hc
  · exact List.mem_append_left _ (hplain hc)
  · exact (hframes frame hframe).2 hc

/-- No two colons stand in a row in what reads as a uuid, and it does not begin with one. -/
theorem not_colons_of_read {cs : List Char} {u : Uuid} (h : read? cs = some u) :
    ¬ "::".toList <:+: ':' :: cs := by
  obtain ⟨-, frame, hframe, plain, rfl, hplain⟩ := read_some_framed h
  have hcolon : ':' ∉ plain := by
    intro hmem
    have hmem := hplain hmem
    revert hmem
    decide
  have hnot : ¬ [':', ':'] <:+: plain := fun hin => hcolon (hin.subset List.mem_cons_self)
  have hnotStart : ¬ [':'] <+: plain := fun hstart => hcolon (hstart.subset List.mem_cons_self)
  simp only [uuidFrames, List.mem_cons, List.not_mem_nil, or_false] at hframe
  show ¬ [':', ':'] <:+: _
  rcases hframe with rfl | rfl | rfl
  · simp [List.infix_cons_iff, hnot, hnotStart]
  · simp [List.infix_cons_iff, hnot, hnotStart]
  · intro hin
    have hin : [':', ':'] <:+: (':' :: '\x7b' :: plain) ++ '\x7d' :: [] := hin
    rcases Text.infix_of_infix_append_cons (by decide) hin with hin | hin
    · simp [List.infix_cons_iff, hnot] at hin
    · simp at hin

/-! ## The hyphenated form -/

theorem map_length_cutGroups (ns : List Nat) (cs : List Char)
    (h : ns.foldr (· + ·) 0 ≤ cs.length) : (cutGroups ns cs).map List.length = ns := by
  induction ns generalizing cs with
  | nil => rfl
  | cons n ns ih =>
    rw [List.foldr_cons] at h
    have hrest : ns.foldr (· + ·) 0 ≤ (cs.drop n).length := by
      rw [List.length_drop]
      omega
    rw [cutGroups, List.map_cons, ih _ hrest, List.length_take_of_le (by omega)]

theorem flatten_cutGroups {ns : List Nat} {cs : List Char}
    (h : cs.length ≤ ns.foldr (· + ·) 0) : (cutGroups ns cs).flatten = cs := by
  induction ns generalizing cs with
  | nil =>
    rw [List.length_eq_zero_iff.mp (Nat.le_zero.mp h)]
    rfl
  | cons n ns ih =>
    rw [List.foldr_cons] at h
    have hrest : (cs.drop n).length ≤ ns.foldr (· + ·) 0 := by
      rw [List.length_drop]
      omega
    rw [cutGroups, List.flatten_cons, ih hrest, List.take_append_drop]

theorem mem_of_mem_cutGroups {ns : List Nat} {cs : List Char} :
    ∀ group ∈ cutGroups ns cs, ∀ c ∈ group, c ∈ cs := by
  induction ns generalizing cs with
  | nil => simp [cutGroups]
  | cons n ns ih =>
    refine List.forall_mem_cons.mpr ⟨fun c hc => List.mem_of_mem_take hc, ?_⟩
    intro group hgroup c hc
    exact List.mem_of_mem_drop (ih group hgroup c hc)

theorem hyphen_mem_hyphenated (u : Uuid) : '-' ∈ u.hyphenated := by
  have hne : cutGroups [4, 4, 4, 12] (u.digits.drop 8) ≠ [] := by simp [cutGroups]
  rw [hyphenated, groups, cutGroups, Text.join_cons hne]
  simp

variable {u : Uuid} (h : u.IsProper)

include h

theorem IsProper.readSimple_eq : readSimple? u.digits = some u := by
  have hall : u.digits.all isHexDigit = true :=
    List.all_eq_true.mpr fun c hc => isHexDigit_of_mem (h.mem_lowerHex c hc)
  have hlower : u.digits.map Char.toLower = u.digits :=
    (List.map_congr_left fun c hc => toLower_eq_of_mem (h.mem_lowerHex c hc)).trans
      (List.map_id u.digits)
  rw [readSimple?, h.length_eq, hall, hlower]
  rfl

theorem IsProper.readHyphenated_eq : readHyphenated? u.hyphenated = some u := by
  have hgroups : ∀ group ∈ cutGroups groups u.digits, '-' ∉ group := by
    intro group hgroup hhyphen
    have hmem := h.mem_lowerHex '-' (mem_of_mem_cutGroups group hgroup '-' hhyphen)
    revert hmem
    decide
  have hwords := (Text.splits_join (by simp [groups, cutGroups]) hgroups).eq_splitOn
  have hlengths := map_length_cutGroups groups u.digits (by rw [h.length_eq]; rfl)
  rw [readHyphenated?, hyphenated, ← hwords, if_pos hlengths, flatten_cutGroups, h.readSimple_eq]
  rw [h.length_eq]
  rfl

theorem IsProper.mem_hyphenated : ∀ c ∈ u.hyphenated, c ∈ lowerHex ++ ['-'] := by
  intro c hc
  rcases Text.mem_join hc with hc | ⟨group, hgroup, hc⟩
  · exact List.mem_append_right lowerHex hc
  · exact List.mem_append_left _ (h.mem_lowerHex c (mem_of_mem_cutGroups group hgroup c hc))

/-- The hyphenated form of a proper uuid reads as the uuid. -/
theorem IsProper.read_hyphenated : read? u.hyphenated = some u := by
  have hmem := h.mem_hyphenated
  have hurn : Text.stripPrefix? "urn:uuid:".toList u.hyphenated = none := by
    rw [Option.eq_none_iff_forall_ne_some]
    intro rest hrest
    have hu := hmem 'u' (by rw [Text.stripPrefix?_eq_some.mp hrest]; simp)
    revert hu
    decide
  have hbrace : Text.stripPrefix? ['\x7b'] u.hyphenated = none := by
    rw [Option.eq_none_iff_forall_ne_some]
    intro rest hrest
    have hopen := hmem '\x7b' (by rw [Text.stripPrefix?_eq_some.mp hrest]; simp)
    revert hopen
    decide
  have hsimple : readSimple? u.hyphenated = none := by
    rw [readSimple?, if_neg]
    intro hall
    rw [Bool.and_eq_true, List.all_eq_true] at hall
    have hhyphen := hall.2 '-' u.hyphen_mem_hyphenated
    revert hhyphen
    decide
  rw [read?, hurn, hbrace]
  show (readSimple? u.hyphenated).or (readHyphenated? u.hyphenated) = some u
  rw [hsimple, Option.none_or, h.readHyphenated_eq]

/-! ## Fresh uuids -/

omit h

theorem mem_lowerHex_of_mem_toDigits {n : Nat} : ∀ c ∈ Nat.toDigits 16 n, c ∈ lowerHex := by
  induction n using Nat.strong_induction_on with
  | _ n ih =>
    have hdigit : ∀ d < 16, Nat.digitChar d ∈ lowerHex := by decide
    by_cases hn : n < 16
    · rw [Nat.toDigits_of_lt_base hn]
      simpa using hdigit n hn
    · rw [Nat.toDigits_of_base_le (by omega) (by omega)]
      intro c hc
      rcases List.mem_append.mp hc with hc | hc
      · exact ih (n / 16) (by omega) c hc
      · rw [List.mem_singleton.mp hc]
        exact hdigit (n % 16) (Nat.mod_lt n (by omega))

/-- The fresh uuid of a seed is proper. -/
theorem isProper_ofSeed (seed : Nat) : (ofSeed seed).IsProper := by
  have hlength : (Nat.toDigits 16 (seed % Nat.pow 16 30)).length ≤ 30 := by
    rw [Nat.length_toDigits_le_iff (by omega) (by omega)]
    exact Nat.mod_lt seed (by decide)
  have hpadded : (hexDigits 30 seed).length = 30 := by
    rw [hexDigits, List.length_append, List.length_replicate]
    omega
  have hdigits : ∀ c ∈ hexDigits 30 seed, c ∈ lowerHex := by
    intro c hc
    rcases List.mem_append.mp hc with hc | hc
    · rw [List.eq_of_mem_replicate hc]
      decide
    · exact mem_lowerHex_of_mem_toDigits c hc
  constructor
  · simp [ofSeed, random, hpadded]
  · intro c hc
    simp only [ofSeed, random, List.mem_append, List.mem_cons, or_assoc] at hc
    rcases hc with hc | rfl | hc | rfl | hc
    · exact hdigits c (List.mem_of_mem_take hc)
    · decide
    · exact hdigits c (List.mem_of_mem_drop (List.mem_of_mem_take hc))
    · decide
    · exact hdigits c (List.mem_of_mem_drop (List.mem_of_mem_take hc))

end Uuid

end KeyExpansion
