-- SUMMARY: What words mean, without positions, and that canonical texts can be decoded.
import KeyExpansion.Proofs.Sectioned.Decomposition
import KeyExpansion.Proofs.Sectioned.Dotted
import KeyExpansion.Proofs.Sectioned.Tokens

/-! # Decoding

Whether a word is a uuid or a generation mark depends on its section and its text alone,
not on where it stands. A text whose uuid is canonical has at most one uuid word, which
reads as that uuid, so once it is laid out nothing can fail. -/

namespace KeyExpansion

def Meaning.uuid? : Meaning → Option Uuid
  | .uuid u => some u
  | _ => none

/-- The uuid that a word writes. -/
def wordUuid? (word : List Char) : Option Uuid :=
  (uuidWord? word).bind Uuid.read?

/-- The uuid that a word is in its section. -/
def Section.uuid? (sec : Section) (word : List Char) : Option Uuid :=
  if sec.uuids then wordUuid? word else none

/-- What a word may mean in its section, at an edge or not. -/
inductive Section.Means (sec : Section) (word : List Char) : Meaning → Prop where
  | uuid {u : Uuid} (isUuid : sec.uuid? word = some u) : sec.Means word (.uuid u)
  | other (edge : Bool) (notUuid : sec.uuid? word = none) : sec.Means word (classify sec edge word)

/-- If the word is written as a uuid, it reads as one. -/
def IsReadable (word : List Char) : Prop :=
  ∀ written, uuidWord? word = some written → Uuid.read? written ≠ none

/-- The uuid that a word may still be. -/
def Carried.left (carried : Carried) : List Uuid :=
  if carried.seen then [] else carried.uuid.toList

variable {sec : Section} {word written text : List Char} {u : Uuid} {m : Meaning} {edge : Bool}
  {uuid : Option Uuid} {carried : Carried} {rest : List Uuid}

/-! ## One word -/

/-- A uuid word is a token. -/
theorem uuidWord?_eq_some (h : uuidWord? word = some written) :
    IsTokenValue (some written) ∧ word = uuidToken (some written) := by
  rw [uuidWord?] at h
  split at h
  · next value htoken =>
    obtain ⟨-, heq⟩ := Option.ite_none_right_eq_some.mp h
    obtain rfl := Option.some.inj heq
    obtain ⟨hvalue, hword⟩ := tokenAt?_eq_some.mp htoken
    exact ⟨hvalue, by rw [hword, List.append_nil]⟩
  · cases h

/-- The canonical token is a uuid word. -/
theorem Uuid.IsProper.wordUuid?_token (h : u.IsProper) : wordUuid? u.token = some u := by
  have htoken := tokenAt?_uuidToken_append h.isTokenValue []
  rw [List.append_nil, ← u.token_eq] at htoken
  have hnonempty : u.hyphenated.isEmpty = false :=
    List.isEmpty_eq_false_iff.mpr (List.ne_nil_of_mem u.hyphen_mem_hyphenated)
  have hplain : u.hyphenated.all (fun c => isHexDigit c || c == '-') = true := by
    rw [List.all_eq_true]
    intro c hc
    rcases List.mem_append.mp (h.mem_hyphenated c hc) with hc | hc
    · rw [isHexDigit_of_mem hc, Bool.true_or]
    · rw [List.mem_singleton.mp hc]
      rfl
  simp only [wordUuid?, uuidWord?, htoken, hnonempty, hplain, Bool.not_false, Bool.true_and, if_true,
    Option.bind_some, h.read_hyphenated]

theorem wordUuid?_of_tokenFree (h : TokenFree word) : wordUuid? word = none := by
  rw [wordUuid?, Option.bind_eq_none_iff]
  intro written hwritten
  obtain ⟨hvalue, rfl⟩ := uuidWord?_eq_some hwritten
  exact absurd List.infix_rfl (h _ hvalue)

theorem Section.wordUuid?_of_uuid? (h : sec.uuid? word = some u) : wordUuid? word = some u :=
  (Option.ite_none_right_eq_some.mp h).2

theorem Section.uuid?_of_tokenFree (h : TokenFree word) : sec.uuid? word = none := by
  rw [Section.uuid?, wordUuid?_of_tokenFree h, ite_self]

theorem uuid?_classify : (classify sec edge word).uuid? = none := by
  simp only [classify]
  split <;> rfl

theorem WordMark.ofWord?_eq_gen : WordMark.ofWord? word = some .gen ↔ word = WordMark.gen.text := by
  constructor
  · intro h
    have hfound := List.find?_some h
    simp only [WordMark.isImplicit, Bool.not_false, Bool.true_and, beq_iff_eq] at hfound
    exact hfound.symm
  · rintro rfl
    rfl

theorem classify_eq_mark {value : WordMark} : classify sec edge word = .mark value ↔
    sec.marks = true ∧ (WordMark.ofWord? word = some value ∨
      WordMark.ofWord? word = none ∧ edge = true ∧ WordMark.implicit? word = some value) := by
  have hspecial : (if sec.marks then (WordMark.ofWord? word).or
        (if edge then WordMark.implicit? word else none) else none) = some value ↔
      sec.marks = true ∧ (WordMark.ofWord? word = some value ∨
        WordMark.ofWord? word = none ∧ edge = true ∧ WordMark.implicit? word = some value) := by
    rw [Option.ite_none_right_eq_some, Option.or_eq_some_iff, Option.ite_none_right_eq_some]
  rw [← hspecial, classify]
  split
  · rename_i hsome
    simp [hsome]
  · rename_i hnone _
    simp [hnone]
  · rename_i hnone _
    simp [hnone]

theorem classify_eq_gen :
    classify sec edge word = .mark .gen ↔ sec.marks = true ∧ word = WordMark.gen.text := by
  have himplicit : WordMark.implicit? word ≠ some .gen := by
    intro h
    have hfound := List.find?_some h
    simp [WordMark.isImplicit] at hfound
  simp [classify_eq_mark, WordMark.ofWord?_eq_gen, himplicit]

namespace Section.Means

variable (h : sec.Means word m)

include h

theorem uuid?_eq : m.uuid? = sec.uuid? word := by
  cases h with
  | uuid isUuid => exact isUuid.symm
  | other edge notUuid => rw [notUuid, uuid?_classify]

theorem eq_gen_iff : m = .mark .gen ↔ sec.marks = true ∧ word = WordMark.gen.text := by
  cases h with
  | @uuid u isUuid =>
    have hword : word ≠ WordMark.gen.text := by
      rintro rfl
      have hnone : wordUuid? WordMark.gen.text = none := rfl
      rw [Section.wordUuid?_of_uuid? isUuid] at hnone
      cases hnone
    simp [hword]
  | other edge notUuid => exact classify_eq_gen

/-- Uuids and generation marks tell instances apart. -/
theorem isInstance_iff : m.isInstance = true ↔ sec.uuid? word ≠ none ∨ m = .mark .gen := by
  rw [← h.uuid?_eq]
  cases m with
  | mark value => cases value <;> simp [Meaning.isInstance, Meaning.uuid?]
  | text => simp [Meaning.isInstance, Meaning.uuid?]
  | int value => simp [Meaning.isInstance, Meaning.uuid?]
  | uuid value => simp [Meaning.isInstance, Meaning.uuid?]

end Section.Means

theorem Carried.take_of_left (text : List Char) (h : carried.left = u :: rest) :
    ∃ next, carried.take text u = .ok next ∧ next.uuid = carried.uuid ∧ next.left = rest := by
  obtain ⟨known, seen⟩ := carried
  cases seen with
  | true => simp [left] at h
  | false =>
    cases known with
    | none => simp [left] at h
    | some known =>
      obtain ⟨rfl, rfl⟩ : known = u ∧ rest = [] := by simpa [left] using h
      exact ⟨⟨some known, true⟩, by simp [take], rfl, rfl⟩

theorem decodeWord_eq (hread : IsReadable word) :
    decodeWord sec text edge word carried =
      match sec.uuid? word with
      | none => .ok (classify sec edge word, carried)
      | some u => (carried.take text u).map fun next => (.uuid u, next) := by
  rw [decodeWord, Section.uuid?, wordUuid?]
  cases sec.uuids with
  | false => rfl
  | true =>
    simp only [if_true]
    cases hword : uuidWord? word with
    | none => rfl
    | some written =>
      obtain ⟨u, hu⟩ := Option.ne_none_iff_exists'.mp (hread written hword)
      simp only [Option.bind_some, hu]
      rfl

/-- A word can be decoded if its uuid, if it is one, is still to come. -/
theorem exists_decodeWord (text : List Char) (edge : Bool) (hread : IsReadable word)
    (hleft : (sec.uuid? word).toList ++ rest = carried.left) :
    ∃ m next, decodeWord sec text edge word carried = .ok (m, next) ∧ sec.Means word m ∧
      next.uuid = carried.uuid ∧ next.left = rest := by
  rw [decodeWord_eq hread]
  cases hword : sec.uuid? word with
  | none =>
    rw [hword] at hleft
    exact ⟨_, carried, rfl, .other edge hword, rfl, hleft.symm⟩
  | some u =>
    rw [hword] at hleft
    obtain ⟨next, hnext, huuid, hrest⟩ := Carried.take_of_left text hleft.symm
    refine ⟨.uuid u, next, ?_, .uuid hword, huuid, hrest⟩
    simp only [hnext, Except.map]

/-! ## All words -/

variable {rest : List Uuid}

theorem exists_decodeWords {words : List Text.Span} (count index : Nat)
    (hread : ∀ word ∈ words.map (·.slice text), IsReadable word)
    (hleft : (words.map (·.slice text)).filterMap sec.uuid? ++ rest = carried.left) :
    ∃ meanings next, decodeWords sec text count index words carried = .ok (meanings, next) ∧
      List.Forall₂ sec.Means (words.map (·.slice text)) meanings ∧
      next.uuid = carried.uuid ∧ next.left = rest := by
  induction words generalizing index carried with
  | nil => exact ⟨[], carried, rfl, .nil, rfl, hleft.symm⟩
  | cons word words ih =>
    obtain ⟨hword, hwords⟩ := List.forall_mem_cons.mp hread
    have hsplit : (sec.uuid? (word.slice text)).toList
        ++ ((words.map (·.slice text)).filterMap sec.uuid? ++ rest) = carried.left := by
      rw [← hleft, List.map_cons]
      cases hu : sec.uuid? (word.slice text) <;> simp [hu]
    obtain ⟨m, middle, hdecode, hm, huuid, hmiddle⟩ :=
      exists_decodeWord text (index == 0 || index + 1 == count) hword hsplit
    obtain ⟨meanings, next, hdecodes, hmeanings, huuids, hnext⟩ :=
      ih (index + 1) hwords hmiddle.symm
    refine ⟨m :: meanings, next, ?_, .cons hm hmeanings, huuids.trans huuid, hnext⟩
    rw [decodeWords]
    simp only [hdecode, hdecodes, bind, Except.bind, pure, Except.pure]

/-- The meanings of the words of a section. -/
def Section.MeansAll (text : List Char) (entry : Section × Part) (meanings : List Meaning) : Prop :=
  List.Forall₂ entry.1.Means (entry.2.words.map (·.slice text)) meanings

/-- The words of sections, each with its section. -/
def placedWords (text : List Char) (parts : List (Section × Part)) : List (Section × List Char) :=
  parts.flatMap fun entry => entry.2.words.map fun word => (entry.1, word.slice text)

theorem exists_decodeParts {parts : List (Section × Part)}
    (hread : ∀ entry ∈ placedWords text parts, IsReadable entry.2)
    (hleft : (placedWords text parts).filterMap (fun entry => entry.1.uuid? entry.2) ++ rest
      = carried.left) :
    ∃ meanings next, decodeParts text parts carried = .ok (meanings, next) ∧
      List.Forall₂ (Section.MeansAll text) parts meanings ∧
      next.uuid = carried.uuid ∧ next.left = rest := by
  induction parts generalizing carried with
  | nil => exact ⟨[], carried, rfl, .nil, rfl, hleft.symm⟩
  | cons entry parts ih =>
    obtain ⟨sec, part⟩ := entry
    have hplaced : placedWords text ((sec, part) :: parts)
        = (part.words.map fun word => (sec, word.slice text)) ++ placedWords text parts := rfl
    rw [hplaced] at hread hleft
    obtain ⟨hpart, hparts⟩ := List.forall_mem_append.mp hread
    have hwords : ∀ word ∈ part.words.map (·.slice text), IsReadable word := by
      simpa using hpart
    have hsplit : (part.words.map (·.slice text)).filterMap sec.uuid?
        ++ ((placedWords text parts).filterMap (fun entry => entry.1.uuid? entry.2) ++ rest)
        = carried.left := by
      rw [← hleft, List.filterMap_append, List.append_assoc, List.filterMap_map, List.filterMap_map]
      rfl
    obtain ⟨first, middle, hdecode, hfirst, huuid, hmiddle⟩ :=
      exists_decodeWords part.words.length 0 hwords hsplit
    obtain ⟨others, next, hdecodes, hothers, huuids, hnext⟩ := ih hparts hmiddle.symm
    refine ⟨first :: others, next, ?_, .cons hfirst hothers, huuids.trans huuid, hnext⟩
    rw [decodeParts]
    simp only [hdecode, hdecodes, bind, Except.bind, pure, Except.pure]

theorem filterMap_uuid?_of_means {words : List (List Char)} {meanings : List Meaning}
    (h : List.Forall₂ sec.Means words meanings) :
    meanings.filterMap Meaning.uuid? = words.filterMap sec.uuid? := by
  induction h with
  | nil => rfl
  | cons hm _ ih => simp only [List.filterMap_cons, hm.uuid?_eq, ih]

/-- The meanings that are uuids are those of the uuid words. -/
theorem filterMap_uuid?_of_meansAll {parts : List (Section × Part)} {meanings : List (List Meaning)}
    (h : List.Forall₂ (Section.MeansAll text) parts meanings) :
    meanings.flatten.filterMap Meaning.uuid?
      = (placedWords text parts).filterMap fun entry => entry.1.uuid? entry.2 := by
  induction h with
  | nil => rfl
  | @cons entry ms parts meanings hentry _ ih =>
    have hplaced : placedWords text (entry :: parts)
        = (entry.2.words.map fun word => (entry.1, word.slice text)) ++ placedWords text parts := rfl
    rw [hplaced, List.flatten_cons, List.filterMap_append, List.filterMap_append, ih,
      filterMap_uuid?_of_means hentry, List.filterMap_map, List.filterMap_map]
    rfl

/-! ## Canonical texts -/

theorem filterMap_sublist_toList {α β : Type} {f : α → Option β} {xs : List α} {value : Option β}
    (hpair : xs.Pairwise fun a b => f a = none ∨ f b = none)
    (hvalue : ∀ x ∈ xs, ∀ y, f x = some y → value = some y) : (xs.filterMap f).Sublist value.toList := by
  induction xs with
  | nil => simp
  | cons x xs ih =>
    obtain ⟨hx, hxs⟩ := List.pairwise_cons.mp hpair
    obtain ⟨hfirst, hrest⟩ := List.forall_mem_cons.mp hvalue
    cases hfx : f x with
    | none =>
      rw [List.filterMap_cons_none hfx]
      exact ih hxs hrest
    | some y =>
      have hnone : xs.filterMap f = [] := by
        rw [List.filterMap_eq_nil_iff]
        intro other hother
        simpa [hfx] using hx other hother
      rw [List.filterMap_cons_some hfx, hnone, hfirst y hfx]
      exact List.Sublist.refl [y]

theorem exists_append_of_sublist_toList {β : Type} {ys : List β} {value : Option β}
    (h : ys.Sublist value.toList) : ∃ rest, ys ++ rest = value.toList := by
  cases ys with
  | nil => exact ⟨value.toList, rfl⟩
  | cons y ys =>
    refine ⟨[], ?_⟩
    rw [List.append_nil]
    refine h.eq_of_length_le ?_
    cases value <;> simp

/-- A uuid word of a canonical text is the uuid of the text. -/
theorem IsCanonical.read_uuidWord (h : IsCanonical text uuid) (hword : word <:+: text)
    (hwritten : uuidWord? word = some written) :
    ∃ u, uuid = some u ∧ Uuid.read? written = some u := by
  obtain ⟨hvalue, rfl⟩ := uuidWord?_eq_some hwritten
  obtain ⟨front, back, htext⟩ := hword
  obtain ⟨u, rfl, heq, -, -⟩ := h.cut hvalue htext.symm
  obtain rfl := Option.some.inj heq
  exact ⟨u, rfl, h.proper.read_hyphenated⟩

theorem IsCanonical.uuid?_eq_some (h : IsCanonical text uuid) (hword : word <:+: text)
    (hu : sec.uuid? word = some u) : uuid = some u := by
  obtain ⟨written, hwritten, hread⟩ := Option.bind_eq_some_iff.mp (Section.wordUuid?_of_uuid? hu)
  obtain ⟨u', huuid, hread'⟩ := h.read_uuidWord hword hwritten
  rw [huuid, ← hread', hread]

namespace Scheme

variable {sections : List Section} {rows : List (List (List Char))}

/-- The words of a text stand in it one after the other. -/
theorem Writes.inOrder (h : Writes sections rows text) : Text.InOrder rows.flatten text := by
  have hwritten (sec : Section) (words : List (List Char)) :
      Text.InOrder words (sec.written words) := by
    obtain ⟨rest, hrest⟩ := sec.join_prefix_written words
    have hjoin := (Text.inOrder_join sec.separator words).append (.nil rest)
    rwa [List.append_nil, hrest] at hjoin
  induction h with
  | @last sec words body split =>
    rw [← split.join_eq, List.flatten_singleton]
    exact Text.inOrder_join sec.separator words
  | cons takes _ ih =>
    rw [takes.text_eq, List.flatten_cons]
    exact (hwritten _ _).append ih

theorem map_snd_placedWords {layout : Layout} (h : layout.length = sections.length) :
    (placedWords text (sections.zip layout)).map Prod.snd = (layout.rows text).flatten := by
  induction sections generalizing layout with
  | nil =>
    obtain rfl := List.length_eq_zero_iff.mp h
    rfl
  | cons sec sections ih =>
    cases layout with
    | nil => simp at h
    | cons part layout =>
      have hlength : layout.length = sections.length := by simpa using h
      have hlayout := ih hlength
      simp only [placedWords, Layout.rows] at hlayout ⊢
      simp only [List.zip_cons_cons, List.flatMap_cons, List.map_append, List.map_cons,
        List.flatten_cons, hlayout, List.map_map]
      rfl

theorem Writes.inOrder_placedWords (h : Writes sections rows text) :
    Text.InOrder ((placedWords text (sections.zip (place 0 sections rows))).map Prod.snd) text := by
  rw [map_snd_placedWords (length_place h.length_eq), h.rows_place (Nat.zero_le _) rfl]
  exact h.inOrder

variable {scheme : Scheme} {layout : Layout}

/-- A canonical text that is laid out can be decoded, and its uuid words are at most one. -/
theorem exists_decode (hne : scheme.sections ≠ [])
    (hmarkers : ∀ sec ∈ scheme.sections, sec.stop ≠ some [])
    (hlayout : scheme.layOut text = .ok layout) (hcanonical : IsCanonical text uuid) :
    ∃ meanings, scheme.decode text layout uuid = .ok ⟨meanings, uuid⟩ ∧
      List.Forall₂ (Section.MeansAll text) (scheme.sections.zip layout) meanings ∧
      (meanings.flatten.filterMap Meaning.uuid?).Sublist uuid.toList := by
  obtain ⟨rows, hwrites, rfl⟩ := (layOut_eq_ok hne hmarkers).mp hlayout
  have horder := hwrites.inOrder_placedWords
  generalize hparts : scheme.sections.zip (place 0 scheme.sections rows) = parts at horder ⊢
  have hinside : ∀ entry ∈ placedWords text parts, entry.2 <:+: text := by
    intro entry hentry
    exact horder.infix_of_mem entry.2 (List.mem_map_of_mem hentry)
  have hpair := List.pairwise_map.mp horder.pairwise
  have hread : ∀ entry ∈ placedWords text parts, IsReadable entry.2 := by
    intro entry hentry written hwritten
    obtain ⟨u, -, hu⟩ := hcanonical.read_uuidWord (hinside entry hentry) hwritten
    simp [hu]
  have hsublist : ((placedWords text parts).filterMap fun entry => entry.1.uuid? entry.2).Sublist
      uuid.toList := by
    refine filterMap_sublist_toList (hpair.imp ?_) ?_
    · intro a b hab
      exact (hcanonical.tokenFree_or hab).imp Section.uuid?_of_tokenFree Section.uuid?_of_tokenFree
    · intro entry hentry u hu
      exact hcanonical.uuid?_eq_some (hinside entry hentry) hu
  obtain ⟨rest, hrest⟩ := exists_append_of_sublist_toList hsublist
  have hleft : _ = (⟨uuid, false⟩ : Carried).left := hrest
  obtain ⟨meanings, next, hdecode, hmeans, huuid, -⟩ := exists_decodeParts hread hleft
  refine ⟨meanings, ?_, hmeans, ?_⟩
  · have hnext : next.uuid = uuid := huuid
    rw [decode, hparts, hdecode, ← hnext]
    rfl
  · rwa [filterMap_uuid?_of_meansAll hmeans]

end Scheme

namespace Sectioned

variable {scheme : Scheme} {fresh : Uuid}

/-- What is parsed is the layout and the decoding of its own clean text. -/
structure IsDecoded (s : Sectioned scheme) : Prop where
  isClean : scheme.IsClean s.text s.uuid
  layOut_eq : scheme.layOut s.text = .ok s.layout
  means : List.Forall₂ (Section.MeansAll s.text) (scheme.sections.zip s.layout) s.meanings
  uuids : (s.meanings.flatten.filterMap Meaning.uuid?).Sublist s.uuid.toList

theorem clean_eq_of_parse (hdotted : scheme.IsDotted) (hfresh : fresh.IsProper)
    {s : Sectioned scheme} (h : parse scheme fresh text = .ok s) :
    scheme.clean fresh text = .ok ⟨s.text, s.uuid⟩ ∧ s.IsDecoded := by
  obtain ⟨known, hclean, hisClean⟩ := isClean_of_parse hdotted hfresh h
  obtain ⟨⟨clean, found⟩, hcleaned, h⟩ := Except.bind_eq_ok.mp h
  obtain ⟨layout, hlayout, h⟩ := Except.bind_eq_ok.mp h
  obtain ⟨decoding, hdecoding, h⟩ := Except.bind_eq_ok.mp h
  obtain rfl := Except.pure_eq_ok.mp h
  obtain rfl : found = known := by simpa using hcleaned.symm.trans hclean
  obtain ⟨meanings, hdecode, hmeans, huuids⟩ :=
    Scheme.exists_decode hdotted.sections_ne_nil hdotted.stop_ne_nil hlayout hisClean.canonical
  obtain rfl : decoding = ⟨meanings, found⟩ := Except.ok.inj (hdecoding.symm.trans hdecode)
  exact ⟨hcleaned, hisClean, hlayout, hmeans, huuids⟩

theorem isDecoded_of_parse (hdotted : scheme.IsDotted) (hfresh : fresh.IsProper)
    {s : Sectioned scheme} (h : parse scheme fresh text = .ok s) : s.IsDecoded :=
  (clean_eq_of_parse hdotted hfresh h).2

/-- A clean text that can be laid out is parsed as it is, and no fresh uuid is drawn. -/
theorem exists_parse_of_isClean (hdotted : scheme.IsDotted) {uuid : Option Uuid}
    (hclean : scheme.IsClean text uuid) {layout : Layout} (hlayout : scheme.layOut text = .ok layout) :
    ∃ s : Sectioned scheme, s.text = text ∧ s.layout = layout ∧
      ∀ fresh, parse scheme fresh text = .ok s := by
  obtain ⟨meanings, hdecode, -, -⟩ :=
    Scheme.exists_decode hdotted.sections_ne_nil hdotted.stop_ne_nil hlayout hclean.canonical
  refine ⟨⟨text, layout, meanings, uuid⟩, rfl, rfl, ?_⟩
  intro fresh
  have hcleaned := hclean.clean_eq hdotted fresh
  simp only [parse, hcleaned, hlayout, hdecode, bind, Except.bind, pure, Except.pure]

namespace IsDecoded

variable {s : Sectioned scheme} (h : s.IsDecoded) (hdotted : scheme.IsDotted)

include h

/-- A text that has no uuid has no token. -/
theorem tokenFree (hnone : s.uuid = none) : TokenFree s.text :=
  (hnone ▸ h.isClean.canonical).tokenFree

include hdotted

theorem decomposes : s.layout.Decomposes scheme.sections s.text := by
  obtain ⟨rows, hwrites, hplace⟩ :=
    (Scheme.layOut_eq_ok hdotted.sections_ne_nil hdotted.stop_ne_nil).mp h.layOut_eq
  rw [hplace]
  exact hwrites.decomposes hdotted.stop_ne_nil

theorem writes : Scheme.Writes scheme.sections (s.layout.rows s.text) s.text :=
  ((h.decomposes hdotted).unique _).mpr rfl

/-- The words of a text stand in it. -/
theorem infix_of_mem_rows : ∀ word ∈ (s.layout.rows s.text).flatten, word <:+: s.text :=
  (h.writes hdotted).inOrder.infix_of_mem

/-- Of two words only one has a token. -/
theorem pairwise_tokenFree :
    (s.layout.rows s.text).flatten.Pairwise fun a b => TokenFree a ∨ TokenFree b :=
  (h.writes hdotted).inOrder.pairwise.imp h.isClean.canonical.tokenFree_or

/-- If every section may have uuid words, the words that are uuids are those written as one. -/
theorem uuid_mem_meanings (huuids : ∀ sec ∈ scheme.sections, sec.uuids = true) :
    .uuid u ∈ s.meanings.flatten ↔
      ∃ word ∈ (s.layout.rows s.text).flatten, wordUuid? word = some u := by
  have hmem : .uuid u ∈ s.meanings.flatten ↔ u ∈ s.meanings.flatten.filterMap Meaning.uuid? := by
    rw [List.mem_filterMap]
    constructor
    · intro hu
      exact ⟨_, hu, rfl⟩
    · rintro ⟨m, hm, hu⟩
      cases m with
      | uuid v => exact Option.some.inj hu ▸ hm
      | text => cases hu
      | int value => cases hu
      | mark value => cases hu
  have hplaced : ∀ entry ∈ placedWords s.text (scheme.sections.zip s.layout),
      entry.1.uuid? entry.2 = wordUuid? entry.2 := by
    intro entry hentry
    obtain ⟨⟨sec, part⟩, hpart, hentry⟩ := List.mem_flatMap.mp hentry
    obtain ⟨word, -, rfl⟩ := List.mem_map.mp hentry
    rw [Section.uuid?, if_pos (huuids sec (List.of_mem_zip hpart).1)]
  rw [hmem, filterMap_uuid?_of_meansAll h.means, List.filterMap_congr hplaced,
    ← Scheme.map_snd_placedWords (h.decomposes hdotted).length_eq, ← List.mem_filterMap,
    List.filterMap_map]
  rfl

end IsDecoded

end Sectioned

end KeyExpansion
