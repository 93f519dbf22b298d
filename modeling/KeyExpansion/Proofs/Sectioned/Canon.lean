-- SUMMARY: What is left of a text without the words that tell instances apart.
import KeyExpansion.Proofs.Sectioned.Decoding
import KeyExpansion.Proofs.Text.Words
import KeyExpansion.Sectioned.Lineage
import Mathlib.Data.List.Pairwise

/-! # Structural identity

The structural identity of a text is parsed from what is left of it without uuid words and
generation marks. In a basic text that leaves no token if a word was the uuid, for a token
that is read lies in one word. A token that is part of a larger word stays. A generation mark
comes up only where the head is left with a colon at its end, which the marker then takes. The
words of a code reference mean nothing but their text, so a code reference is its own
identity. -/

namespace KeyExpansion

variable {sec : Section} {word text : List Char} {m : Meaning} {u : Uuid} {uuid : Option Uuid}

/-! ## The words that are left -/

/-- Does a word tell instances apart in its section? -/
def Section.isInstance (sec : Section) (word : List Char) : Bool :=
  (sec.uuid? word).isSome || (sec.marks && word == WordMark.gen.text)

/-- The words that are left of a section. -/
def Section.lasting (sec : Section) (words : List (List Char)) : List (List Char) :=
  words.filter fun word => !sec.isInstance word

theorem Section.Means.isInstance_eq (h : sec.Means word m) : m.isInstance = sec.isInstance word := by
  rw [Bool.eq_iff_iff, h.isInstance_iff, h.eq_gen_iff, Section.isInstance]
  simp [Option.isSome_iff_ne_none]

theorem lasting_of_means {words : List (List Char)} {meanings : List Meaning}
    (h : List.Forall₂ sec.Means words meanings) :
    ((words.zip meanings).filterMap fun (word, meaning) =>
      if meaning.isInstance then none else some word) = sec.lasting words := by
  rw [Section.lasting]
  induction h with
  | nil => rfl
  | @cons word meaning words meanings hm _ ih =>
    rw [List.zip_cons_cons, List.filterMap_cons, List.filter_cons, ih]
    simp only [hm.isInstance_eq]
    cases sec.isInstance word <;> rfl

namespace Scheme

/-- The text of sections with their words. Unlike `rebuild` it writes the marker of a section
without words. -/
def gather : List (Section × List (List Char)) → List Char
  | [] => []
  | [(sec, words)] => Text.join sec.separator words
  | (sec, words) :: next :: more =>
    Text.join sec.separator words ++ sec.stop.getD [] ++ gather (next :: more)

theorem Writes.gather_eq {sections : List Section} {rows : List (List (List Char))}
    (h : Writes sections rows text) (hrequired : ∀ sec ∈ sections, sec.required = true) :
    gather (sections.zip rows) = text := by
  induction h with
  | last split => exact split.join_eq
  | @cons sec next more words rows text rest takes later ih =>
    obtain ⟨hsec, hmore⟩ := List.forall_mem_cons.mp hrequired
    have hwords : words ≠ [] := by
      rintro rfl
      rw [takes.absent_of_nil.1] at hsec
      cases hsec
    have hwritten : sec.written words = Text.join sec.separator words ++ sec.stop.getD [] := by
      rw [Section.written, if_neg (by simpa using hwords)]
    rw [takes.text_eq, hwritten, ← ih hmore]
    cases later <;> rfl

end Scheme

namespace Sectioned

variable {scheme : Scheme}

theorem zip_zip_eq {α β γ : Type} (xs : List α) (ys : List β) (zs : List γ) :
    xs.zip (ys.zip zs) = ((xs.zip ys).zip zs).map fun ((x, y), z) => (x, y, z) := by
  induction xs generalizing ys zs with
  | nil => rfl
  | cons x xs ih =>
    cases ys with
    | nil => rfl
    | cons y ys =>
      cases zs with
      | nil => rfl
      | cons z zs => simp [ih]

/-- The text that is left of parts, if one knows which words are left of each. -/
theorem lastingText_eq_gather {s : Sectioned scheme} {parts : List (Section × Part)}
    {meanings : List (List Meaning)} (row : Section → Part → List (List Char))
    (h : List.Forall₂ (fun entry ms => s.lastingWords entry.2 ms = row entry.1 entry.2) parts meanings) :
    s.lastingText ((parts.zip meanings).map fun ((sec, part), ms) => (sec, part, ms)) =
      Scheme.gather (parts.map fun (sec, part) => (sec, row sec part)) := by
  induction h with
  | nil => rfl
  | @cons entry ms parts meanings hentry hparts ih =>
    obtain ⟨sec, part⟩ := entry
    cases hparts with
    | nil => exact congrArg (Text.join sec.separator) hentry
    | cons => exact congrArg₂ (Text.join sec.separator · ++ sec.stop.getD [] ++ ·) hentry ih

/-- The text that is left of parts with their meanings. -/
theorem lastingText_of_means {s : Sectioned scheme} {parts : List (Section × Part)}
    {meanings : List (List Meaning)} (h : List.Forall₂ (Section.MeansAll s.text) parts meanings) :
    s.lastingText ((parts.zip meanings).map fun ((sec, part), ms) => (sec, part, ms)) =
      Scheme.gather (parts.map fun (sec, part) => (sec, sec.lasting (s.wordsOf part))) :=
  lastingText_eq_gather (fun sec part => sec.lasting (s.wordsOf part))
    (h.imp fun _ _ hentry => lasting_of_means hentry)

theorem IsDecoded.lastingText_eq {s : Sectioned scheme} (h : s.IsDecoded) :
    s.lastingText (scheme.sections.zip (s.layout.zip s.meanings)) =
      Scheme.gather ((scheme.sections.zip (s.layout.rows s.text)).map
        fun (sec, words) => (sec, sec.lasting words)) := by
  rw [zip_zip_eq, lastingText_of_means h.means, Layout.rows, List.zip_map_right, List.map_map]
  rfl

/-- Without words that tell instances apart everything is left. -/
theorem IsDecoded.lastingText_eq_text {s : Sectioned scheme} (h : s.IsDecoded)
    (hdotted : scheme.IsDotted) (hkinds : ∀ sec ∈ scheme.sections, ∀ word, sec.isInstance word = false) :
    s.lastingText (scheme.sections.zip (s.layout.zip s.meanings)) = s.text := by
  have hall : ∀ entry ∈ scheme.sections.zip (s.layout.rows s.text),
      (entry.1, entry.1.lasting entry.2) = entry := by
    rintro ⟨sec, words⟩ hentry
    have hwords : sec.lasting words = words := by
      rw [Section.lasting, List.filter_eq_self]
      intro word _
      rw [hkinds sec (List.of_mem_zip hentry).1 word]
      rfl
    rw [hwords]
  rw [h.lastingText_eq, List.map_congr_left hall, List.map_id']
  exact (h.writes hdotted).gather_eq hdotted.required

/-- Code references are their own identity. -/
theorem canon_codeRef {fresh₀ : Uuid} {x : Sectioned .codeRef} (hfresh₀ : fresh₀.IsProper)
    (h : parse .codeRef fresh₀ text = .ok x) (fresh : Uuid) : x.canon fresh = .ok x := by
  have hdotted := Scheme.isDotted_codeRef
  have hkinds : ∀ sec ∈ Scheme.codeRef.sections, ∀ word, sec.isInstance word = false := by
    have hnone : ∀ sec ∈ Scheme.codeRef.sections, sec.uuids = false ∧ sec.marks = false := by decide
    intro sec hsec word
    obtain ⟨huuids, hmarks⟩ := hnone sec hsec
    simp [Section.isInstance, Section.uuid?, huuids, hmarks]
  rw [canon, (isDecoded_of_parse hdotted hfresh₀ h).lastingText_eq_text hdotted hkinds]
  exact parse_text_eq hdotted hfresh₀ h fresh

/-! ## Basic texts -/

/-- The words of the two sections of a basic text. -/
structure Halves (s : Sectioned .basic) (left right : List (List Char)) : Prop where
  rows_eq : s.layout.rows s.text = [left, right]
  text_eq : s.text = Text.join ['.'] left ++ "::".toList ++ Text.join ['.'] right
  first : Text.IsFirst "::".toList (Text.join ['.'] left)
  left_splits : Text.Splits ['.'] (Text.join ['.'] left) left
  right_splits : Text.Splits ['.'] (Text.join ['.'] right) right

theorem Halves.allWords_eq {s : Sectioned .basic} {left right : List (List Char)}
    (h : s.Halves left right) : s.allWords = left ++ right := by
  have hflat : s.allWords = (s.layout.rows s.text).flatten := List.flatMap_def
  rw [hflat, h.rows_eq]
  simp

theorem IsDecoded.exists_halves {s : Sectioned .basic} (h : s.IsDecoded) :
    ∃ left right, s.Halves left right := by
  have hwrites : Scheme.Writes [_, _] (s.layout.rows s.text) s.text :=
    h.writes Scheme.isDotted_basic
  generalize hrows : s.layout.rows s.text = rows at hwrites
  generalize htext : s.text = text at hwrites
  cases hwrites with
  | @cons _ _ _ left _ _ rest takes later =>
    cases later with
    | @last _ right body split =>
      cases takes with
      | unended stop => cases stop
      | absent stop optional => cases optional
      | ended stop first headSplit =>
        obtain rfl := Option.some.inj stop
        obtain rfl := headSplit.join_eq
        obtain rfl := split.join_eq
        exact ⟨left, right, hrows, htext, first, headSplit, split⟩

/-- The words that are left where every kind of word is allowed. -/
def lasting (words : List (List Char)) : List (List Char) :=
  words.filter fun word => (wordUuid? word).isNone && word != WordMark.gen.text

theorem mem_lasting {words : List (List Char)} :
    word ∈ lasting words ↔ word ∈ words ∧ wordUuid? word = none ∧ word ≠ WordMark.gen.text := by
  simp [lasting]

theorem dot_not_mem_lasting {words : List (List Char)} (h : Text.Splits ['.'] text words) :
    ∀ word ∈ lasting words, '.' ∉ word :=
  fun word hword => h.not_mem word (mem_lasting.mp hword).1

theorem lasting_eq (huuids : sec.uuids = true) (hmarks : sec.marks = true)
    (words : List (List Char)) : sec.lasting words = lasting words := by
  rw [Section.lasting, lasting]
  refine List.filter_congr ?_
  intro word _
  rw [Section.isInstance, Section.uuid?, huuids, hmarks]
  cases wordUuid? word <;> simp [bne]

/-- The text that is left of a basic text. -/
def lastingHalves (left right : List (List Char)) : List Char :=
  Text.join ['.'] (lasting left) ++ "::".toList ++ Text.join ['.'] (lasting right)

variable {left right : List (List Char)} {value : Option (List Char)} {fresh : Uuid}
  {x c : Sectioned .basic} {cleaned : Cleaned}

theorem Halves.canon_eq (h : x.Halves left right) (hx : x.IsDecoded) (fresh : Uuid) :
    x.canon fresh = parse .basic fresh (lastingHalves left right) := by
  rw [canon, hx.lastingText_eq, h.rows_eq]
  simp only [Scheme.basic, List.zip_cons_cons, List.zip_nil_right, List.map_cons, List.map_nil,
    lasting_eq]
  rfl

/-- A token that is read stands in one word. -/
theorem exists_word_of_token (hread : readTokenValue fresh value = some u)
    (hin : uuidToken value <:+: Text.join ['.'] left ++ "::".toList ++ Text.join ['.'] right) :
    ∃ word ∈ left ++ right, uuidToken value <:+: word := by
  obtain ⟨inner, hopen⟩ := uuidToken_eq_cons value
  obtain ⟨start, hclose⟩ := uuidToken_eq_concat value
  have hmarker : Text.Holds "::".toList (uuidToken value) := by
    refine ⟨?_, ?_, not_colons_uuidToken hread⟩
    · simp [hopen]
    · simp [hclose]
  have hdot : Text.Holds ['.'] (uuidToken value) := Text.holds_singleton (dot_not_mem_uuidToken hread)
  rcases hmarker.infix_or hin with hin | hin
  · obtain ⟨word, hword, hin⟩ := hdot.exists_word (uuidToken_ne_nil value) hin
    exact ⟨word, List.mem_append_left right hword, hin⟩
  · obtain ⟨word, hword, hin⟩ := hdot.exists_word (uuidToken_ne_nil value) hin
    exact ⟨word, List.mem_append_right left hword, hin⟩

theorem lasting_append (left right : List (List Char)) :
    lasting left ++ lasting right = lasting (left ++ right) :=
  (List.filter_append left right).symm

/-- The words of a text stand in it. -/
theorem Halves.infix_of_mem (h : x.Halves left right) (hx : x.IsDecoded) {word : List Char}
    (hword : word ∈ left ++ right) : word <:+: x.text := by
  apply hx.infix_of_mem_rows Scheme.isDotted_basic
  rw [h.rows_eq]
  simpa using hword

/-- What is left has no token, or a word that is left has that of the text. -/
theorem Halves.canonizes_cases (h : x.Halves left right) (hx : x.IsDecoded)
    (hcanon : Canonizes fresh (lastingHalves left right) cleaned) :
    cleaned.text = lastingHalves left right ∧
      (cleaned.uuid = none ∧ TokenFree (lastingHalves left right) ∨
        cleaned.uuid = x.uuid ∧ ∃ word ∈ lasting (left ++ right), ¬ TokenFree word) := by
  generalize htext : lastingHalves left right = text at hcanon ⊢
  cases hcanon with
  | plain free => exact ⟨rfl, .inl ⟨rfl, free⟩⟩
  | @token before after value u isValue read clear free =>
    have hin : uuidToken value <:+: lastingHalves left right := ⟨before, after, htext.symm⟩
    obtain ⟨word, hword, hin⟩ := exists_word_of_token read hin
    rw [lasting_append] at hword
    have hmem : word ∈ left ++ right := (mem_lasting.mp hword).1
    obtain ⟨front, back, heq⟩ := hin.trans (h.infix_of_mem hx hmem)
    obtain ⟨v, huuid, rfl, -, -⟩ := hx.isClean.canonical.cut isValue heq.symm
    have hproper : v.IsProper := (huuid ▸ hx.isClean.canonical).proper
    rw [hproper.readTokenValue_eq] at read
    obtain rfl := Option.some.inj read
    exact ⟨rfl, .inr ⟨huuid.symm, word, hword, fun hfree => hfree _ isValue hin⟩⟩

/-- What the structural identity is parsed from, and whether it has a uuid. -/
theorem Halves.canon_cases (h : x.Halves left right) (hx : x.IsDecoded) (hfresh : fresh.IsProper)
    (hc : x.canon fresh = .ok c) :
    c.IsDecoded ∧ c.text = Text.tidy '.' (lastingHalves left right) ∧
      (c.uuid = none ∧ TokenFree (lastingHalves left right) ∨
        c.uuid = x.uuid ∧ ∃ word ∈ lasting (left ++ right), ¬ TokenFree word) := by
  rw [h.canon_eq hx] at hc
  obtain ⟨hclean, hdecoded⟩ := clean_eq_of_parse Scheme.isDotted_basic hfresh hc
  obtain ⟨canonized, hcanon, heq⟩ := Scheme.isDotted_basic.clean_eq_ok hclean
  obtain ⟨htext, huuid⟩ : c.text = Text.tidy '.' canonized.text ∧ c.uuid = canonized.uuid := by
    simpa using heq
  obtain ⟨hsame, hcases⟩ := h.canonizes_cases hx hcanon
  exact ⟨hdecoded, hsame ▸ htext, huuid ▸ hcases⟩

/-! ## Tokens -/

theorem Halves.uuid_mem_meanings (h : x.Halves left right) (hx : x.IsDecoded) :
    .uuid u ∈ x.meanings.flatten ↔ ∃ word ∈ left ++ right, wordUuid? word = some u := by
  rw [hx.uuid_mem_meanings Scheme.isDotted_basic (by decide), h.rows_eq]
  simp

/-- If a word is the uuid, no other word has a token. -/
theorem Halves.tokenFree_of_uuid (h : x.Halves left right) (hx : x.IsDecoded)
    (hu : .uuid u ∈ x.meanings.flatten) : ∀ word ∈ lasting (left ++ right), TokenFree word := by
  intro word hword
  obtain ⟨other, hother, hread⟩ := (h.uuid_mem_meanings hx).mp hu
  obtain ⟨hmem, hnone, -⟩ := mem_lasting.mp hword
  have hpair := hx.pairwise_tokenFree Scheme.isDotted_basic
  rw [h.rows_eq] at hpair
  have hsymm : Std.Symm fun a b : List Char => TokenFree a ∨ TokenFree b := ⟨fun _ _ => Or.symm⟩
  have hne : word ≠ other := by
    rintro rfl
    rw [hread] at hnone
    cases hnone
  rcases hpair.forall (by simpa using hmem) (by simpa using hother) hne with hfree | hfree
  · exact hfree
  · rw [wordUuid?_of_tokenFree hfree] at hread
    cases hread

/-- If no word is the uuid, the token is in one of the words that are left. -/
theorem Halves.not_tokenFree_of_no_uuid (h : x.Halves left right) (hx : x.IsDecoded)
    (huuid : x.uuid = some u) (hnone : ∀ v, .uuid v ∉ x.meanings.flatten) :
    ¬ TokenFree (lastingHalves left right) := by
  have hcanonical : IsCanonical x.text (some u) := huuid ▸ hx.isClean.canonical
  have hproper := hcanonical.proper
  have hin := hcanonical.token_infix
  rw [h.text_eq] at hin
  obtain ⟨word, hword, hin⟩ := exists_word_of_token (hproper.readTokenValue_eq u) hin
  have hlasting : word ∈ lasting left ++ lasting right := by
    rw [lasting_append, mem_lasting]
    refine ⟨hword, ?_, ?_⟩
    · rw [Option.eq_none_iff_forall_ne_some]
      intro v hv
      exact hnone v ((h.uuid_mem_meanings hx).mpr ⟨word, hword, hv⟩)
    · rintro rfl
      have hopen : '<' ∈ WordMark.gen.text := hin.subset List.mem_cons_self
      revert hopen
      decide
  have hinside : word <:+: lastingHalves left right := by
    rw [lastingHalves]
    rcases List.mem_append.mp hlasting with hmem | hmem
    · rw [List.append_assoc]
      exact ((Text.inOrder_join ['.'] _).infix_of_mem word hmem).trans
        (List.prefix_append _ _).isInfix
    · exact ((Text.inOrder_join ['.'] _).infix_of_mem word hmem).trans
        (List.suffix_append _ _).isInfix
  intro hfree
  exact hfree _ hproper.isTokenValue ( hin.trans hinside)

/-- The uuid stays if it is no word. -/
theorem Halves.canon_uuid_eq (h : x.Halves left right) (hx : x.IsDecoded) (hfresh : fresh.IsProper)
    (hc : x.canon fresh = .ok c) (hnone : ∀ u, .uuid u ∉ x.meanings.flatten) : c.uuid = x.uuid := by
  obtain ⟨-, -, ⟨huuid, hfree⟩ | ⟨hsame, -⟩⟩ := h.canon_cases hx hfresh hc
  · cases hx' : x.uuid with
    | none => exact huuid
    | some u => exact absurd hfree (h.not_tokenFree_of_no_uuid hx hx' hnone)
  · exact hsame

/-- The uuid goes if it is a word. -/
theorem Halves.canon_uuid_eq_none (h : x.Halves left right) (hx : x.IsDecoded)
    (hfresh : fresh.IsProper) (hc : x.canon fresh = .ok c)
    (hgoes : x.uuid = none ∨ ∃ u, .uuid u ∈ x.meanings.flatten) : c.uuid = none := by
  obtain ⟨-, -, ⟨hnone, -⟩ | ⟨hsame, word, hword, hnot⟩⟩ := h.canon_cases hx hfresh hc
  · exact hnone
  · rcases hgoes with hnone | ⟨u, hu⟩
    · exact hsame.trans hnone
    · exact absurd (h.tokenFree_of_uuid hx hu word hword) hnot

/-! ## Generation marks -/

theorem isFirst_collapse {head : List Char} (h : Text.IsFirst "::".toList head) :
    Text.IsFirst "::".toList (Text.collapseRuns ['.'] head) := by
  have hcollapse : Text.collapseRuns ['.'] head ++ [':'] = Text.collapseRuns ['.'] (head ++ [':']) := by
    have happend : Text.collapseFrom ['.'] 0 0 (head ++ [':'] ++ [])
        = Text.collapseFrom ['.'] 0 0 head ++ [':'] ++ [] :=
      Text.collapseFrom_append_piece (by decide) (by decide)
    rw [List.append_nil, List.append_nil] at happend
    exact happend.symm
  intro hin
  have hin : "::".toList <:+: Text.collapseRuns ['.'] head ++ [':'] := hin
  rw [hcollapse, Text.collapseRuns_single] at hin
  exact h (infix_of_infix_collapse (by decide) (by decide) hin)

/-- The words of a basic text are those of what stands on both sides of its first marker. -/
theorem Halves.words_eq (h : x.Halves left right) {head body : List Char}
    (hfirst : Text.IsFirst "::".toList head) (htext : x.text = head ++ "::".toList ++ body) :
    left = Text.splitOn ['.'] head ∧ right = Text.splitOn ['.'] body := by
  have hcut := (Text.cut?_eq_some (by decide)).mpr ⟨htext, hfirst⟩
  rw [(Text.cut?_eq_some (by decide)).mpr ⟨h.text_eq, h.first⟩] at hcut
  obtain ⟨rfl, rfl⟩ : Text.join ['.'] left = head ∧ Text.join ['.'] right = body := by simpa using hcut
  exact ⟨h.left_splits.eq_splitOn, h.right_splits.eq_splitOn⟩

/-- The words of a tidied text, but for empty ones, are those of what stands on both sides of
its first marker. -/
theorem Halves.mem_iff_of_tidy (h : c.Halves left right) {head body : List Char}
    (hfirst : Text.IsFirst "::".toList head)
    (htext : c.text = Text.tidy '.' (head ++ "::".toList ++ body)) (hne : word ≠ []) :
    word ∈ left ++ right ↔ word ∈ Text.splitOn ['.'] head ++ Text.splitOn ['.'] body := by
  rw [Text.tidy_append (by decide) (by decide)] at htext
  obtain ⟨rfl, rfl⟩ := h.words_eq (isFirst_collapse hfirst) htext
  have hhead := @Text.filter_splitOn_collapse '.' head
  have hbody := @Text.filter_splitOn_tidy '.' body
  rw [List.mem_append, List.mem_append]
  exact or_congr
    ⟨Text.mem_splitOn_of_filter hne hhead, Text.mem_splitOn_of_filter hne hhead.symm⟩
    ⟨Text.mem_splitOn_of_filter hne hbody, Text.mem_splitOn_of_filter hne hbody.symm⟩

/-- Where the first marker of words joined at a marker is. A colon before it may have been
part of the last word of the head; all other words are what they were. -/
structure FirstMarker (left right : List (List Char)) (head body : List Char) : Prop where
  text : Text.join ['.'] left ++ "::".toList ++ Text.join ['.'] right = head ++ "::".toList ++ body
  first : Text.IsFirst "::".toList head
  words : ∀ word, word ≠ [] → word.head? ≠ some ':' →
    word ∈ Text.splitOn ['.'] head ++ Text.splitOn ['.'] body →
    word ∈ left ++ right ∨ left.getLast? = some (word ++ [':'])

section FirstMarker

variable (hdotLeft : ∀ word ∈ left, '.' ∉ word) (hdotRight : ∀ word ∈ right, '.' ∉ word)
include hdotLeft hdotRight

theorem firstMarker_of_isFirst (hfirst : Text.IsFirst "::".toList (Text.join ['.'] left)) :
    FirstMarker left right (Text.join ['.'] left) (Text.join ['.'] right) := by
  refine ⟨rfl, hfirst, ?_⟩
  intro word hne _ hword
  refine .inl ?_
  rcases List.mem_append.mp hword with hword | hword
  · exact List.mem_append_left _ (Text.mem_splitOn_join hdotLeft hne hword)
  · exact List.mem_append_right _ (Text.mem_splitOn_join hdotRight hne hword)

theorem firstMarker_of_colon {head : List Char} (hhead : head ++ [':'] = Text.join ['.'] left)
    (hleft : ¬ "::".toList <:+: Text.join ['.'] left) :
    FirstMarker left right head (':' :: Text.join ['.'] right) := by
  have hnonempty : left ≠ [] := by
    rintro rfl
    simp [Text.join] at hhead
  obtain ⟨early, last, hsplit, hsplitColon⟩ :=
    Text.splitOn_concat_other (c := ':') (d := '.') (by decide) head
  rw [hhead, ← (Text.splits_join hnonempty hdotLeft).eq_splitOn] at hsplitColon
  refine ⟨by simp [← hhead], fun hin => hleft (hhead ▸ hin), ?_⟩
  intro word hne hcolon hword
  rw [hsplit, Text.splitOn_other (by decide)] at hword
  rcases List.mem_append.mp hword with hword | hword
  · rcases List.mem_append.mp hword with hword | hword
    · exact .inl (List.mem_append_left _ (hsplitColon ▸ List.mem_append_left _ hword))
    · obtain rfl := List.mem_singleton.mp hword
      exact .inr (by simp [hsplitColon])
  · rcases Text.mem_consFirst hword with hword | hword
    · exact absurd hword hcolon
    · exact .inl (List.mem_append_right _ (Text.mem_splitOn_join hdotRight hne hword))

theorem exists_firstMarker (hleft : ¬ "::".toList <:+: Text.join ['.'] left) :
    ∃ head body, FirstMarker left right head body := by
  by_cases hfirst : Text.IsFirst "::".toList (Text.join ['.'] left)
  · exact ⟨_, _, firstMarker_of_isFirst hdotLeft hdotRight hfirst⟩
  have hends : [':', ':'] <:+: Text.join ['.'] left ++ [':'] := not_not.mp hfirst
  rcases List.infix_concat_iff.mp hends with hends | hends
  · obtain ⟨head, hhead⟩ : [':'] <:+ Text.join ['.'] left :=
      List.suffix_append_self_iff.mp (show [':'] ++ [':'] <:+ Text.join ['.'] left ++ [':'] from hends)
    exact ⟨_, _, firstMarker_of_colon hdotLeft hdotRight hhead hleft⟩
  · exact absurd hends hleft

end FirstMarker

/-- The words that are left have no marker in them. -/
theorem Halves.not_colons (h : x.Halves left right) :
    ¬ "::".toList <:+: Text.join ['.'] (lasting left) := by
  intro hin
  obtain ⟨word, hword, hin⟩ :=
    (Text.holds_singleton (c := '.') (by decide)).exists_word (by decide) hin
  have hmem := (mem_lasting.mp hword).1
  exact h.first.not_infix (hin.trans ((Text.inOrder_join ['.'] left).infix_of_mem word hmem))

/-- The words that are left are no generation marks, and no new ones come up, except from a last
word of the head that ends in a colon. -/
theorem Halves.gen_not_mem {left' right' : List (List Char)} (h : x.Halves left right)
    (hc : c.Halves left' right') (htext : c.text = Text.tidy '.' (lastingHalves left right))
    (hlast : (lasting left).getLast? ≠ some (WordMark.gen.text ++ [':'])) :
    WordMark.gen.text ∉ left' ++ right' := by
  have hdotLeft := dot_not_mem_lasting h.left_splits
  have hdotRight := dot_not_mem_lasting h.right_splits
  obtain ⟨head, body, hmarker⟩ := exists_firstMarker hdotLeft hdotRight h.not_colons
  rw [lastingHalves, hmarker.text] at htext
  intro hgen
  have hword := (hc.mem_iff_of_tidy hmarker.first htext (by decide)).mp hgen
  rcases hmarker.words _ (by decide) (by decide) hword with hmem | hcolon
  · rw [lasting_append, mem_lasting] at hmem
    exact hmem.2.2 rfl
  · exact hlast hcolon

/-- The colon at the end of the last word of the head is taken for one of the marker, and what is
left of the word is a word. -/
theorem Halves.mem_of_colon {left' right' : List (List Char)} (h : x.Halves left right)
    (hc : c.Halves left' right') (htext : c.text = Text.tidy '.' (lastingHalves left right))
    (hne : word ≠ []) (hlast : (lasting left).getLast? = some (word ++ [':'])) :
    word ∈ left' ++ right' := by
  have hdotLeft := dot_not_mem_lasting h.left_splits
  have hdotRight := dot_not_mem_lasting h.right_splits
  obtain ⟨early, hearly⟩ := List.getLast?_eq_some_iff.mp hlast
  have hjoin : early.flatMap (· ++ ['.']) ++ word ++ [':'] = Text.join ['.'] (lasting left) := by
    rw [hearly, Text.join_append early (List.cons_ne_nil _ _), Text.join_singleton, List.append_assoc]
  have hmarker := firstMarker_of_colon hdotLeft hdotRight hjoin h.not_colons
  rw [lastingHalves, hmarker.text] at htext
  refine (hc.mem_iff_of_tidy hmarker.first htext hne).mpr (List.mem_append_left _ ?_)
  -- Without the colon the words of the head are the same but for the last one.
  obtain ⟨front, last, hsplit, hsplitColon⟩ := Text.splitOn_concat_other (c := ':') (d := '.')
    (by decide) (early.flatMap (· ++ ['.']) ++ word)
  have hnonempty : lasting left ≠ [] := by simp [hearly]
  rw [hjoin, ← (Text.splits_join hnonempty hdotLeft).eq_splitOn, hearly] at hsplitColon
  obtain rfl : word = last := by simpa using congrArg List.getLast? hsplitColon
  simp [hsplit]

theorem Halves.gen_mem_iff {left' right' : List (List Char)} (h : x.Halves left right)
    (hc : c.Halves left' right') (htext : c.text = Text.tidy '.' (lastingHalves left right)) :
    WordMark.gen.text ∈ left' ++ right' ↔
      (lasting left).getLast? = some (WordMark.gen.text ++ [':']) :=
  ⟨not_imp_not.mp fun hlast => h.gen_not_mem hc htext hlast, h.mem_of_colon hc htext (by decide)⟩

/-! ## What canonical texts lack -/

/-- The words that are left of the head of a basic text. -/
def lastingHead (s : Sectioned .basic) : List (List Char) :=
  match s.layout, s.meanings with
  | part :: _, meanings :: _ => s.lastingWords part meanings
  | _, _ => []

theorem Halves.lastingHead_eq (h : x.Halves left right) (hx : x.IsDecoded) :
    x.lastingHead = lasting left := by
  obtain ⟨part, parts, hlayout, hleft, -⟩ := List.map_eq_cons_iff.mp h.rows_eq
  have hmeans := hx.means
  rw [hlayout] at hmeans
  cases hmeanings : x.meanings with
  | nil =>
    rw [hmeanings] at hmeans
    cases hmeans
  | cons ms meanings =>
    rw [hmeanings] at hmeans
    obtain ⟨hhead, -⟩ := List.forall₂_cons.mp hmeans
    have hlasting := lasting_of_means hhead
    rw [lastingHead, hlayout, hmeanings]
    refine hlasting.trans ?_
    rw [lasting_eq rfl rfl]
    exact congrArg lasting hleft

/-- What a basic text and its structural identity have to do with each other. No token is left
exactly if there was none or it was a word; one that is part of a larger word stays. A generation
mark is left exactly if the head is left with `$gen$:` as its last word, whose colon then belongs
to the marker. -/
structure IsStripped (x c : Sectioned .basic) : Prop where
  no_token_iff :
    c.uuid = none ∧ TokenFree c.text ↔ x.uuid = none ∨ ∃ u, .uuid u ∈ x.meanings.flatten
  embedded : (∀ u, .uuid u ∉ x.meanings.flatten) → c.uuid = x.uuid
  gen_iff : WordMark.gen.text ∈ c.allWords ↔
    x.lastingHead.getLast? = some (WordMark.gen.text ++ [':'])

theorem isStripped_of_canon (hx : x.IsDecoded) (hfresh : fresh.IsProper)
    (hc : x.canon fresh = .ok c) : IsStripped x c := by
  obtain ⟨left, right, h⟩ := hx.exists_halves
  obtain ⟨hdecoded, htext, -⟩ := h.canon_cases hx hfresh hc
  obtain ⟨left', right', h'⟩ := hdecoded.exists_halves
  refine ⟨⟨?_, ?_⟩, h.canon_uuid_eq hx hfresh hc, ?_⟩
  · rintro ⟨hnone, -⟩
    by_cases hu : ∃ u, .uuid u ∈ x.meanings.flatten
    · exact .inr hu
    · exact .inl ((h.canon_uuid_eq hx hfresh hc (not_exists.mp hu)).symm.trans hnone)
  · intro hgoes
    have hnone := h.canon_uuid_eq_none hx hfresh hc hgoes
    exact ⟨hnone, hdecoded.tokenFree hnone⟩
  · rw [h'.allWords_eq, h.lastingHead_eq hx]
    exact h.gen_mem_iff h' htext

/-- When the structural identity of a text tells no instances apart. A basic text loses the words
that are uuids and generation marks and no others, and a code reference loses nothing. -/
theorem canon_strips {fresh₀ : Uuid} (hfresh₀ : fresh₀.IsProper) (hfresh : fresh.IsProper) :
    (∀ (x c : Sectioned .basic), parse .basic fresh₀ text = .ok x → x.canon fresh = .ok c →
      IsStripped x c) ∧
    (∀ x : Sectioned .codeRef, parse .codeRef fresh₀ text = .ok x → x.canon fresh = .ok x) := by
  constructor
  · intro x c h hc
    exact isStripped_of_canon (isDecoded_of_parse Scheme.isDotted_basic hfresh₀ h) hfresh hc
  · intro x h
    exact canon_codeRef hfresh₀ h fresh

theorem canon_strips_generation :
    ∃ x c : Sectioned .basic, parse .basic (Uuid.ofSeed 1) "$gen$.a::b..$gen$.<uuid>.1".toList = .ok x ∧
      x.canon (Uuid.ofSeed 2) = .ok c ∧ c.text = "a::b..1".toList ∧ IsStripped x c := by
  have hparse : parse .basic (Uuid.ofSeed 1) "$gen$.a::b..$gen$.<uuid>.1".toList = .ok _ := rfl
  refine ⟨_, _, hparse, rfl, rfl, ?_⟩
  exact (canon_strips (Uuid.isProper_ofSeed 1) (Uuid.isProper_ofSeed 2)).1 _ _ hparse rfl

/-- A token in a larger word stays, code references keep all their words, and a colon at the
end of the head may go to the marker. -/
theorem canon_keeps_instances :
    (∃ x c : Sectioned .basic, parse .basic (Uuid.ofSeed 1) "a::v<uuid>".toList = .ok x ∧
      x.canon (Uuid.ofSeed 2) = .ok c ∧ c.uuid = some (Uuid.ofSeed 1) ∧ ¬ TokenFree c.text) ∧
    (∃ x : Sectioned .codeRef, parse .codeRef (Uuid.ofSeed 1) "g::m:$gen$.<uuid>".toList = .ok x ∧
      x.canon (Uuid.ofSeed 2) = .ok x ∧ x.uuid = some (Uuid.ofSeed 1) ∧
      WordMark.gen.text ∈ x.allWords) ∧
    (∃ x c : Sectioned .basic, parse .basic (Uuid.ofSeed 1) "$gen$:.<uuid>::b".toList = .ok x ∧
      x.canon (Uuid.ofSeed 2) = .ok c ∧ WordMark.gen.text ∈ c.allWords) := by
  refine ⟨⟨_, _, rfl, rfl, rfl, ?_⟩, ⟨_, rfl, rfl, rfl, ?_⟩, ⟨_, _, rfl, rfl, ?_⟩⟩
  · exact fun hfree => absurd (cutToken?_eq_none.mpr hfree) (by decide)
  · decide
  · decide

end Sectioned

end KeyExpansion
