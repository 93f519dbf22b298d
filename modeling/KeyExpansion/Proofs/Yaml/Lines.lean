-- SUMMARY: The tokens of mappings that are written line by line.
import KeyExpansion.Proofs.Yaml.Quoted

/-! # Lines of a mapping

A key with a plain text, its colon and a scalar on the same line become the tokens of one
entry, wherever the line stands. Reading takes one step for each token, and there are always
characters enough for the steps. -/

namespace KeyExpansion.Yaml

namespace Lexer

variable {l m n : Lexer} {P Q : Lexer → Prop} {g : Glyph} {gs : List Glyph}

/-! ## Steps -/

/-- Reading on from here gives this, with a step for each character that is left. -/
def Reads (l : Lexer) (result : Option Lexer) : Prop :=
  ∀ count, l.rest.length < count → run count l = result

/-- Reading fails, or goes on from a state with `Q`. -/
def Goes (l : Lexer) (Q : Lexer → Prop) : Prop :=
  Reads l none ∨ ∃ m, Q m ∧ ∀ result, Reads m result → Reads l result

theorem Goes.refl (h : Q l) : Goes l Q :=
  .inr ⟨l, h, fun _ hreads => hreads⟩

theorem Goes.trans (h : Goes l P) (hP : ∀ m, P m → Goes m Q) : Goes l Q := by
  rcases h with hfails | ⟨m, hm, hfrom⟩
  · exact .inl hfails
  · rcases hP m hm with hfails | ⟨n, hn, hon⟩
    · exact .inl (hfrom none hfails)
    · exact .inr ⟨n, hn, fun result hreads => hfrom result (hon result hreads)⟩

/-- The next token, once what is behind it has been given up and closed. -/
def step (l : Lexer) (g : Glyph) (gs : List Glyph) : Option Lexer :=
  (l.dropStale g).bind fun l => (l.closeBlocks g.column).token g gs

theorem run_step {count : Nat} (hskip : l.skip false l.rest = m) (hrest : m.rest = g :: gs) :
    run (count + 1) l = (m.step g gs).bind (run count) := by
  rw [run]
  simp only [hskip, hrest, step]
  cases m.dropStale g <;> rfl

theorem goes_step (hskip : l.skip false l.rest = m) (hrest : m.rest = g :: gs)
    (hstep : m.step g gs = some n) (hlength : n.rest.length < l.rest.length) : Goes l (· = n) := by
  refine .inr ⟨n, rfl, ?_⟩
  intro result hreads count hcount
  obtain ⟨count, rfl⟩ := Nat.exists_eq_succ_of_ne_zero (Nat.ne_zero_of_lt hcount)
  rw [Nat.succ_eq_add_one, run_step hskip hrest, hstep]
  exact hreads count (by omega)

theorem fails_step (hskip : l.skip false l.rest = m) (hrest : m.rest = g :: gs)
    (hstep : m.step g gs = none) : Goes l Q := by
  refine .inl ?_
  intro count hcount
  obtain ⟨count, rfl⟩ := Nat.exists_eq_succ_of_ne_zero (Nat.ne_zero_of_lt hcount)
  rw [Nat.succ_eq_add_one, run_step hskip hrest, hstep]
  rfl

theorem dropStale_of_none (h : ∀ key ∈ l.keys, key = none) : l.dropStale g = some l := by
  have hstale : l.keys.any (·.any fun key => key.required && isStale g key) = false := by
    simp only [List.any_eq_false, Bool.not_eq_true]
    intro key hkey
    rw [h key hkey]
    rfl
  have hkeys : l.keys.map (·.filter (!isStale g ·)) = l.keys := by
    refine (List.map_congr_left fun key hkey => ?_).trans (List.map_id l.keys)
    rw [h key hkey]
    rfl
  rw [dropStale, hstale, hkeys]
  rfl

theorem closeBlocks_of_le {column : Int} (h : l.indent ≤ column) : l.closeBlocks column = l := by
  rw [closeBlocks]
  split
  · rfl
  · cases houter : l.outer with
    | nil => rfl
    | cons parent outer => rw [closeBlocks.go, if_neg (by omega)]

/-- Where no key may have started and no block ends, the token follows. -/
theorem step_eq (hkeys : ∀ key ∈ l.keys, key = none) (hindent : l.indent ≤ g.column) :
    l.step g gs = l.token g gs := by
  rw [step, dropStale_of_none hkeys, Option.bind_some, closeBlocks_of_le hindent]

/-! ## Keys -/

variable {line column index : Nat} {front : List Glyph} {cs rest : List Char} {next : Char}
  {indent : Int} {outer : List Int} {keys : List (Option PossibleKey)} {allowed : Bool}
  {tokens : List Token}

/-- A plain text makes a plain scalar. -/
theorem token_plain (hflow : l.inFlow = false)
    (h : isSpace g.char = false ∧ indicators.contains g.char = false ∨
      ['-', '?', ':'].contains g.char = true ∧ atSpace gs = false)
    (hmark : atDocumentMark (g :: gs) = false) :
    l.token g gs = l.scalar g true (readPlain false (l.indent + 1) [] .empty (g :: gs)) := by
  rw [atDocumentMark, Bool.or_eq_false_iff] at hmark
  rw [token]
  simp only [hmark, hflow]
  rcases h with ⟨hspace, hindicator⟩ | ⟨hindicator, hspace⟩
  · have hstarts : startsPlain false g.char gs = true := by
      simp only [startsPlain, hspace, hindicator, Bool.not_false, Bool.and_self, Bool.true_or]
    simp only [indicators, List.contains_cons, List.contains_nil, Bool.or_false,
      Bool.or_eq_false_iff] at hindicator
    simp [hindicator, hstarts]
  · have hnext : nextIs [' ', '\t'] gs = false := by
      cases gs with
      | nil => rfl
      | cons g gs =>
        simp only [atSpace, isSpace, isBlank, Bool.or_eq_false_iff, beq_eq_false_iff_ne] at hspace
        simp [nextIs, hspace.1]
    simp only [List.contains_cons, List.contains_nil, Bool.or_false, Bool.or_eq_true, beq_iff_eq]
      at hindicator
    rcases hindicator with hc | hc | hc <;> simp [hc, hspace, startsPlain, hnext]

/-- The colon behind a key in front of white space. -/
theorem token_colon (hflow : l.inFlow = false) (hchar : g.char = ':') (hspace : atSpace gs = true) :
    l.token g gs = l.colon g gs := by
  simp [token, atMarker_ne, hflow, hchar, hspace]

/-- The block of a mapping at a column is open, or it is opened in front of its first key. -/
inductive Opens (column : Nat) : Int → List Int → List Token → List Int → List Token → Prop where
  | already (outer : List Int) (tokens : List Token) : Opens column column outer tokens outer tokens
  | first {indent : Int} (outer : List Int) (tokens : List Token) (further : indent < column) :
      Opens column indent outer tokens (indent :: outer) (.openMapping :: tokens)

theorem Opens.le {outer' : List Int} {tokens' : List Token}
    (h : Opens column indent outer tokens outer' tokens') : indent ≤ column := by
  cases h with
  | already => exact Int.le_refl _
  | first _ _ further => exact Int.le_of_lt further

/-- A plain key is taken with its colon. -/
theorem colon_key {outer' : List Int} {tokens' : List Token} {key : PossibleKey} {t : Token}
    (h : Opens column indent outer tokens outer' tokens') (hbefore : key.before = tokens.length)
    (hcolumn : key.column = column) :
    (⟨front, indent, outer, [some key], allowed, t :: tokens⟩ : Lexer).colon g gs
      = some ⟨gs, column, outer', [none], false, .value :: t :: .key :: tokens'⟩ := by
  have hkey : ((⟨front, indent, outer, [some key], allowed, t :: tokens⟩ : Lexer).insert key.before .key)
      = ⟨front, indent, outer, [some key], allowed, t :: .key :: tokens⟩ := by
    simp [insert, hbefore]
  rw [colon]
  simp only [currentKey?, List.head?_cons, Option.join_some, hkey]
  cases h with
  | already =>
    rw [openBlock, if_neg (by simp [hcolumn])]
    rfl
  | first _ _ further =>
    rw [openBlock, if_pos (by simp [inFlow, hcolumn, further])]
    have hlater : tokens.length + 1 + 1 - tokens.length = 2 := by omega
    simp [insert, hbefore, hcolumn, setKey, emit, hlater]

theorem noteKey_allowed :
    (⟨front, indent, outer, [none], true, tokens⟩ : Lexer).noteKey g = some ⟨front, indent, outer,
      [some ⟨indent == g.column, tokens.length, g.line, g.column, g.index⟩], true, tokens⟩ := by
  simp [noteKey, dropKey, currentKey?, setKey, inFlow]

/-- The colon behind a possible key, unless the key is too long. -/
theorem goes_colon {t : Token} {key : PossibleKey} {start : Nat} {outer' : List Int}
    {tokens' : List Token} (hnext : isSpace next = true) (hcolumn : start ≤ column)
    (hkey : key.before = tokens.length ∧ key.column = start)
    (hopens : Opens start indent outer tokens outer' tokens') :
    Goes ⟨place line column index (':' :: next :: rest), indent, outer, [some key], false, t :: tokens⟩
      (· = ⟨place line (column + 1) (index + 1) (next :: rest), start, outer', [none], false,
        .value :: t :: .key :: tokens'⟩) := by
  have hskip (keys : List (Option PossibleKey)) :
      (⟨place line column index (':' :: next :: rest), indent, outer, keys, false, t :: tokens⟩
        : Lexer).skip false (place line column index (':' :: next :: rest))
      = ⟨place line column index (':' :: next :: rest), indent, outer, keys, false, t :: tokens⟩ :=
    @skip_goesOn line column index (':' :: next :: rest) (column + 1) _ ⟨rfl, by decide, by omega⟩
  have hrest : place line column index (':' :: next :: rest)
      = ⟨':', line, column, index⟩ :: place line (column + 1) (index + 1) (next :: rest) :=
    place_cons rfl
  have hindent : indent ≤ (column : Int) := Int.le_trans hopens.le (by omega)
  have hspace : atSpace (place line (column + 1) (index + 1) (next :: rest)) = true := hnext
  by_cases hstale : isStale ⟨':', line, column, index⟩ key = true
  · apply fails_step (hskip _) hrest
    rw [step]
    by_cases hrequired : key.required = true
    · simp [dropStale, hstale, hrequired]
    · rw [Bool.not_eq_true] at hrequired
      simp only [dropStale, List.any_cons, List.any_nil, Option.any_some, hrequired, Bool.false_and,
        Bool.or_self, Bool.false_eq_true, if_false, List.map_cons, List.map_nil, Option.filter_some,
        hstale, Bool.not_true, Option.bind_some]
      rw [closeBlocks_of_le hindent, token_colon rfl rfl hspace]
      rfl
  · rw [Bool.not_eq_true] at hstale
    apply goes_step (hskip _) hrest
    · rw [step]
      simp only [dropStale, List.any_cons, List.any_nil, Option.any_some, hstale, Bool.and_false,
        Bool.or_self, Bool.false_eq_true, if_false, List.map_cons, List.map_nil, Option.filter_some,
        Bool.not_false, if_true, Option.bind_some]
      rw [closeBlocks_of_le hindent, token_colon rfl rfl hspace]
      exact colon_key hopens hkey.1 hkey.2
    · simp [length_place]

/-- A plain key and its colon are read, unless the key is too long. -/
theorem goes_key {name : List Char} {outer' : List Int} {tokens' : List Token}
    (hskip : l.skip false l.rest = ⟨place line column index (name ++ ':' :: next :: rest),
      indent, outer, [none], true, tokens⟩)
    (hlength : (name ++ ':' :: next :: rest).length ≤ l.rest.length)
    (hname : isPlain ':' name = true) (hnext : isSpace next = true)
    (hmark : atDocumentMark (place line column index (name ++ ':' :: next :: rest)) = false)
    (hopens : Opens column indent outer tokens outer' tokens') :
    Goes l (· = ⟨place line (column + name.length + 1) (index + name.length + 1) (next :: rest),
      column, outer', [none], false, .value :: .scalar name true :: .key :: tokens'⟩) := by
  obtain ⟨hstarts, hplain⟩ := isPlain_iff.mp hname
  cases name with
  | nil => cases hstarts
  | cons c cs =>
    have hbreak := isBreak_of_isLineBreak (hplain.line c List.mem_cons_self)
    have hread := @readPlain_append line column index (c :: cs) (next :: rest) ':' (indent + 1) []
      .empty (List.cons_ne_nil c cs) hplain rfl (fun h => absurd rfl h) hmark
    rw [readPlain_colon hnext] at hread
    rw [List.cons_append] at hskip hlength hmark hread
    rw [place_cons hbreak] at hmark
    have hscalar : Goes l (· = ⟨place line (column + (c :: cs).length) (index + (c :: cs).length)
        (':' :: next :: rest), indent, outer,
        [some ⟨indent == column, tokens.length, line, column, index⟩], false,
        .scalar (c :: cs) true :: tokens⟩) := by
      apply goes_step hskip (place_cons hbreak)
      · rw [step_eq (by simp) hopens.le, token_plain rfl (starts_of_opensPlain hstarts)
          hmark, scalar, noteKey_allowed, ← place_cons hbreak, hread]
        simp [emit]
      · simp only [length_place, List.length_append, List.length_cons] at hlength ⊢
        omega
    refine hscalar.trans ?_
    rintro _ rfl
    exact goes_colon hnext (by omega) ⟨rfl, rfl⟩ hopens

/-! ## Values -/

/-- The state is in front of a text in a column, where a key may start. -/
structure Stands (l : Lexer) (column : Nat) (text : List Char) (indent : Int) (outer : List Int)
    (tokens : List Token) : Prop where
  skip_eq : ∃ line index,
    l.skip false l.rest = ⟨place line column index text, indent, outer, [none], true, tokens⟩
  length_le : text.length ≤ l.rest.length

variable {between value : List Char}

/-- A line end and a gap are skipped. -/
theorem stands_lineEnd {bound : Int} (hgap : isGap true false between = true)
    (hrest : GoesOn bound (endOf 0 0 between).2 rest) :
    Stands ⟨place line column index ('\n' :: (between ++ rest)), indent, outer, [none], allowed, tokens⟩
      (endOf 0 0 between).2 rest indent outer tokens := by
  have hcolumn : (endOf line column ('\n' :: between)).2 = (endOf 0 0 between).2 :=
    endOf_snd (line + 1) 0 between
  rw [← hcolumn] at hrest ⊢
  have hgaps : IsGap true false ('\n' :: between) := .lineEnd rfl (.of_isGap hgap)
  have hskip := @hgaps.skip line column index rest bound _ _ _
    ⟨place line column index ('\n' :: between ++ rest), indent, outer, [none], allowed, tokens⟩
    rfl hrest
  have hallowed : (allowed || ('\n' :: between).any isBreak) = true := by simp [isBreak]
  rw [hallowed] at hskip
  refine ⟨⟨_, _, hskip⟩, ?_⟩
  · simp only [length_place, List.length_cons, List.length_append]
    omega

theorem noteKey_forbidden :
    (⟨front, indent, outer, keys, false, tokens⟩ : Lexer).noteKey g
      = some ⟨front, indent, outer, keys, false, tokens⟩ := rfl

/-- The blank in front of a value is skipped. -/
theorem skip_blank {c : Char} (h : GoesOn (column + 2) (column + 1) (c :: rest)) :
    (⟨place line column index (' ' :: c :: rest), indent, outer, keys, false, tokens⟩ : Lexer).skip false
        (place line column index (' ' :: c :: rest))
      = ⟨place line (column + 1) (index + 1) (c :: rest), indent, outer, keys, false, tokens⟩ := by
  have hbreak : isBreak ' ' = false := by decide
  rw [place_cons hbreak, skip, if_neg (by simp [hbreak]), if_neg (by simp), if_pos (by simp)]
  exact skip_goesOn h

/-- On the line of a key its value has been read up to here. -/
def IsBehind (rest : List Char) (indent : Int) (outer : List Int) (tokens : List Token) (l : Lexer) :
    Prop :=
  ∃ line column index, l = ⟨place line column index rest, indent, outer, [none], false, tokens⟩

/-- A value between quotes is read up to the last one, or not at all. -/
theorem goes_quoted {c : Char} {written : List Char} (reader : List Glyph → Option Read)
    (hindent : indent ≤ column) (hc : isSpace c = false ∧ c ≠ '#')
    (htoken : ∀ (l : Lexer) (g : Glyph) (gs : List Glyph), l.inFlow = false → g.char = c →
      l.token g gs = l.scalar g false (reader gs))
    (hlength : rest.length ≤ written.length)
    (hread : ReadsOrFails cs rest (reader (place line (column + 2) (index + 2) written))) :
    Goes ⟨place line column index (' ' :: c :: written), indent, outer, [none], false, tokens⟩
      (IsBehind rest indent outer (.scalar cs false :: tokens)) := by
  have hbreak : isBreak c = false := (Bool.or_eq_false_iff.mp hc.1).2
  have hskip := @skip_blank line column index written indent outer [none] tokens c ⟨hc.1, hc.2, by omega⟩
  rcases hread with hnone | ⟨line', column', index', hsome⟩
  · apply fails_step hskip (place_cons hbreak)
    rw [step_eq (by simp) (by simp; omega), htoken _ _ _ rfl rfl, scalar, noteKey_forbidden, hnone]
    rfl
  · refine Goes.trans (goes_step hskip (place_cons hbreak) (n := ⟨place line' column' index' rest,
      indent, outer, [none], false, .scalar cs false :: tokens⟩) ?_ ?_) ?_
    · rw [step_eq (by simp) (by simp; omega), htoken _ _ _ rfl rfl, scalar, noteKey_forbidden, hsome]
      rfl
    · simp only [length_place, List.length_cons]
      omega
    · rintro _ rfl
      exact .refl ⟨line', column', index', rfl⟩

/-- A text between double quotes. -/
theorem goes_double (hindent : indent ≤ column) :
    Goes ⟨place line column index (' ' :: '"' :: (cs.flatMap escapeDouble ++ '"' :: rest)),
        indent, outer, [none], false, tokens⟩
      (IsBehind rest indent outer (.scalar cs false :: tokens)) := by
  apply goes_quoted (readDouble .none [] .empty) hindent (by decide)
  · intro l g gs hflow hchar
    simp [token, atMarker_ne, hflow, hchar]
  · simp
    omega
  · exact .inr ⟨_, _, _, readDouble_doubleQuoted (by omega) rfl⟩

/-- A text between single quotes. -/
theorem goes_single (hindent : indent ≤ column) (h : StaysSingle cs) (hrest : rest.head? ≠ some '\'') :
    Goes ⟨place line column index (' ' :: '\'' :: (cs.flatMap escapeSingle ++ '\'' :: rest)),
        indent, outer, [none], false, tokens⟩
      (IsBehind rest indent outer (.scalar cs false :: tokens)) := by
  apply goes_quoted (readSingle false [] .empty) hindent (by decide)
  · intro l g gs hflow hchar
    simp [token, atMarker_ne, hflow, hchar]
  · simp
    omega
  · exact readSingle_singleQuoted h trivial hrest

/-- A flow collection without items. -/
theorem goes_emptyFlow {first last : Char} {opening closing : Token} (hindent : indent ≤ column)
    (hfirst : isSpace first = false ∧ first ≠ '#') (hlast : isSpace last = false ∧ last ≠ '#')
    (hopen : ∀ (l : Lexer) (g : Glyph) (gs : List Glyph), l.inFlow = false → g.char = first →
      l.token g gs = l.openFlow g gs opening)
    (hclose : ∀ (l : Lexer) (g : Glyph) (gs : List Glyph), g.char = last →
      l.token g gs = l.closeFlow gs closing) :
    Goes ⟨place line column index (' ' :: first :: last :: rest), indent, outer, [none], false, tokens⟩
      (IsBehind rest indent outer (closing :: opening :: tokens)) := by
  have hbreakFirst : isBreak first = false := (Bool.or_eq_false_iff.mp hfirst.1).2
  have hbreakLast : isBreak last = false := (Bool.or_eq_false_iff.mp hlast.1).2
  have hopening : Goes
      ⟨place line column index (' ' :: first :: last :: rest), indent, outer, [none], false, tokens⟩
      (· = ⟨place line (column + 2) (index + 2) (last :: rest), indent, outer, [none, none], true,
        opening :: tokens⟩) := by
    apply goes_step (skip_blank ⟨hfirst.1, hfirst.2, by omega⟩) (place_cons hbreakFirst)
    · rw [step_eq (by simp) (by simp; omega), hopen _ _ _ rfl rfl, openFlow, noteKey_forbidden]
      rfl
    · simp [length_place]
  apply hopening.trans
  rintro _ rfl
  have hclosing : Goes ⟨place line (column + 2) (index + 2) (last :: rest), indent, outer,
      [none, none], true, opening :: tokens⟩
      (· = ⟨place line (column + 3) (index + 3) rest, indent, outer, [none], false,
        closing :: opening :: tokens⟩) := by
    have hon : GoesOn (column + 3) (column + 2) (last :: rest) := ⟨hlast.1, hlast.2, by omega⟩
    apply goes_step (skip_goesOn hon) (place_cons hbreakLast)
    · rw [step_eq (by simp) (by simp; omega), hclose _ _ _ rfl]
      rfl
    · simp [length_place]
  apply hclosing.trans
  rintro _ rfl
  exact .refl ⟨_, _, _, rfl⟩

theorem goes_emptySequence (hindent : indent ≤ column) :
    Goes ⟨place line column index (' ' :: '[' :: ']' :: rest), indent, outer, [none], false, tokens⟩
      (IsBehind rest indent outer (.closeFlowSequence :: .openFlowSequence :: tokens)) := by
  apply goes_emptyFlow hindent (by decide) (by decide)
  · intro l g gs hflow hchar
    simp [token, atMarker_ne, hchar]
  · intro l g gs hchar
    simp [token, atMarker_ne, hchar]

theorem goes_emptyMapping (hindent : indent ≤ column) :
    Goes ⟨place line column index (' ' :: '\x7b' :: '\x7d' :: rest),
        indent, outer, [none], false, tokens⟩
      (IsBehind rest indent outer (.closeFlowMapping :: .openFlowMapping :: tokens)) := by
  apply goes_emptyFlow hindent (by decide) (by decide)
  · intro l g gs hflow hchar
    simp [token, atMarker_ne, hchar]
  · intro l g gs hchar
    simp [token, atMarker_ne, hchar]

/-! ## Collections behind a colon -/

/-- A block that would start behind the colon of a key cannot be read. -/
theorem fails_mark {c : Char} (hindent : indent ≤ column) (hc : c = '-' ∨ c = '?')
    (hnext : isSpace next = true) :
    Goes ⟨place line column index (' ' :: c :: next :: rest),
      indent, outer, [none], false, tokens⟩ Q := by
  have hread : isSpace c = false ∧ c ≠ '#' := by
    rcases hc with rfl | rfl <;> decide
  have hbreak : isBreak c = false := (Bool.or_eq_false_iff.mp hread.1).2
  have hspace : atSpace (place line (column + 2) (index + 2) (next :: rest)) = true := hnext
  apply fails_step (skip_blank ⟨hread.1, hread.2, by omega⟩) (place_cons hbreak)
  rw [step_eq (by simp) (by simp; omega)]
  have hmarker (mark : Char) : atMarker mark (⟨c, line, column + 1, index + 1⟩ ::
      place line (column + 2) (index + 2) (next :: rest)) = false :=
    atMarker_of_char fun h => absurd h (by simp)
  rcases hc with rfl | rfl <;> simp [token, hmarker, hspace, inFlow, mark]

theorem closeBlocks_keys (l : Lexer) (column : Int) :
    (l.closeBlocks column).keys = l.keys ∧ (l.closeBlocks column).keyAllowed = l.keyAllowed := by
  have hgo (outer : List Int) (l : Lexer) : (closeBlocks.go column outer l).keys = l.keys ∧
      (closeBlocks.go column outer l).keyAllowed = l.keyAllowed := by
    induction outer generalizing l with
    | nil => exact ⟨rfl, rfl⟩
    | cons parent outer ih =>
      rw [closeBlocks.go]
      split
      · exact ih _
      · exact ⟨rfl, rfl⟩
  rw [closeBlocks]
  split
  · exact ⟨rfl, rfl⟩
  · exact hgo l.outer l

/-- A colon where no key may have started. -/
theorem fails_colon (hnext : isSpace next = true) :
    Goes ⟨place line column index (':' :: next :: rest), indent, outer, [none], false, tokens⟩ Q := by
  have hspace : atSpace (place line (column + 1) (index + 1) (next :: rest)) = true := hnext
  have hon : GoesOn (column + 1) column (':' :: next :: rest) := ⟨rfl, by decide, by omega⟩
  apply fails_step (skip_goesOn hon) (place_cons rfl)
  rw [step, dropStale_of_none (by simp), Option.bind_some]
  generalize hl : closeBlocks _ _ = l
  obtain ⟨hkeys, hallowed⟩ := closeBlocks_keys
    ⟨place line column index (':' :: next :: rest), indent, outer, [none], false, tokens⟩ column
  rw [hl] at hkeys hallowed
  have hflow : l.inFlow = false := by rw [inFlow, hkeys]; rfl
  rw [token_colon hflow rfl hspace, colon]
  simp [currentKey?, hkeys, hflow, hallowed]

/-! ## Plain values -/

/-- A plain value, whatever ends it. -/
theorem goes_readPlain {left : List Glyph} {ended : Bool} (hindent : indent ≤ column)
    (hvalue : isPlain next value = true)
    (hend : readPlain false (indent + 1) value.reverse .empty (place line
        (column + 1 + value.length) (index + 1 + value.length) (next :: rest))
      = some ⟨value, left, ended⟩)
    (hlength : left.length ≤ rest.length + 1) :
    Goes ⟨place line column index (' ' :: (value ++ next :: rest)), indent, outer, [none], false, tokens⟩
      (· = ⟨left, indent, outer, [none], ended, .scalar value true :: tokens⟩) := by
  obtain ⟨hstarts, hplain⟩ := isPlain_iff.mp hvalue
  cases value with
  | nil => cases hstarts
  | cons c cs =>
    have hbreak := isBreak_of_isLineBreak (hplain.line c List.mem_cons_self)
    have hmark : atDocumentMark (place line (column + 1) (index + 1) (c :: (cs ++ next :: rest)))
        = false := by
      rw [place_cons hbreak]
      exact atDocumentMark_of_column (by simp)
    have hread := @readPlain_append line (column + 1) (index + 1) (c :: cs) rest next
      (indent + 1) [] .empty (List.cons_ne_nil c cs) hplain rfl (fun h => absurd rfl h) hmark
    rw [fold_empty, List.nil_append, List.append_nil, hend, List.cons_append] at hread
    rw [List.cons_append]
    apply goes_step (skip_blank (goesOn_of_opensPlain hstarts (by omega))) (place_cons hbreak)
    · rw [place_cons hbreak] at hmark
      rw [step_eq (by simp) (by simp; omega), token_plain rfl (starts_of_opensPlain hstarts) hmark,
        scalar, noteKey_forbidden, ← place_cons hbreak, hread]
      rfl
    · simp only [length_place, List.length_append, List.length_cons]
      omega

/-- A plain value is read with the gap behind it. -/
theorem goes_plain (hindent : 0 ≤ indent) (hcolumn : indent ≤ column)
    (hgap : isGap true false between = true) (hrest : GoesOn (indent + 1) (endOf 0 0 between).2 rest)
    (hvalue : isPlain '\n' value = true) :
    Goes ⟨place line column index (' ' :: (value ++ '\n' :: (between ++ rest))),
        indent, outer, [none], false, tokens⟩
      fun m => Stands m (endOf 0 0 between).2 rest indent outer (.scalar value true :: tokens) := by
  obtain ⟨left, hend, hle, hge, hskip⟩ :=
    @readPlain_lineEnd line (column + 1 + value.length) (index + 1 + value.length) rest
      (indent + 1) value.reverse between hgap (by omega) hrest
  rw [List.reverse_reverse] at hend
  apply (goes_readPlain hcolumn hvalue hend (by simp; omega)).trans
  rintro _ rfl
  obtain ⟨line', index', hskip⟩ :=
    hskip ⟨left, indent, outer, [none], true, .scalar value true :: tokens⟩ rfl rfl
  exact .refl ⟨⟨line', index', hskip⟩, hle⟩

/-- A plain text behind a colon with a colon of its own cannot be read. -/
theorem fails_plain (hindent : indent ≤ column) (hvalue : isPlain ':' value = true)
    (hnext : isSpace next = true) :
    Goes ⟨place line column index (' ' :: (value ++ ':' :: next :: rest)),
      indent, outer, [none], false, tokens⟩ Q := by
  have hend := @readPlain_colon line (column + 1 + value.length) (index + 1 + value.length) rest
    next (indent + 1) value.reverse hnext
  rw [List.reverse_reverse] at hend
  apply (goes_readPlain hindent hvalue hend (by simp [length_place])).trans
  rintro _ rfl
  exact fails_colon hnext

end Lexer

/-! ## Whole texts -/

/-- A text with no line ends that are unified. -/
def IsUnified (cs : List Char) : Prop :=
  ∀ c ∈ cs, c ≠ '\r' ∧ c ≠ '\u0085'

variable {cs ds : List Char}

theorem IsUnified.cons {c : Char} (hc : c ≠ '\r' ∧ c ≠ '\u0085') (hcs : IsUnified cs) :
    IsUnified (c :: cs) :=
  List.forall_mem_cons.mpr ⟨hc, hcs⟩

theorem IsUnified.append (hcs : IsUnified cs) (hds : IsUnified ds) : IsUnified (cs ++ ds) :=
  List.forall_mem_append.mpr ⟨hcs, hds⟩

theorem IsUnified.unifyBreaks_eq (h : IsUnified cs) : unifyBreaks cs = cs := by
  induction cs with
  | nil => rfl
  | cons c cs ih =>
    obtain ⟨hc, hcs⟩ := List.forall_mem_cons.mp h
    rw [unifyBreaks, ih hcs, if_neg (by simp [hc])]
    rintro tail rfl
    exact absurd rfl hc.1

/-- A text without other line ends than line feeds is read as it stands. -/
theorem glyphs?_eq {text : String} {gs : List Glyph} (hmark : text.toList.head? ≠ some '\ufeff')
    (hunified : IsUnified text.toList) (hgs : glyphs? text = some gs) :
    gs = place 0 0 0 text.toList := by
  have hdrop : dropByteOrderMark text.toList = text.toList := by
    unfold dropByteOrderMark
    split
    · next cs hcs => exact absurd (by rw [hcs]; rfl) hmark
    · rfl
  simp only [glyphs?, hdrop, Option.ite_none_right_eq_some, Option.some.injEq] at hgs
  rw [← hgs.2, hunified.unifyBreaks_eq]

namespace Lexer

variable {Q : Lexer → Prop} {l : Lexer} {column : Nat} {indent : Int} {outer : List Int}
  {tokens : List Token}

/-- A text that has tokens is read to where the reading goes. -/
theorem Goes.of_tokens? {text : String} {result : List Token}
    (hmark : text.toList.head? ≠ some '\ufeff') (hunified : IsUnified text.toList)
    (h : Goes { rest := place 0 0 0 text.toList } Q) (htokens : tokens? text = some result) :
    ∃ m, Q m ∧ ∀ n, Reads m n → ∃ l, n = some l ∧ l.tokens.reverse = result := by
  rw [tokens?] at htokens
  obtain ⟨gs, hgs, hrun⟩ := Option.bind_eq_some_iff.mp htokens
  obtain ⟨l, hl, hresult⟩ := Option.bind_eq_some_iff.mp hrun
  obtain rfl := glyphs?_eq hmark hunified hgs
  rcases h with hfails | ⟨m, hm, hfrom⟩
  · rw [hfails _ (Nat.lt_succ_self _)] at hl
    cases hl
  · refine ⟨m, hm, fun n hn => ⟨l, ?_, Option.some.inj hresult⟩⟩
    rw [← hl]
    exact (hfrom n hn _ (Nat.lt_succ_self _)).symm

/-- At the end of the text the open blocks are closed. -/
theorem Stands.reads_end (h : Stands l column [] indent outer tokens) :
    Reads l (((⟨[], indent, outer, [none], true, tokens⟩ : Lexer).closeBlocks (-1)).dropKey) := by
  obtain ⟨line, index, hskip⟩ := h.skip_eq
  intro count hcount
  obtain ⟨count, rfl⟩ := Nat.exists_eq_succ_of_ne_zero (Nat.ne_zero_of_lt hcount)
  rw [Nat.succ_eq_add_one, run]
  simp only [hskip, place]

end Lexer

end KeyExpansion.Yaml
