-- SUMMARY: The grammar of templates, and that reading gives the pieces of the one way to read a text.
import KeyExpansion.Proofs.Key.Single
import KeyExpansion.Proofs.Template.Field

/-! # The grammar of templates

A template is a row of tokens: literal ones, which are single characters, doubled braces
and empty braces, and fields. A text can be read as tokens in one way at most, for the
character behind a brace says which token it begins. Texts are accepted if they can be
read so and every field has a name, and each field makes a piece with the literal text
before it. -/

namespace KeyExpansion.Template

/-! ## Tokens -/

/-- A token that stands for text. -/
inductive Literal where
  | openBrace
  | closeBrace
  | emptyField
  | plain (c : Char)
deriving Repr, DecidableEq

namespace Literal

/-- The text that the literal is written as. -/
def spelling : Literal → List Char
  | .openBrace => ['{', '{']
  | .closeBrace => ['}', '}']
  | .emptyField => ['{', '}']
  | .plain c => [c]

/-- The text that the literal stands for. -/
def meaning : Literal → List Char
  | .openBrace => ['{']
  | .closeBrace => ['}']
  | .emptyField => ['{', '}']
  | .plain c => [c]

theorem meaning_ne_nil (l : Literal) : l.meaning ≠ [] := by
  cases l <;> simp [meaning]

end Literal

inductive Token where
  | literal (l : Literal)
  | field (text : List Char)
deriving Repr, DecidableEq

namespace Token

/-- The text that the token is written as. -/
def spelling : Token → List Char
  | .literal l => l.spelling
  | .field text => '{' :: (text ++ ['}'])

/-- A single character is no brace, and a field has some text and no brace in it. -/
inductive IsProper : Token → Prop where
  | openBrace : IsProper (.literal .openBrace)
  | closeBrace : IsProper (.literal .closeBrace)
  | emptyField : IsProper (.literal .emptyField)
  | plain {c : Char} (braceFree : IsBraceFree [c]) : IsProper (.literal (.plain c))
  | field {f : Char} {text : List Char} (braceFree : IsBraceFree (f :: text)) :
      IsProper (.field (f :: text))

end Token

/-- The tokens spell the text. -/
structure Spells (tokens : List Token) (cs : List Char) : Prop where
  proper : ∀ t ∈ tokens, t.IsProper
  spelling_eq : tokens.flatMap Token.spelling = cs

theorem spells_nil : Spells [] [] :=
  ⟨by simp, rfl⟩

theorem Spells.cons {t : Token} {tokens : List Token} {cs : List Char} (ht : t.IsProper)
    (h : Spells tokens cs) : Spells (t :: tokens) (t.spelling ++ cs) :=
  ⟨List.forall_mem_cons.mpr ⟨ht, h.proper⟩, by rw [List.flatMap_cons, h.spelling_eq]⟩

/-! ## One way to read a text -/

/-- A field ends at the first closing brace. -/
theorem eq_of_field_append {field field' rest rest' : List Char} (hfield : IsBraceFree field)
    (hfield' : IsBraceFree field') (h : field ++ '}' :: rest = field' ++ '}' :: rest') :
    field = field' ∧ rest = rest' := by
  have hcut (before after : List Char) (hbefore : IsBraceFree before) :
      Text.cut? ['}'] (before ++ '}' :: after) = some (before, after) :=
    (Text.cut?_eq_some (by simp)).mpr
      ⟨by simp, Text.isFirst_singleton.mpr fun hc => (hbefore _ hc).2 rfl⟩
  have hcuts := hcut field rest hfield
  rw [h, hcut field' rest' hfield'] at hcuts
  simpa [eq_comm] using hcuts

/-- The characters at the start of a text say which token it begins with. -/
theorem Token.IsProper.eq_of_append {t t' : Token} (ht : t.IsProper) (ht' : t'.IsProper)
    {rest rest' : List Char} (h : t.spelling ++ rest = t'.spelling ++ rest') :
    t = t' ∧ rest = rest' := by
  cases ht <;> cases ht'
  case field.field f text hfree f' text' hfree' =>
    simp only [spelling, List.cons_append, List.append_assoc, List.nil_append, List.cons.injEq,
      true_and] at h
    obtain ⟨rfl, h⟩ := h
    obtain ⟨rfl, rfl⟩ := eq_of_field_append (isBraceFree_cons.mp hfree).2
      (isBraceFree_cons.mp hfree').2 h
    exact ⟨rfl, rfl⟩
  all_goals grind [spelling, Literal.spelling, IsBraceFree]

theorem Token.IsProper.spelling_ne_nil {t : Token} (h : t.IsProper) : t.spelling ≠ [] := by
  cases h <;> simp [spelling, Literal.spelling]

/-- Only one row of tokens spells a text. -/
theorem Spells.unique {tokens tokens' : List Token} {cs : List Char} (h : Spells tokens cs)
    (h' : Spells tokens' cs) : tokens = tokens' := by
  have hspells := h.spelling_eq.trans h'.spelling_eq.symm
  have hproper := h.proper
  have hproper' := h'.proper
  clear h h'
  induction tokens generalizing tokens' with
  | nil =>
    cases tokens' with
    | nil => rfl
    | cons t' tokens' =>
      have hne := (hproper' t' List.mem_cons_self).spelling_ne_nil
      simp [hne] at hspells
  | cons t tokens ih =>
    obtain ⟨ht, hlater⟩ := List.forall_mem_cons.mp hproper
    cases tokens' with
    | nil => simp [ht.spelling_ne_nil] at hspells
    | cons t' tokens' =>
      obtain ⟨ht', hlater'⟩ := List.forall_mem_cons.mp hproper'
      rw [List.flatMap_cons, List.flatMap_cons] at hspells
      obtain ⟨rfl, hrest⟩ := ht.eq_of_append ht' hspells
      rw [ih hrest hlater hlater']

/-! ## The parts of a field -/

/-- What follows the name of a field, the format in it, and the conversion in it. -/
inductive OptionsSay : List Char → List Char → List Char → Prop where
  | bare : OptionsSay [] [] []
  | conversion {conversion : List Char} (colon : ':' ∉ conversion) :
      OptionsSay ('!' :: conversion) [] conversion
  | conversionFirst {format conversion : List Char} (colon : ':' ∉ conversion) :
      OptionsSay ('!' :: (conversion ++ ':' :: format)) format conversion
  | format {format : List Char} (lone : '!' ∉ format) : OptionsSay (':' :: format) format []
  | formatFirst {format conversion : List Char} (last : '!' ∉ conversion) :
      OptionsSay (':' :: (format ++ '!' :: conversion)) format conversion

theorem splitOptions_conversionFirst {format conversion : List Char} (colon : ':' ∉ conversion) :
    splitOptions ('!' :: (conversion ++ ':' :: format)) = (format, conversion) := by
  have hcut : Text.cut? [':'] (conversion ++ ':' :: format) = some (conversion, format) :=
    (Text.cut?_eq_some (by simp)).mpr ⟨by simp, Text.isFirst_singleton.mpr colon⟩
  rw [splitOptions, hcut]

theorem splitOptions_iff {options format conversion : List Char}
    (hstart : ∀ c ∈ options.head?, endsName c = true) :
    splitOptions options = (format, conversion) ↔ OptionsSay options format conversion := by
  constructor
  · intro h
    rcases options with _ | ⟨c, cs⟩
    · obtain ⟨rfl, rfl⟩ := Prod.mk.inj h
      exact .bare
    · have hc : c = '!' ∨ c = ':' := by simpa [endsName] using hstart c rfl
      rcases hc with rfl | rfl
      · cases hcut : Text.cut? [':'] cs with
        | none =>
          have hcolon : ':' ∉ cs := by
            rwa [← List.singleton_infix_iff, ← Text.cut?_eq_none]
          rw [splitOptions_conversion.mpr hcolon] at h
          obtain ⟨rfl, rfl⟩ := Prod.mk.inj h
          exact .conversion hcolon
        | some cut =>
          obtain ⟨before, after⟩ := cut
          obtain ⟨rfl, hfirst⟩ := (Text.cut?_eq_some (by simp)).mp hcut
          have hcolon := Text.isFirst_singleton.mp hfirst
          rw [List.append_assoc, List.singleton_append, splitOptions_conversionFirst hcolon] at h
          obtain ⟨rfl, rfl⟩ := Prod.mk.inj h
          simpa using OptionsSay.conversionFirst hcolon
      · cases hcut : Text.cutLast? '!' cs with
        | none =>
          have hlone := Text.cutLast?_eq_none.mp hcut
          rw [splitOptions_format.mpr hlone] at h
          obtain ⟨rfl, rfl⟩ := Prod.mk.inj h
          exact .format hlone
        | some cut =>
          obtain ⟨before, after⟩ := cut
          obtain ⟨rfl, hlast⟩ := Text.cutLast?_eq_some.mp hcut
          rw [splitOptions_both.mpr hlast] at h
          obtain ⟨rfl, rfl⟩ := Prod.mk.inj h
          exact .formatFirst hlast
  · rintro (_ | hcolon | hcolon | hlone | hlast)
    · rfl
    · exact splitOptions_conversion.mpr hcolon
    · exact splitOptions_conversionFirst hcolon
    · exact splitOptions_format.mpr hlone
    · exact splitOptions_both.mpr hlast

/-- The text of a field up to the first exclamation mark or colon. -/
def fieldName (field : List Char) : List Char :=
  field.takeWhile (!endsName ·)

/-- The name, the format and the conversion of the piece are those in the text of a field. -/
structure Piece.IsSaid (p : Piece) (field : List Char) : Prop where
  named : p.isLiteral = false
  name : ∀ c ∈ p.name.toList, endsName c = false
  options : ∃ options, field = p.name.toList ++ options ∧
    OptionsSay options p.format.toList p.conversion.toList

theorem OptionsSay.starts {options format conversion : List Char}
    (h : OptionsSay options format conversion) : ∀ c ∈ options.head?, endsName c = true := by
  cases h <;> simp [endsName]

namespace Piece

variable {lead field : List Char} {p : Piece}

theorem IsSaid.fieldName_eq (h : p.IsSaid field) : fieldName field = p.name.toList := by
  obtain ⟨options, rfl, hsay⟩ := h.options
  have hname : ∀ c ∈ p.name.toList, (!endsName c) = true := fun c hc => by simp [h.name c hc]
  have hstop : options.takeWhile (!endsName ·) = [] := by
    cases options with
    | nil => rfl
    | cons c options => simp [hsay.starts c rfl]
  rw [fieldName, List.takeWhile_append_of_pos hname, hstop, List.append_nil]

/-- A field is read as what it says. -/
theorem ofField_eq_ok :
    ofField lead field = .ok p ↔ p.lead = String.ofList lead ∧ p.IsSaid field := by
  constructor
  · intro h
    simp only [ofField] at h
    split at h
    · cases h
    · rename_i hne
      cases h
      have hstarts : ∀ c ∈ (field.dropWhile (!endsName ·)).head?, endsName c = true := by
        intro c hc
        have hnot := List.head?_dropWhile_not (!endsName ·) field
        rw [Option.mem_def.mp hc] at hnot
        simpa using hnot
      refine ⟨rfl, ?_, ?_, field.dropWhile (!endsName ·), ?_, ?_⟩
      · simpa [isLiteral] using hne
      · intro c hc
        rw [String.toList_ofList] at hc
        simpa using List.mem_takeWhile_imp hc
      · rw [String.toList_ofList, List.takeWhile_append_dropWhile]
      · rw [String.toList_ofList, String.toList_ofList, ← splitOptions_iff hstarts]
  · rintro ⟨hlead, hsaid⟩
    obtain ⟨options, rfl, hsay⟩ := hsaid.options
    have hne : p.name.toList ≠ [] := by simpa [isLiteral] using hsaid.named
    rw [ofField_append hne hsaid.name hsay.starts, (splitOptions_iff hsay.starts).mpr hsay]
    obtain ⟨_, name, format, conversion⟩ := p
    obtain rfl : _ = String.ofList lead := hlead
    simp

/-- A field with a name says some piece. -/
theorem exists_isSaid (lead : String) (h : fieldName field ≠ []) :
    ∃ p : Piece, p.lead = lead ∧ p.IsSaid field := by
  have hname : (field.takeWhile (!endsName ·)).isEmpty = false := by simpa [fieldName] using h
  have hread : ∃ p, ofField lead.toList field = .ok p := by
    simp only [ofField, hname, Bool.false_eq_true, if_false]
    exact ⟨_, rfl⟩
  obtain ⟨p, hp⟩ := hread
  obtain ⟨hlead, hsaid⟩ := ofField_eq_ok.mp hp
  exact ⟨p, by simpa using hlead, hsaid⟩

end Piece

/-! ## The pieces that tokens make -/

/-- Each field makes a piece with the literal text before it, and literal text that is left
makes one more. -/
inductive Makes : List Token → List Piece → Prop where
  | nil : Makes [] []
  | rest {literals : List Literal} (nonempty : literals ≠ []) :
      Makes (literals.map .literal) [{ lead := String.ofList (literals.flatMap Literal.meaning) }]
  | field {literals : List Literal} {text : List Char} {tokens : List Token} {p : Piece}
      {ps : List Piece} (lead : p.lead = String.ofList (literals.flatMap Literal.meaning))
      (said : p.IsSaid text) (later : Makes tokens ps) :
      Makes (literals.map .literal ++ .field text :: tokens) (p :: ps)

/-- Literals that are left are never without text. -/
theorem literals_meaning {literals : List Literal} (h : literals ≠ []) :
    Piece.literals (literals.flatMap Literal.meaning)
      = [{ lead := String.ofList (literals.flatMap Literal.meaning) }] := by
  have hmeaning : literals.flatMap Literal.meaning ≠ [] := by
    obtain ⟨l, literals, rfl⟩ := List.exists_cons_of_ne_nil h
    simp [l.meaning_ne_nil]
  rw [Piece.literals, if_neg (by simpa using hmeaning)]

theorem makes_literals (literals : List Literal) :
    Makes (literals.map .literal) (Piece.literals (literals.flatMap Literal.meaning)) := by
  by_cases hnil : literals = []
  · subst hnil
    exact .nil
  · rw [literals_meaning hnil]
    exact .rest hnil

/-- Tokens make pieces if all fields have names. -/
theorem exists_makes_iff {tokens : List Token} :
    (∃ ps, Makes tokens ps) ↔ ∀ text, .field text ∈ tokens → fieldName text ≠ [] := by
  constructor
  · rintro ⟨ps, h⟩
    induction h with
    | nil => simp
    | rest => simp
    | @field literals text tokens p ps lead said later ih =>
      intro text' htext'
      simp only [List.mem_append, List.mem_map, reduceCtorEq, and_false, exists_false, List.mem_cons,
        Token.field.injEq, false_or] at htext'
      rcases htext' with rfl | htext'
      · rw [said.fieldName_eq]
        simpa [Piece.isLiteral] using said.named
      · exact ih text' htext'
  · -- The literals before the first field are set aside.
    suffices h : ∀ literals : List Literal,
        (∀ text, .field text ∈ tokens → fieldName text ≠ []) →
          ∃ ps, Makes (literals.map .literal ++ tokens) ps from h []
    induction tokens with
    | nil =>
      intro literals _
      exact ⟨_, by simpa using makes_literals literals⟩
    | cons t tokens ih =>
      intro literals hnamed
      have hlater := fun text ht => hnamed text (List.mem_cons_of_mem t ht)
      cases t with
      | literal l => simpa using ih (literals ++ [l]) hlater
      | field text =>
        obtain ⟨ps, hps⟩ := ih [] hlater
        obtain ⟨p, hlead, hsaid⟩ := Piece.exists_isSaid
          (String.ofList (literals.flatMap Literal.meaning)) (hnamed text List.mem_cons_self)
        exact ⟨p :: ps, .field hlead hsaid hps⟩

/-! ## Reading -/

variable {lead cs rest : List Char} {tokens : List Token} {ps : List Piece}

theorem scan_literal {l : Literal} (h : (Token.literal l).IsProper) :
    scan lead none (l.spelling ++ rest) = scan (lead ++ l.meaning) none rest := by
  cases h with
  | openBrace => simp [Literal.spelling, Literal.meaning, scan]
  | closeBrace => simp [Literal.spelling, Literal.meaning, scan]
  | emptyField => simp [Literal.spelling, Literal.meaning, scan]
  | @plain c braceFree =>
    obtain ⟨hopen, hclose⟩ := braceFree c (by simp)
    simp only [Literal.spelling, Literal.meaning, List.singleton_append]
    rw [scan] <;> simp_all

theorem scan_literals {literals : List Literal}
    (h : ∀ l ∈ literals, (Token.literal l).IsProper) :
    scan lead none (literals.flatMap Literal.spelling ++ rest)
      = scan (lead ++ literals.flatMap Literal.meaning) none rest := by
  induction literals generalizing lead with
  | nil => simp
  | cons l literals ih =>
    obtain ⟨hl, hliterals⟩ := List.forall_mem_cons.mp h
    rw [List.flatMap_cons, List.append_assoc, scan_literal hl, ih hliterals, List.append_assoc,
      List.flatMap_cons]

/-- A brace opens the field whose text follows it. -/
theorem scan_open {f : Char} {field : List Char} (h : IsBraceFree (f :: field)) :
    scan lead none ('{' :: (f :: field ++ rest)) = scan lead (some (f :: field)) rest := by
  have hopen : f ≠ '{' := (h f (by simp)).1
  have hstart : scan lead none ('{' :: (f :: field ++ rest))
      = scan lead (some []) (f :: field ++ rest) := by
    rw [List.cons_append, scan]
    rintro rest' heq
    exact hopen (List.cons.inj heq).1
  rw [hstart, scan_field h, List.nil_append]

/-- The pieces that tokens make are read from what the tokens spell. -/
theorem scan_of_makes (hproper : ∀ t ∈ tokens, t.IsProper) (h : Makes tokens ps) :
    scan [] none (tokens.flatMap Token.spelling) = .ok ps := by
  have hliteral {literals : List Literal}
      (hproper : ∀ t ∈ literals.map Token.literal, t.IsProper) (rest : List Char) :
      scan [] none ((literals.map Token.literal).flatMap Token.spelling ++ rest)
        = scan (literals.flatMap Literal.meaning) none rest := by
    rw [List.flatMap_map]
    exact scan_literals (by simpa using hproper)
  induction h with
  | nil => rfl
  | @rest literals nonempty =>
    have hscan := hliteral hproper []
    rw [List.append_nil] at hscan
    rw [hscan, scan, literals_meaning nonempty]
  | @field literals text tokens p ps lead said later ih =>
    obtain ⟨hliterals, hrest⟩ := List.forall_mem_append.mp hproper
    obtain ⟨htext, hlater⟩ := List.forall_mem_cons.mp hrest
    cases htext with
    | @field f text braceFree =>
      rw [List.flatMap_append, hliteral hliterals, List.flatMap_cons, Token.spelling,
        List.cons_append, List.append_assoc, scan_open braceFree, List.singleton_append, scan_close]
      exact ⟨p, Piece.ofField_eq_ok.mpr ⟨lead, said⟩, ps, ih hlater, rfl⟩

/-- The text of the field that is open. -/
def opened : Option (List Char) → List Char
  | none => []
  | some field => '{' :: field

/-- Pieces are read from nothing but tokens that make them. -/
theorem exists_makes_of_scan {field : Option (List Char)} (hfield : ∀ f ∈ field, IsBraceFree f)
    (h : scan lead field cs = .ok ps) (literals : List Literal)
    (hlead : literals.flatMap Literal.meaning = lead) :
    ∃ tokens, Spells tokens (opened field ++ cs) ∧ Makes (literals.map .literal ++ tokens) ps := by
  -- A literal that was read goes to those before it, so that a field finds them there.
  have hnext {l : Literal} {cs : List Char} {ps : List Piece} {literals : List Literal}
      (hl : (Token.literal l).IsProper)
      (ih : ∃ tokens, Spells tokens cs ∧ Makes ((literals ++ [l]).map .literal ++ tokens) ps) :
      ∃ tokens, Spells tokens (l.spelling ++ cs) ∧ Makes (literals.map .literal ++ tokens) ps := by
    obtain ⟨tokens, hspells, hmakes⟩ := ih
    exact ⟨_, hspells.cons hl, by simpa using hmakes⟩
  fun_induction scan lead field cs generalizing ps literals with
  | case1 lead =>
    cases h
    exact ⟨[], spells_nil, by simpa [hlead] using makes_literals literals⟩
  | case2 lead cs ih =>
    exact hnext .openBrace (ih (by simp) h _ (by simp [hlead, Literal.meaning]))
  | case3 lead cs _ ih => exact ih (by simp [IsBraceFree]) h literals hlead
  | case4 lead cs ih =>
    exact hnext .closeBrace (ih (by simp) h _ (by simp [hlead, Literal.meaning]))
  | case5 => cases h
  | case6 lead c cs _ hopen _ hclose ih =>
    have hc : IsBraceFree [c] := by simpa [IsBraceFree] using ⟨hopen, hclose⟩
    exact hnext (.plain hc) (ih (by simp) h _ (by simp [hlead, Literal.meaning]))
  | case7 => cases h
  | case8 => cases h
  | case9 lead cs ih =>
    exact hnext .emptyField (ih (by simp) h _ (by simp [hlead, Literal.meaning]))
  | case10 lead f field cs ih =>
    obtain ⟨p, hp, later, hlater, rfl⟩ := scan_close.mp h
    obtain ⟨hpLead, hsaid⟩ := Piece.ofField_eq_ok.mp hp
    obtain ⟨tokens, hspells, hmakes⟩ := ih (by simp) hlater [] rfl
    refine ⟨.field (f :: field) :: tokens, ?_, .field (by rw [hpLead, hlead]) hsaid hmakes⟩
    have hfree := hfield _ rfl
    simpa [opened, Token.spelling] using hspells.cons (.field hfree)
  | case11 lead field c cs hopen hempty hclose ih =>
    have hgrown : ∀ f ∈ some (field ++ [c]), IsBraceFree f := by
      rintro f ⟨rfl⟩
      exact (hfield _ rfl).concat hopen hempty hclose
    simpa [opened] using ih hgrown h literals hlead

/-- The pieces of a text are those that its tokens make. -/
theorem pieces_eq_ok {text : String} :
    pieces text = .ok ps ↔ ∃ tokens, Spells tokens text.toList ∧ Makes tokens ps := by
  constructor
  · intro h
    exact exists_makes_of_scan (by simp) h [] rfl
  · rintro ⟨tokens, hspells, hmakes⟩
    rw [pieces, ← hspells.spelling_eq]
    exact scan_of_makes hspells.proper hmakes

/-- A text that can be read as tokens, with a name in every field. -/
def IsTemplate (text : String) : Prop :=
  ∃ tokens, Spells tokens text.toList ∧ ∀ field, .field field ∈ tokens → fieldName field ≠ []

/-- Templates are what is accepted, their tokens are known from the text, and these make the
pieces; all other texts are malformed. -/
theorem readPieces_accepts (text : String) :
    ((∃ ps, Key.readPieces text = .ok ps) ↔ IsTemplate text) ∧
      (∀ tokens tokens', Spells tokens text.toList → Spells tokens' text.toList →
        tokens = tokens') ∧
      (∀ tokens ps, Spells tokens text.toList →
        (Key.readPieces text = .ok ps ↔ Makes tokens ps)) ∧
      (¬ IsTemplate text →
        ∃ fault, Key.readPieces text = .error (.malformedTemplate text fault)) := by
  have haccepts : (∃ ps, Key.readPieces text = .ok ps) ↔ IsTemplate text := by
    simp only [Key.readPieces_eq_ok, pieces_eq_ok, IsTemplate, ← exists_makes_iff]
    exact ⟨fun ⟨ps, tokens, hspells, hmakes⟩ => ⟨tokens, hspells, ps, hmakes⟩,
      fun ⟨tokens, hspells, ps, hmakes⟩ => ⟨ps, tokens, hspells, hmakes⟩⟩
  refine ⟨haccepts, fun _ _ h h' => h.unique h', ?_, ?_⟩
  · intro tokens ps hspells
    rw [Key.readPieces_eq_ok, pieces_eq_ok]
    constructor
    · rintro ⟨tokens', hspells', hmakes⟩
      rwa [hspells.unique hspells']
    · intro hmakes
      exact ⟨tokens, hspells, hmakes⟩
  · intro hnot
    rw [← haccepts] at hnot
    unfold Key.readPieces at hnot ⊢
    split
    · next ps hps => simp [hps] at hnot
    · next fault _ => exact ⟨fault, rfl⟩

/-- Braces on both sides of a field belong to no field. -/
theorem readPieces_accepts_braces :
    Key.readPieces "\x7b\x7b\x7ba:2!s\x7d\x7d\x7d\x7b\x7dx" = .ok
      [{ lead := "\x7b", name := "a", format := "2", conversion := "s" },
        { lead := "\x7d\x7b\x7dx" }] := by
  have hspells : Spells [.literal .openBrace, .field ['a', ':', '2', '!', 's'],
      .literal .closeBrace, .literal .emptyField, .literal (.plain 'x')]
      "\x7b\x7b\x7ba:2!s\x7d\x7d\x7d\x7b\x7dx".toList :=
    spells_nil.cons (.plain (by simp [IsBraceFree])) |>.cons .emptyField |>.cons .closeBrace
      |>.cons (.field (by simp [IsBraceFree])) |>.cons .openBrace
  obtain ⟨-, -, hmakes, -⟩ := readPieces_accepts "\x7b\x7b\x7ba:2!s\x7d\x7d\x7d\x7b\x7dx"
  refine (hmakes _ _ hspells).mpr ?_
  have hsaid : Piece.IsSaid { lead := "\x7b", name := "a", format := "2", conversion := "s" }
      ['a', ':', '2', '!', 's'] :=
    ⟨rfl, by simp [endsName], [':', '2', '!', 's'], rfl, @OptionsSay.formatFirst ['2'] ['s'] (by decide)⟩
  exact @Makes.field [.openBrace] _ _ _ _ rfl hsaid
    (@Makes.rest [.closeBrace, .emptyField, .plain 'x'] (by simp))

end KeyExpansion.Template
