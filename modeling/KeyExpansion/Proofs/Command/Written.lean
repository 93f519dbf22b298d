-- SUMMARY: Values behind the colon of a line of a new source file are read back.
import KeyExpansion.Command.Starter
import KeyExpansion.Proofs.Yaml.Written

/-! # Values of new source files

A value is written behind the colon of its name as it would be written alone, without the
blanks at its end. Scalars and empty collections are read back there. Other collections start
on the same line and make the file unreadable. -/

namespace KeyExpansion.Command.Starter

open Yaml (Node Token Lexer)

/-! ## The end of a value -/

theorem toList_trimEnd (text : String) :
    (trimEnd text).toList = (text.toList.reverse.dropWhile Text.isBlank).reverse :=
  String.toList_ofList

/-- A text that no blank ends loses its line end only. -/
theorem toList_trimEnd_line {text : String} (h : text.toList.getLast?.any Text.isBlank = false) :
    (trimEnd (text ++ "\n")).toList = text.toList := by
  have hblank : Text.isBlank '\n' = true := by decide
  rw [toList_trimEnd, String.toList_append, List.reverse_append]
  show (('\n' :: text.toList.reverse).dropWhile Text.isBlank).reverse = text.toList
  rw [List.dropWhile_cons_of_pos hblank]
  cases hlast : text.toList.reverse with
  | nil => simpa using hlast.symm
  | cons c cs =>
    have htext : text.toList = cs.reverse ++ [c] := by
      rw [← List.reverse_reverse text.toList, hlast, List.reverse_cons]
    rw [htext] at h ⊢
    rw [List.dropWhile_cons_of_neg (by simpa using h), List.reverse_cons]

/-- Behind a character that is no blank only blanks at the end are left out. -/
theorem toList_trimEnd_append {text : String} {before after : List Char} {c : Char}
    (htext : text.toList = before ++ c :: after) (hc : Text.isBlank c = false) :
    ∃ kept, (trimEnd text).toList = before ++ c :: kept ∧ kept <+: after := by
  refine ⟨(after.reverse.dropWhile Text.isBlank).reverse, ?_, ?_⟩
  · have hdrop : (after.reverse ++ c :: before.reverse).dropWhile Text.isBlank
        = after.reverse.dropWhile Text.isBlank ++ c :: before.reverse := by
      rw [List.dropWhile_append]
      split
      · next hempty =>
        rw [List.isEmpty_iff.mp hempty, List.dropWhile_cons_of_neg (by simp [hc])]
        rfl
      · rfl
    rw [toList_trimEnd, htext, List.reverse_append, List.reverse_cons, List.append_assoc,
      List.singleton_append, hdrop]
    simp
  · rw [← List.reverse_suffix, List.reverse_reverse]
    exact List.dropWhile_suffix _

/-- What is kept of a text that starts with white space goes on with white space. -/
theorem exists_space {kept after : List Char} {c : Char} (h : kept <+: c :: after)
    (hc : Yaml.isSpace c = true) (more : List Char) :
    ∃ next rest, kept ++ '\n' :: more = next :: rest ∧ Yaml.isSpace next = true := by
  cases kept with
  | nil => exact ⟨'\n', more, rfl, rfl⟩
  | cons d kept =>
    obtain ⟨rfl, -⟩ := List.cons_prefix_cons.mp h
    exact ⟨d, kept ++ '\n' :: more, rfl, hc⟩

/-! ## Data -/

/-- Values that a data file holds. -/
inductive IsData : Value → Prop where
  | null : IsData .null
  | bool (b : Bool) : IsData (.bool b)
  | int (i : Int64) : IsData (.int i)
  | float (x : Float) : IsData (.float x)
  | str (s : String) : IsData (.str s)
  | list (items : List Value) : IsData (.list items)
  | map (entries : List (String × Value)) : IsData (.map entries)

theorem isData_ofNode : (node : Node) → IsData (Value.ofNode node)
  | .null => .null
  | .bool b => .bool b
  | .int i => by
    rw [Value.ofNode]
    split
    · exact .int _
    · exact .float _
  | .float x => .float x
  | .str s => .str s
  | .sequence _ => .list _
  | .mapping _ => .map _
  | .tagged _ node => by
    rw [Value.ofNode]
    exact isData_ofNode node

/-! ## Reading back -/

/-- The tokens make a node of a value, in a mapping within another. -/
structure Gives (tokens : List Token) (v : Value) : Prop where
  exists_node : ∃ node, (∀ name, Yaml.Parse.Line.IsRead 126 ⟨name, tokens, some node⟩) ∧
    Value.ofNode node = v

/-- Behind a colon the text is read as some tokens, with the gap behind it, or it cannot be read. -/
def ReadsAs (text : List Char) (P : List Token → Prop) : Prop :=
  ∀ ⦃line column index : Nat⦄ ⦃indent : Int⦄ ⦃outer : List Int⦄ ⦃tokens : List Token⦄
    ⦃between rest : List Char⦄, 0 ≤ indent → indent ≤ column → Yaml.isGap true false between = true →
    Yaml.GoesOn (indent + 1) (Yaml.endOf 0 0 between).2 rest →
    Lexer.Goes ⟨Yaml.place line column index (' ' :: (text ++ '\n' :: (between ++ rest))), indent,
        outer, [none], false, tokens⟩
      fun m => ∃ behind, P behind ∧
        m.Stands (Yaml.endOf 0 0 between).2 rest indent outer (behind.reverse ++ tokens)

/-- Behind a colon the text is read as the value, or it cannot be read. -/
def ReadsBack (text : List Char) (v : Value) : Prop :=
  ReadsAs text (Gives · v)

theorem readsAs_plain {text : List Char} (h : Yaml.isPlain '\n' text = true) :
    ReadsAs text (· = [.scalar text true]) := by
  intro line column index indent outer tokens between rest hindent hcolumn hgap hrest
  apply (Lexer.goes_plain hindent hcolumn hgap hrest h).trans
  intro m hm
  exact .refl ⟨[.scalar text true], rfl, hm⟩

theorem gives_scalar {text : List Char} {plain : Bool} {node : Node}
    (h : Node.ofScalar none text plain = some node) :
    Gives [.scalar text plain] (Value.ofNode node) := by
  refine ⟨node, fun name => ⟨?_, .scalar text plain, [], rfl, by simp⟩, rfl⟩
  rw [← h]
  exact Yaml.Parse.takes_scalar

theorem gives_quoted (s : String) : Gives [.scalar s.toList false] (.str s) := by
  have hread : Node.ofScalar none s.toList false = some (.str s) := by
    rw [Node.ofScalar]
    simp
  have hgives := gives_scalar hread
  rwa [Value.ofNode] at hgives

theorem gives_emptySequence : Gives [.openFlowSequence, .closeFlowSequence] (.list []) :=
  ⟨.sequence [], fun _ => ⟨Yaml.Parse.takes_emptySequence, _, _, rfl, by simp⟩, rfl⟩

theorem gives_emptyMapping : Gives [.openFlowMapping, .closeFlowMapping] (.map []) :=
  ⟨.mapping [], fun _ => ⟨Yaml.Parse.takes_emptyMapping, _, _, rfl, by simp⟩, rfl⟩

theorem ReadsAs.readsBack {text : List Char} {behind : List Token} {v : Value}
    (h : ReadsAs text (· = behind)) (hgives : Gives behind v) : ReadsBack text v := by
  intro line column index indent outer tokens between rest hindent hcolumn hgap hrest
  apply (h hindent hcolumn hgap hrest).trans
  rintro m ⟨_, rfl, hm⟩
  exact .refl ⟨_, hgives, hm⟩

/-- What makes tokens on its line is read with the gap behind it. -/
theorem readsAs_of_goes {text : List Char} {behind : List Token}
    (h : ∀ ⦃line column index : Nat⦄ ⦃indent : Int⦄ ⦃outer : List Int⦄ ⦃tokens : List Token⦄
      ⦃rest : List Char⦄, indent ≤ column →
      Lexer.Goes ⟨Yaml.place line column index (' ' :: (text ++ '\n' :: rest)), indent, outer, [none],
          false, tokens⟩
        (Lexer.IsBehind ('\n' :: rest) indent outer (behind.reverse ++ tokens))) :
    ReadsAs text (· = behind) := by
  intro line column index indent outer tokens between rest hindent hcolumn hgap hrest
  apply (h hcolumn).trans
  rintro _ ⟨line, column, index, rfl⟩
  exact .refl ⟨behind, rfl, Lexer.stands_lineEnd hgap hrest⟩

theorem readsAs_emptySequence : ReadsAs ['[', ']'] (· = [.openFlowSequence, .closeFlowSequence]) :=
  readsAs_of_goes fun _ _ _ _ _ _ _ hcolumn => Lexer.goes_emptySequence hcolumn

theorem readsAs_emptyMapping : ReadsAs ['\x7b', '\x7d'] (· = [.openFlowMapping, .closeFlowMapping]) :=
  readsAs_of_goes fun _ _ _ _ _ _ _ hcolumn => Lexer.goes_emptyMapping hcolumn

theorem readsBack_plain {text : List Char} {node : Node} (hplain : Yaml.isPlain '\n' text = true)
    (hnode : Node.ofPlain text = some node) : ReadsBack text (Value.ofNode node) :=
  (readsAs_plain hplain).readsBack (gives_scalar hnode)

/-- A text on one line is read back. -/
theorem readsBack_written {s t : String} (h : Yaml.IsWritten s t) : ReadsBack t.toList (.str s) := by
  cases h with
  | plain isPlain ofPlain _ =>
    have hreads := readsBack_plain (isPlain '\n') ofPlain
    rwa [Value.ofNode] at hreads
  | single stays =>
    refine (readsAs_of_goes fun _ _ _ _ _ _ _ hcolumn => ?_).readsBack (gives_quoted s)
    rw [Yaml.singleQuoted, String.toList_ofList, List.append_assoc]
    exact Lexer.goes_single hcolumn stays (by simp)
  | double =>
    refine (readsAs_of_goes fun _ _ _ _ _ _ _ hcolumn => ?_).readsBack (gives_quoted s)
    rw [Yaml.doubleQuoted, String.toList_ofList, List.append_assoc]
    exact Lexer.goes_double hcolumn

/-! ## Collections -/

/-- Behind a colon the text makes the file unreadable. -/
def Breaks (text : List Char) : Prop :=
  ∀ ⦃line column index : Nat⦄ ⦃indent : Int⦄ ⦃outer : List Int⦄ ⦃tokens : List Token⦄ ⦃Q : Lexer → Prop⦄
    (rest : List Char), indent ≤ column →
    Lexer.Goes ⟨Yaml.place line column index (' ' :: (text ++ '\n' :: rest)), indent, outer, [none],
      false, tokens⟩ Q

theorem Breaks.readsBack {text : List Char} (h : Breaks text) (v : Value) : ReadsBack text v := by
  intro line column index indent outer tokens between rest _ hcolumn _ _
  exact h (between ++ rest) hcolumn

/-- A mark of a block. -/
theorem breaks_mark {text : String} {c : Char} (hc : c = '-' ∨ c = '?')
    (htext : ∃ after, text.toList = c :: ' ' :: after) : Breaks (trimEnd text).toList := by
  obtain ⟨after, htext⟩ := htext
  intro line column index indent outer tokens Q rest hcolumn
  have hblank : Text.isBlank c = false := by rcases hc with rfl | rfl <;> decide
  obtain ⟨kept, hkept, hafter⟩ := @toList_trimEnd_append text [] (' ' :: after) c htext hblank
  obtain ⟨next, more, hmore, hnext⟩ := exists_space hafter (by decide) rest
  rw [hkept, List.nil_append, List.cons_append, hmore]
  exact Lexer.fails_mark hcolumn hc hnext

/-- A key on one line with its colon. -/
theorem breaks_key {text : String} {name written : String} {after : List Char} {c : Char}
    (hwritten : Yaml.IsWritten name written) (hc : Yaml.isSpace c = true)
    (htext : text.toList = written.toList ++ ':' :: c :: after) : Breaks (trimEnd text).toList := by
  intro line column index indent outer tokens Q rest hcolumn
  obtain ⟨kept, hkept, hafter⟩ := toList_trimEnd_append htext (by decide)
  obtain ⟨next, more, hmore, hnext⟩ := exists_space hafter hc rest
  rw [hkept, List.append_assoc, List.cons_append, hmore]
  cases hwritten with
  | plain isPlain _ _ => exact Lexer.fails_plain hcolumn (isPlain ':') hnext
  | single stays =>
    rw [Yaml.singleQuoted, String.toList_ofList, List.append_assoc]
    refine (Lexer.goes_single hcolumn stays (by simp)).trans ?_
    rintro _ ⟨line, column, index, rfl⟩
    exact Lexer.fails_colon hnext
  | double =>
    rw [Yaml.doubleQuoted, String.toList_ofList, List.append_assoc]
    refine (Lexer.goes_double hcolumn).trans ?_
    rintro _ ⟨line, column, index, rfl⟩
    exact Lexer.fails_colon hnext

theorem atIndent_cons (indent : Nat) (block : String) (blocks : List String) :
    ∃ more, Yaml.atIndent indent (block :: blocks) = block ++ more := by
  cases blocks with
  | nil => exact ⟨"", (String.append_empty).symm⟩
  | cons next blocks =>
    rw [Yaml.atIndent, String.intercalate_cons_cons, String.append_assoc]
    exact ⟨_, rfl⟩

theorem breaks_list (item : Value) (items : List Value) :
    Breaks (trimEnd (Yaml.write (Value.list (item :: items)).toNode)).toList := by
  obtain ⟨more, hmore⟩ := atIndent_cons 0 ("- " ++ Yaml.writeInline Yaml.indentStep item.toNode)
    (Yaml.writeItems 0 (Value.toNodes items))
  have htext : Yaml.write (Value.list (item :: items)).toNode
      = "- " ++ Yaml.writeInline Yaml.indentStep item.toNode ++ more ++ "\n" :=
    congrArg (· ++ "\n") hmore
  rw [htext, String.append_assoc, String.append_assoc]
  exact breaks_mark (.inl rfl) ⟨_, by rw [String.toList_append]; rfl⟩

/-- What stands behind the colon of a written entry starts with white space. -/
theorem exists_writeValue (node : Node) : ∃ c after,
    (Yaml.writeValue 0 node).toList = c :: after ∧ Yaml.isSpace c = true := by
  unfold Yaml.writeValue
  split
  · exact ⟨'\n', _, by simp only [String.toList_append]; rfl, rfl⟩
  · exact ⟨'\n', _, by simp only [String.toList_append]; rfl, rfl⟩
  · exact ⟨' ', _, by simp only [String.toList_append]; rfl, rfl⟩

theorem isWritten_key (indent : Nat) (name : String) :
    Yaml.IsWritten name (Yaml.writeText indent true name) := by
  rcases Yaml.writeText_cases indent true name with ⟨hkey, -⟩ | hwritten
  · cases hkey
  · exact hwritten

theorem breaks_map (entry : String × Value) (entries : List (String × Value)) :
    Breaks (trimEnd (Yaml.write (Value.map (entry :: entries)).toNode)).toList := by
  obtain ⟨name, v⟩ := entry
  obtain ⟨block, blocks, hblocks⟩ : ∃ block blocks,
      Yaml.writeEntries 0 (Value.toEntries ((name, v) :: entries)) = block :: blocks := ⟨_, _, rfl⟩
  obtain ⟨more, hmore⟩ := atIndent_cons 0 block blocks
  have htext : Yaml.write (Value.map ((name, v) :: entries)).toNode = block ++ more ++ "\n" := by
    rw [← hmore, ← hblocks]
    rfl
  rw [htext]
  have hblock := (List.cons.inj hblocks).1
  split at hblock
  · obtain ⟨c, after, hafter, hspace⟩ := exists_writeValue v.toNode
    have hline : (block ++ more ++ "\n").toList = (Yaml.writeText Yaml.indentStep true name).toList
        ++ ':' :: c :: (after ++ (more ++ "\n").toList) := by
      rw [String.append_assoc, String.toList_append, ← hblock, String.toList_append, hafter,
        String.toList_append, List.append_assoc, List.append_assoc]
      rfl
    exact breaks_key (isWritten_key Yaml.indentStep name) hspace hline
  · rw [← hblock]
    simp only [String.append_assoc]
    exact breaks_mark (.inr rfl) ⟨_, by rw [String.toList_append]; rfl⟩

/-! ## Values -/

/-- A text stays whole behind a colon if it is written on one line that no blank ends. -/
def staysWhole (s : String) : Bool :=
  let text := (Yaml.writeText Yaml.indentStep false s).toList
  !text.contains '\n' && !text.getLast?.any Text.isBlank

/-- A text stays whole, and a float is read back when it is written alone. -/
def Survives (v : Value) : Prop :=
  (∀ s, v = .str s → staysWhole s = true) ∧
    ∀ x, v = .float x → Yaml.read? (Yaml.write (.float x)) = some (.float x)

theorem isBlank_of_isSolid {c : Char} (h : Yaml.isSolid c = true) : Text.isBlank c = false := by
  obtain ⟨hlow, hhigh, -⟩ := Yaml.isSolid_iff.mp h
  simp [Text.isBlank, Text.inRanges]
  omega

/-- Behind a colon a line of visible characters is read as it is read alone. -/
theorem readsBack_solid {text : String} {node : Node} (hsolid : ∀ c ∈ text.toList, Yaml.isSolid c = true)
    (hplain : Yaml.isPlain '\n' text.toList = true) (hnode : Node.ofPlain text.toList = some node) :
    ReadsBack (trimEnd (text ++ "\n")).toList (Value.ofNode node) := by
  have hlast : text.toList.getLast?.any Text.isBlank = false := by
    rw [Option.any_eq_false]
    exact fun c hc => Bool.not_eq_true _ ▸ isBlank_of_isSolid (hsolid c (List.mem_of_getLast? hc))
  rw [toList_trimEnd_line hlast]
  exact readsBack_plain hplain hnode

/-- What is written for a value is read back behind a colon. -/
theorem readsBack_write {v : Value} (hdata : IsData v) (h : Survives v) :
    ReadsBack (trimEnd (Yaml.write v.toNode)).toList v := by
  cases hdata with
  | null => exact @readsBack_solid "null" .null (List.all_eq_true.mp rfl) (by decide) rfl
  | bool b =>
    cases b with
    | true => exact @readsBack_solid "true" (.bool true) (List.all_eq_true.mp rfl) (by decide) rfl
    | false => exact @readsBack_solid "false" (.bool false) (List.all_eq_true.mp rfl) (by decide) rfl
  | int i =>
    have hreads := readsBack_solid Yaml.isSolid_of_mem_toString (Yaml.isPlain_toString i.toInt)
      (Yaml.ofPlain_toString i)
    rw [Value.ofNode, Decimal.toInt64?_toInt] at hreads
    exact hreads
  | float x =>
    have hfloat := Yaml.isUnmarked_floatText x
    have hreads := readsBack_solid hfloat.solid (hfloat.isPlain '\n')
      (Yaml.ofPlain_floatText (h.2 x rfl))
    rwa [Value.ofNode] at hreads
  | str s =>
    have hwhole := h.1 s rfl
    simp only [staysWhole, Bool.and_eq_true, Bool.not_eq_true'] at hwhole
    have htext : Yaml.write (Value.str s).toNode = Yaml.writeText Yaml.indentStep false s ++ "\n" := rfl
    rw [htext, toList_trimEnd_line hwhole.2]
    rcases Yaml.writeText_cases Yaml.indentStep false s with ⟨-, -, hliteral⟩ | hwritten
    · have hfeed := Yaml.feed_mem_literal Yaml.indentStep s.toList
      rw [← hliteral, ← List.contains_iff_mem, hwhole.1] at hfeed
      cases hfeed
    · exact readsBack_written hwritten
  | list items =>
    cases items with
    | nil => exact readsAs_emptySequence.readsBack gives_emptySequence
    | cons item items => exact (breaks_list item items).readsBack _
  | map entries =>
    cases entries with
    | nil => exact readsAs_emptyMapping.readsBack gives_emptyMapping
    | cons entry entries => exact (breaks_map entry entries).readsBack _

end KeyExpansion.Command.Starter
