-- SUMMARY: A new source file is read back as the settings that it was made of.
import KeyExpansion.Proofs.Command.Written
import KeyExpansion.Proofs.Yaml.Printable

/-! # New source files

The file of a template says a version, whether it inherits, and one line for each setting, with
comments in between. Its lines are read one by one; names are written as they stand, so that a
line holds the setting if its name is one plain scalar. What the name is then read as decides
about the layer. -/

namespace KeyExpansion.Command.Starter

open Yaml (Node Token Lexer)
open Yaml.Parse (Line)

/-! ## Lines -/

variable {l : Lexer} {name text between rest : List Char} {column : Nat} {indent : Int}
  {outer outer' : List Int} {tokens tokens' : List Token}

/-- A line of a name and a value, and what is behind it. -/
def lineThen (name text rest : List Char) : List Char :=
  name ++ ':' :: ' ' :: (text ++ '\n' :: rest)

/-- A line of a name and a value is read. -/
theorem goes_line {P : List Token → Prop}
    (h : l.Stands column (lineThen name text (between ++ rest)) indent outer tokens)
    (hname : Yaml.isPlain ':' name = true)
    (hmark : ∀ line index rest,
      Yaml.atDocumentMark (Yaml.place line column index (name ++ rest)) = false)
    (hopens : Lexer.Opens column indent outer tokens outer' tokens') (htext : ReadsAs text P)
    (hgap : Yaml.isGap true false between = true)
    (hrest : Yaml.GoesOn (column + 1) (Yaml.endOf 0 0 between).2 rest) :
    l.Goes fun m => ∃ behind, P behind ∧ ∀ node, m.Stands (Yaml.endOf 0 0 between).2 rest column outer'
      ((Line.all ⟨name, behind, node⟩).reverse ++ tokens') := by
  obtain ⟨⟨line, index, hskip⟩, hlength⟩ := h
  apply (Lexer.goes_key hskip hlength hname rfl (hmark _ _ _) hopens).trans
  rintro _ rfl
  apply (htext (Int.natCast_nonneg column) (by omega) hgap hrest).trans
  rintro m ⟨behind, hbehind, hm⟩
  refine .refl ⟨behind, hbehind, fun node => ?_⟩
  rw [Line.all]
  simpa using hm

/-! ## Settings -/

variable {setting : String × Value} {settings : List (String × Value)} {after : List Char}

/-- A setting that fits on its line: its name is one plain scalar, and its value survives. -/
structure Fits (setting : String × Value) : Prop where
  name : Yaml.isPlain ':' setting.1.toList = true
  survives : Survives setting.2

/-- Settings of data that fit on their lines. -/
def AreWritable (settings : List (String × Value)) : Prop :=
  ∀ setting ∈ settings, Fits setting ∧ IsData setting.2

/-- The line of a setting holds its value. -/
structure IsLineOf (setting : String × Value) (line : Line) : Prop where
  name : line.name = setting.1.toList
  isRead : line.IsRead 126
  node : ∃ node, line.node = some node ∧ Value.ofNode node = setting.2

/-- The line of a setting without its indentation, and what is behind it. -/
def settingThen (setting : String × Value) (rest : List Char) : List Char :=
  lineThen setting.1.toList (trimEnd (Yaml.write setting.2.toNode)).toList rest

/-- The lines of settings, and what is behind them. -/
def linesThen (after : List Char) : List (String × Value) → List Char
  | [] => after
  | setting :: settings => ' ' :: ' ' :: settingThen setting (linesThen after settings)

theorem toList_valueSection (settings : List (String × Value)) (after : List Char) :
    (valueSection settings).toList ++ after = "values:\n".toList ++ linesThen after settings := by
  rw [valueSection, String.toList_append, String.toList_join, List.flatMap_map, List.append_assoc]
  congr 1
  induction settings with
  | nil => rfl
  | cons setting settings ih =>
    rw [List.flatMap_cons, List.append_assoc, ih, linesThen]
    simp [valueLine, settingThen, lineThen]

theorem Fits.exists_name (h : Fits setting) : ∃ c cs, setting.1.toList = c :: cs ∧
    Yaml.opensPlain ':' (c :: cs) = true ∧ Yaml.isBreak c = false := by
  obtain ⟨hopens, hplain⟩ := Yaml.isPlain_iff.mp h.name
  cases hname : setting.1.toList with
  | nil =>
    rw [hname] at hopens
    cases hopens
  | cons c cs =>
    rw [hname] at hopens hplain
    exact ⟨c, cs, rfl, hopens, Yaml.isBreak_of_isLineBreak (hplain.line c List.mem_cons_self)⟩

theorem Fits.goesOn (h : Fits setting) (rest : List Char) :
    Yaml.GoesOn 3 2 (settingThen setting rest) := by
  obtain ⟨c, cs, hname, hopens, -⟩ := h.exists_name
  rw [settingThen, lineThen, hname, List.cons_append]
  exact Yaml.goesOn_of_opensPlain hopens (Int.lt_add_one_of_le (Int.le_refl 2))

/-- In the block of the values one more line is read. -/
theorem goes_setting (h : l.Stands 2 (settingThen setting (between ++ rest)) indent outer tokens)
    (hsetting : Fits setting ∧ IsData setting.2)
    (hopens : Lexer.Opens 2 indent outer tokens outer' tokens')
    (hgap : Yaml.isGap true false between = true)
    (hrest : Yaml.GoesOn 3 (Yaml.endOf 0 0 between).2 rest) :
    l.Goes fun m => ∃ line, IsLineOf setting line ∧
      m.Stands (Yaml.endOf 0 0 between).2 rest 2 outer' (line.all.reverse ++ tokens') := by
  have hmark (line index : Nat) (rest : List Char) :
      Yaml.atDocumentMark (Yaml.place line 2 index (setting.1.toList ++ rest)) = false := by
    obtain ⟨c, cs, hname, -, hbreak⟩ := hsetting.1.exists_name
    rw [hname, List.cons_append, Yaml.place_cons hbreak]
    exact Yaml.atDocumentMark_of_column (by simp)
  apply (goes_line h hsetting.1.name hmark hopens (readsBack_write hsetting.2 hsetting.1.survives)
    hgap hrest).trans
  rintro m ⟨behind, ⟨node, hread, hvalue⟩, hm⟩
  exact .refl ⟨⟨_, behind, some node⟩, ⟨rfl, hread _, node, rfl, hvalue⟩, hm (some node)⟩

/-- All lines of the values are read, up to the end of the text. -/
theorem goes_settings
    (h : l.Stands 2 (settingThen setting (linesThen after settings)) indent outer tokens)
    (hsettings : AreWritable (setting :: settings))
    (hopens : Lexer.Opens 2 indent outer tokens outer' tokens')
    (hafter : Yaml.isGap true false after = true) :
    l.Goes fun m => ∃ lines, List.Forall₂ IsLineOf (setting :: settings) lines ∧
      m.Stands (Yaml.endOf 0 0 after).2 [] 2 outer' ((lines.flatMap Line.all).reverse ++ tokens') := by
  induction settings generalizing l setting indent outer tokens tokens' with
  | nil =>
    rw [linesThen, ← List.append_nil after] at h
    apply (goes_setting h (hsettings _ List.mem_cons_self) hopens hafter trivial).trans
    rintro m ⟨line, hline, hm⟩
    refine .refl ⟨[line], .cons hline .nil, ?_⟩
    simpa using hm
  | cons next settings ih =>
    obtain ⟨hsetting, hsettings⟩ := List.forall_mem_cons.mp hsettings
    have hnext := (hsettings next List.mem_cons_self).1.goesOn (linesThen after settings)
    have htext : linesThen after (next :: settings)
        = [' ', ' '] ++ settingThen next (linesThen after settings) := rfl
    rw [htext] at h
    apply (goes_setting h hsetting hopens rfl hnext).trans
    rintro m ⟨line, hline, hm⟩
    apply (ih hm hsettings (.already outer' _)).trans
    rintro n ⟨lines, hlines, hn⟩
    refine .refl ⟨line :: lines, .cons hline hlines, ?_⟩
    rw [List.flatMap_cons, List.reverse_append, List.append_assoc]
    exact hn

/-- The values are opened and all their lines are read. -/
theorem goes_values
    (h : l.Stands 0 ("values:\n".toList ++ linesThen after (setting :: settings)) 0 [-1] tokens)
    (hsettings : AreWritable (setting :: settings)) (hafter : Yaml.isGap true false after = true) :
    l.Goes fun m => ∃ lines, List.Forall₂ IsLineOf (setting :: settings) lines ∧
      m.Stands (Yaml.endOf 0 0 after).2 [] 2 [0, -1] ((lines.flatMap Line.all).reverse
        ++ .openMapping :: .value :: .scalar "values".toList true :: .key :: tokens) := by
  obtain ⟨⟨line, index, hskip⟩, hlength⟩ := h
  have htext : "values:\n".toList ++ linesThen after (setting :: settings) = "values".toList
      ++ ':' :: '\n' :: ([' ', ' '] ++ settingThen setting (linesThen after settings)) := rfl
  have hnext := (hsettings setting List.mem_cons_self).1.goesOn (linesThen after settings)
  rw [htext] at hskip hlength
  apply (Lexer.goes_key hskip hlength rfl rfl rfl (.already [-1] tokens)).trans
  rintro _ rfl
  exact goes_settings (Lexer.stands_lineEnd rfl hnext) hsettings (.first [-1] _ (by decide)) hafter

theorem isUnified_settingThen (h : Fits setting) (hrest : Yaml.IsUnified rest) :
    Yaml.IsUnified (settingThen setting rest) := by
  have hname : Yaml.IsUnified setting.1.toList := by
    intro c hc
    have hline := (Yaml.isPlain_iff.mp h.name).2.line c hc
    constructor <;> rintro rfl <;> cases hline
  have hvalue : Yaml.IsUnified (trimEnd (Yaml.write setting.2.toNode)).toList := by
    intro c hc
    rw [toList_trimEnd, List.mem_reverse] at hc
    have hmem := List.mem_reverse.mp ((List.dropWhile_suffix _).mem hc)
    exact (Yaml.isPrintable_write setting.2).isUnified c hmem
  have hend := hvalue.append (.cons (by decide : '\n' ≠ '\r' ∧ '\n' ≠ '\u0085') hrest)
  exact hname.append (.cons (by decide) (.cons (by decide) hend))

theorem isUnified_linesThen (h : AreWritable settings) (hafter : Yaml.IsUnified after) :
    Yaml.IsUnified (linesThen after settings) := by
  induction settings with
  | nil => exact hafter
  | cons setting settings ih =>
    obtain ⟨hsetting, hsettings⟩ := List.forall_mem_cons.mp h
    exact .cons (by decide) (.cons (by decide) (isUnified_settingThen hsetting.1 (ih hsettings)))

theorem isUnified_valueSection (h : AreWritable settings) :
    Yaml.IsUnified (valueSection settings).toList := by
  rw [← List.append_nil (valueSection settings).toList, toList_valueSection]
  have hheading : Yaml.IsUnified "values:\n".toList := by simp [Yaml.IsUnified]
  exact hheading.append (isUnified_linesThen h (List.forall_mem_nil _))

/-! ## Templates -/

/-- What a template writes around its lines: comments and empty lines. -/
structure Frame where
  opening : List String
  between : List String
  before : List String
  after : List String

namespace Frame

def around (f : Frame) (inherit : Bool) (values : String) : String :=
  String.join f.opening ++ "api: dkey/v0\n" ++ String.join f.between
    ++ "inherit: " ++ toString inherit ++ "\n" ++ String.join f.before
    ++ values ++ String.join f.after

/-- What a file holds in front of its values, and what is behind. -/
def upTo (f : Frame) (inherit : Bool) (rest : List Char) : List Char :=
  (String.join f.opening).toList
    ++ lineThen "api".toList "dkey/v0".toList ((String.join f.between).toList
      ++ lineThen "inherit".toList (toString inherit).toList ((String.join f.before).toList ++ rest))

/-- Comments and empty lines with their line ends. -/
def isBlock (s : String) : Bool :=
  Yaml.isGap true false s.toList && s.toList.getLast?.any Yaml.isBreak && s.toList.all Yaml.isPrintable

/-- Nothing in the frame counts, and its line ends are line feeds. -/
def isSound (f : Frame) : Bool :=
  [f.opening, f.between, f.before, f.after].all (·.all isBlock)

/-- A gap from line to line. -/
structure IsSkipped (s : String) : Prop where
  isGap : Yaml.isGap true false s.toList = true
  column : (Yaml.endOf 0 0 s.toList).2 = 0
  printable : Yaml.IsPrintable s

theorem isSkipped_join {pieces : List String} (h : pieces.all isBlock = true) :
    IsSkipped (String.join pieces) := by
  induction pieces with
  | nil => exact ⟨rfl, rfl, nofun⟩
  | cons s pieces ih =>
    rw [List.all_cons, Bool.and_eq_true, isBlock, Bool.and_eq_true, Bool.and_eq_true,
      List.all_eq_true] at h
    obtain ⟨⟨⟨hgap, hlast⟩, hprintable⟩, hpieces⟩ := h
    obtain ⟨hgaps, hcolumn, hall⟩ := ih hpieces
    obtain ⟨happend, hend⟩ :=
      @(Yaml.IsGap.of_isGap hgap).append 0 0 (String.join pieces).toList _ _ _ hlast
    rw [← String.toList_append, ← String.join_cons] at happend hend
    refine ⟨happend.trans hgaps, hend.trans hcolumn, ?_⟩
    rw [String.join_cons]
    exact Yaml.IsPrintable.append hprintable hall

/-- The lines in front of the values. -/
def head (inherit : Bool) : List Line := [
  ⟨"api".toList, [.scalar "dkey/v0".toList true], some (.str "dkey/v0")⟩,
  ⟨"inherit".toList, [.scalar (toString inherit).toList true], some (.bool inherit)⟩]

variable {f : Frame} {inherit : Bool}

theorem isSkipped_of_isSound (h : f.isSound = true) :
    IsSkipped (String.join f.opening) ∧ IsSkipped (String.join f.between) ∧
      IsSkipped (String.join f.before) ∧ IsSkipped (String.join f.after) := by
  simp only [isSound, List.all_cons, List.all_nil, Bool.and_true, Bool.and_eq_true] at h
  exact ⟨isSkipped_join h.1, isSkipped_join h.2.1, isSkipped_join h.2.2.1, isSkipped_join h.2.2.2⟩

/-- The text is skipped up to its first line. -/
theorem stands_first {s : String} (h : IsSkipped s) (hrest : Yaml.GoesOn 1 0 rest) :
    ({ rest := Yaml.place 0 0 0 (s.toList ++ rest) } : Lexer).Stands 0 rest (-1) [] [] := by
  rw [← h.column] at hrest
  have hskip := @(Yaml.IsGap.of_isGap h.isGap).skip 0 0 0 rest 1 _ _ _
    { rest := Yaml.place 0 0 0 (s.toList ++ rest) } rfl hrest
  rw [h.column] at hskip
  refine ⟨⟨_, _, hskip⟩, ?_⟩
  simp [Yaml.length_place]

/-- A line at the start of a column and the comments behind it are read. -/
theorem goes_lineThen {s : String} {P : List Token → Prop}
    (h : l.Stands 0 (lineThen name text (s.toList ++ rest)) indent outer tokens) (hs : IsSkipped s)
    (hname : Yaml.isPlain ':' name = true)
    (hmark : ∀ line index rest, Yaml.atDocumentMark (Yaml.place line 0 index (name ++ rest)) = false)
    (hopens : Lexer.Opens 0 indent outer tokens outer' tokens') (htext : ReadsAs text P)
    (hrest : Yaml.GoesOn 1 0 rest) :
    l.Goes fun m => ∃ behind, P behind ∧ ∀ node,
      m.Stands 0 rest 0 outer' ((Line.all ⟨name, behind, node⟩).reverse ++ tokens') := by
  have hgoes := goes_line h hname hmark hopens htext hs.isGap (by rw [hs.column]; exact hrest)
  rw [hs.column] at hgoes
  exact hgoes

/-- The version and the inheritance are read. -/
theorem goes_head (h : f.isSound = true) (hrest : Yaml.GoesOn 1 0 rest) :
    Lexer.Goes { rest := Yaml.place 0 0 0 (f.upTo inherit rest) } fun m =>
      m.Stands 0 rest 0 [-1] (((head inherit).flatMap Line.all).reverse ++ [.openMapping]) := by
  obtain ⟨hopening, hbetween, hbefore, -⟩ := isSkipped_of_isSound h
  have hinherit : Yaml.isPlain '\n' (toString inherit).toList = true := by
    cases inherit <;> rfl
  have hapi (rest : List Char) : Yaml.GoesOn 1 0 (lineThen "api".toList "dkey/v0".toList rest) :=
    ⟨rfl, by decide, Int.one_pos⟩
  have hparents (rest : List Char) :
      Yaml.GoesOn 1 0 (lineThen "inherit".toList (toString inherit).toList rest) :=
    ⟨rfl, by decide, Int.one_pos⟩
  apply (goes_lineThen (stands_first hopening (hapi _)) hbetween rfl (fun _ _ _ => rfl)
    (.first [] [] (by decide)) (readsAs_plain rfl) (hparents _)).trans
  rintro m ⟨_, rfl, hm⟩
  apply (goes_lineThen (hm (some (.str "dkey/v0"))) hbefore rfl (fun _ _ _ => rfl) (.already [-1] _)
    (readsAs_plain hinherit) hrest).trans
  rintro n ⟨_, rfl, hn⟩
  exact .refl (hn (some (.bool inherit)))

theorem isRead_head : ∀ line ∈ head inherit, line.IsRead 127 := by
  have hnode : Node.ofPlain (toString inherit).toList = some (.bool inherit) := by
    cases inherit <;> rfl
  refine List.forall_mem_cons.mpr ⟨⟨Yaml.Parse.takes_scalar, _, _, rfl, by simp⟩,
    List.forall_mem_singleton.mpr ⟨?_, _, _, rfl, by simp⟩⟩
  rw [← hnode]
  exact Yaml.Parse.takes_scalar

theorem toList_around (f : Frame) (inherit : Bool) (values : String) :
    (f.around inherit values).toList
      = f.upTo inherit (values.toList ++ (String.join f.after).toList) := by
  simp [around, upTo, lineThen]

/-- A file starts with no byte order mark, and its line ends are line feeds if those of the values
are. -/
theorem isUnified_around (h : f.isSound = true) {values : String}
    (hvalues : Yaml.IsUnified values.toList) :
    (f.around inherit values).toList.head? ≠ some '\ufeff' ∧
      Yaml.IsUnified (f.around inherit values).toList := by
  obtain ⟨⟨-, -, hopening⟩, ⟨-, -, hbetween⟩, ⟨-, -, hbefore⟩, ⟨-, -, hafter⟩⟩ := isSkipped_of_isSound h
  have hinherit : Yaml.IsPrintable (toString inherit) := by
    cases inherit <;> decide
  have hfront : Yaml.IsPrintable (String.join f.opening ++ "api: dkey/v0\n" ++ String.join f.between
      ++ "inherit: " ++ toString inherit ++ "\n" ++ String.join f.before) :=
    ((((((hopening.append (by decide)).append hbetween).append (by decide)).append hinherit).append
      (by decide)).append hbefore)
  constructor
  · intro hhead
    rw [toList_around, upTo] at hhead
    cases hchars : (String.join f.opening).toList with
    | nil =>
      rw [hchars] at hhead
      cases hhead
    | cons c cs =>
      rw [hchars] at hhead
      have hprint := hopening c (hchars ▸ List.mem_cons_self)
      rw [Option.some.inj hhead] at hprint
      cases hprint
  · rw [around, String.toList_append, String.toList_append]
    exact (hfront.isUnified.append hvalues).append hafter.isUnified

/-- Behind the head of a file the text is read to its end as such lines. -/
structure ReadsLines (text : List Char) (P : List Line → Prop) : Prop where
  goesOn : Yaml.GoesOn 1 0 text
  reads : ∀ ⦃l : Lexer⦄ ⦃tokens : List Token⦄, l.Stands 0 text 0 [-1] tokens →
    l.Goes fun m => ∃ lines, P lines ∧ (∀ line ∈ lines, line.IsRead 127) ∧
      m.Reads (some { rest := [], tokens := .close :: ((lines.flatMap Line.all).reverse ++ tokens) })

/-- The layer of a file that can be read is made of its lines. -/
theorem exists_lines {values : String} {P : List Line → Prop} {layer : Layer} (h : f.isSound = true)
    (hunified : Yaml.IsUnified values.toList)
    (hvalues : ReadsLines (values.toList ++ (String.join f.after).toList) P)
    (hlayer : (Yaml.read? (f.around inherit values)).bind Layer.ofNode? = some layer) :
    ∃ lines, P lines ∧
      ((head inherit ++ lines).foldlM Line.add []).bind (Layer.ofNode? ∘ .mapping) = some layer := by
  obtain ⟨node, hnode, hlayer⟩ := Option.bind_eq_some_iff.mp hlayer
  have htokens := hnode
  rw [Yaml.read?] at htokens
  obtain ⟨result, htokens, -⟩ := Option.bind_eq_some_iff.mp htokens
  obtain ⟨hmark, hunified⟩ := isUnified_around h hunified
  have hhead := @goes_head _ f inherit h hvalues.goesOn
  rw [← toList_around] at hhead
  have hgoes := hhead.trans fun m hm => hvalues.reads hm
  obtain ⟨n, ⟨lines, hlines, hread, hreads⟩, hend⟩ := hgoes.of_tokens? hmark hunified htokens
  obtain ⟨l, hl, rfl⟩ := hend _ hreads
  obtain rfl := Option.some.inj hl
  refine ⟨lines, hlines, ?_⟩
  have hall : ∀ line ∈ head inherit ++ lines, line.IsRead 127 :=
    List.forall_mem_append.mpr ⟨isRead_head, hread⟩
  have hresult : (Token.close :: ((lines.flatMap Line.all).reverse
        ++ (((head inherit).flatMap Line.all).reverse ++ [.openMapping]))).reverse
      = .openMapping :: ((head inherit ++ lines).flatMap Line.all ++ [.close]) := by
    simp
  rw [hresult] at htokens
  rw [Yaml.Parse.read?_eq htokens (by simp) (Yaml.Parse.takes_mapping hall)] at hnode
  obtain ⟨made, hmade, rfl⟩ := Option.map_eq_some_iff.mp hnode
  rw [hmade]
  exact hlayer

end Frame

/-! ## Layers -/

/-- The line of all values. -/
def valuesLine (lines : List Line) : Line where
  name := "values".toList
  tokens := .openMapping :: (lines.flatMap Line.all ++ [.close])
  node := (lines.foldlM Line.add []).map .mapping

/-- The entry of a mapping that a setting comes to. -/
structure IsEntryOf (setting : String × Value) (entry : Node × Node) : Prop where
  key : Node.ofPlain setting.1.toList = some entry.1
  value : Value.ofNode entry.2 = setting.2

theorem isEntryOf_of_makes {lines : List Line} {made : List (Node × Node)}
    (hlines : List.Forall₂ IsLineOf settings lines) (hmade : List.Forall₂ Line.Makes lines made) :
    List.Forall₂ IsEntryOf settings made := by
  induction hlines generalizing made with
  | nil =>
    cases hmade
    exact .nil
  | cons hline _ ih =>
    cases hmade with
    | cons hentry hmade =>
      refine .cons ?_ (ih hmade)
      obtain ⟨hname, -, node, hnode, hvalue⟩ := hline
      obtain ⟨hkey, hentry⟩ := hentry
      obtain rfl := Option.some.inj (hnode.symm.trans hentry)
      exact ⟨hname ▸ hkey, hvalue⟩

/-- The entries of a file with values. -/
theorem foldlM_lines (inherit : Bool) (lines : List Line) :
    (Frame.head inherit ++ [valuesLine lines]).foldlM Line.add []
      = (lines.foldlM Line.add []).map fun made => [(.str "api", .str "dkey/v0"),
        (.str "inherit", .bool inherit), (.str "values", .mapping made)] := by
  unfold valuesLine
  generalize lines.foldlM Line.add [] = result
  cases result <;> rfl

theorem isRead_valuesLine {lines : List Line} (h : List.Forall₂ IsLineOf settings lines) :
    (valuesLine lines).IsRead 127 := by
  have hread : ∀ line ∈ lines, line.IsRead 126 := by
    induction h with
    | nil => exact nofun
    | cons hline _ ih => exact List.forall_mem_cons.mpr ⟨hline.isRead, ih⟩
  exact ⟨Yaml.Parse.takes_mapping hread, _, _, rfl, by simp⟩

/-- The values are read to the end of the text, where they and the file are closed. -/
theorem readsLines_values (hsettings : AreWritable (setting :: settings))
    (hafter : Yaml.isGap true false after = true) :
    Frame.ReadsLines ((valueSection (setting :: settings)).toList ++ after) fun more =>
      ∃ lines, List.Forall₂ IsLineOf (setting :: settings) lines ∧ more = [valuesLine lines] := by
  rw [toList_valueSection]
  refine ⟨⟨rfl, by decide, Int.one_pos⟩, fun l tokens h => ?_⟩
  apply (goes_values h hsettings hafter).trans
  rintro m ⟨lines, hlines, hm⟩
  refine .refl ⟨[valuesLine lines], ⟨lines, hlines, rfl⟩,
    List.forall_mem_singleton.mpr (isRead_valuesLine hlines), ?_⟩
  have hclosed : ([valuesLine lines].flatMap Line.all).reverse ++ tokens
      = .close :: ((lines.flatMap Line.all).reverse
        ++ .openMapping :: .value :: .scalar "values".toList true :: .key :: tokens) := by
    simp [valuesLine, Line.all]
  rw [hclosed]
  exact hm.reads_end

/-- The values of settings are read within a sound frame. -/
theorem exists_values {f : Frame} {inherit : Bool} {layer : Layer} (hsound : f.isSound = true)
    (hsettings : AreWritable (setting :: settings))
    (h : (Yaml.read? (f.around inherit (valueSection (setting :: settings)))).bind Layer.ofNode?
      = some layer) :
    ∃ made, List.Forall₂ IsEntryOf (setting :: settings) made ∧ layer = { inherit, values := made } := by
  have hafter := (Frame.isSkipped_of_isSound hsound).2.2.2.isGap
  obtain ⟨_, ⟨lines, hlines, rfl⟩, hlayer⟩ := Frame.exists_lines hsound
    (isUnified_valueSection hsettings) (readsLines_values hsettings hafter) h
  obtain ⟨entries, hentries, hlayer⟩ := Option.bind_eq_some_iff.mp hlayer
  rw [foldlM_lines] at hentries
  obtain ⟨made, hmade, rfl⟩ := Option.map_eq_some_iff.mp hentries
  obtain ⟨added, hadded, hmakes⟩ := Line.makes_of_foldlM hmade
  rw [List.nil_append] at hadded
  exact ⟨made, isEntryOf_of_makes hlines (hadded ▸ hmakes), (Option.some.inj hlayer).symm⟩

/-! ### The templates -/

def minimalFrame : Frame := ⟨[], [], ["\n"], []⟩

def standardFrame : Frame where
  opening := ["# dkey source file\n\n"]
  between := [
    "\n",
    "# Optional: Human-readable description\n",
    "# description: \"My project locations\"\n\n",
    "# In-tree inheritance (default: false for security)\n",
    "# When true, walks up directory tree loading parent .dkey.yaml files\n",
    "# When false, only loads this file (recommended)\n"]
  before := [
    "\n",
    "# Explicit includes, layered underneath this file\n",
    "# includes:\n",
    "#   - ~/.config/dkey/defaults.dkey.yaml\n",
    "#   - ../shared/common.dkey.yaml\n\n",
    "# Values looked up during expansion. Later files win.\n",
    "# A name ending in '_' redirects to the key it holds.\n"]
  after := [
    "\n",
    "# Expansion settings\n",
    "# settings:\n",
    "#   limit: 10\n"]

/-- The standard template without values has comments in their place. -/
def bareFrame : Frame where
  opening := standardFrame.opening
  between := standardFrame.between
  before := standardFrame.before ++ [sampleValues] ++ standardFrame.after
  after := []

theorem isSound_frames :
    minimalFrame.isSound = true ∧ standardFrame.isSound = true ∧ bareFrame.isSound = true := by
  decide +kernel

theorem minimal_eq (inherit : Bool) (settings : List (String × Value)) :
    minimal inherit settings = minimalFrame.around inherit
      (if settings.isEmpty then "values: \x7b\x7d\n" else valueSection settings) := by
  have hline : "\n\n" = "\n" ++ "\n" := rfl
  unfold minimal minimalFrame
  simp only [Frame.around, String.join_cons, String.join_nil, hline, String.append_assoc,
    String.append_empty, String.empty_append]

theorem standard_eq (inherit : Bool) (settings : List (String × Value)) : standard inherit settings
    = if settings.isEmpty then bareFrame.around inherit ""
      else standardFrame.around inherit (valueSection settings) := by
  have hline : "\n\n" = "\n" ++ "\n" := rfl
  have hversion : "api: dkey/v0\n\n" = "api: dkey/v0\n" ++ "\n" := rfl
  unfold standard bareFrame standardFrame
  split
  · simp only [Frame.around, String.join_cons, String.join_nil, List.cons_append, List.nil_append,
      hline, hversion, String.append_assoc, String.append_empty]
  · simp only [Frame.around, String.join_cons, String.join_nil, hline, hversion, String.append_assoc,
      String.append_empty]

/-- The line of no values. -/
def emptyLine : Line where
  name := "values".toList
  tokens := [.openFlowMapping, .closeFlowMapping]
  node := some (.mapping [])

theorem readsLines_empty :
    Frame.ReadsLines ("values: \x7b\x7d\n".toList ++ (String.join minimalFrame.after).toList)
      (· = [emptyLine]) := by
  have hread : emptyLine.IsRead 127 := ⟨Yaml.Parse.takes_emptyMapping, _, _, rfl, by simp⟩
  refine ⟨⟨rfl, by decide, Int.one_pos⟩, fun l tokens h => ?_⟩
  have hline : "values: \x7b\x7d\n".toList ++ (String.join minimalFrame.after).toList
      = lineThen "values".toList ['\x7b', '\x7d'] ([] ++ []) := rfl
  rw [hline] at h
  apply (goes_line h rfl (fun _ _ _ => rfl) (.already [-1] tokens) readsAs_emptyMapping rfl
    trivial).trans
  rintro m ⟨_, rfl, hm⟩
  exact .refl ⟨_, rfl, List.forall_mem_singleton.mpr hread, (hm emptyLine.node).reads_end⟩

theorem layer_of_minimal {inherit : Bool} {layer : Layer}
    (h : (Yaml.read? (minimalFrame.around inherit "values: \x7b\x7d\n")).bind Layer.ofNode?
      = some layer) :
    layer = { inherit } := by
  obtain ⟨_, rfl, hlayer⟩ :=
    Frame.exists_lines isSound_frames.1 (by simp [Yaml.IsUnified]) readsLines_empty h
  exact (Option.some.inj hlayer).symm

theorem layer_of_bare {inherit : Bool} {layer : Layer}
    (h : (Yaml.read? (bareFrame.around inherit "")).bind Layer.ofNode? = some layer) :
    layer = { inherit } := by
  have hend : Frame.ReadsLines ("".toList ++ (String.join bareFrame.after).toList) (· = []) :=
    ⟨trivial, fun _ _ h => .refl ⟨[], rfl, nofun, h.reads_end⟩⟩
  obtain ⟨_, rfl, hlayer⟩ :=
    Frame.exists_lines isSound_frames.2.2 (by simp [Yaml.IsUnified]) hend h
  exact (Option.some.inj hlayer).symm

/-- The layer that the text of a template gives. -/
theorem layer_of_content {template : String} {inherit : Bool} {layer : Layer}
    (hsettings : AreWritable settings)
    (h : Layer.ofText (content template inherit settings) = .ok layer) :
    ∃ made, List.Forall₂ IsEntryOf settings made ∧ layer = { inherit, values := made } := by
  rw [Layer.ofText] at h
  split at h
  · next hread =>
    obtain rfl := Except.ok.inj h
    cases settings with
    | nil =>
      refine ⟨[], .nil, ?_⟩
      rw [content, minimal_eq, standard_eq] at hread
      split at hread
      · exact layer_of_minimal hread
      · exact layer_of_bare hread
    | cons setting settings =>
      rw [content, minimal_eq, standard_eq] at hread
      split at hread
      · exact exists_values isSound_frames.1 hsettings hread
      · exact exists_values isSound_frames.2.1 hsettings hread
  · cases h

end KeyExpansion.Command.Starter
