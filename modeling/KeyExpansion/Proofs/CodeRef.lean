-- SUMMARY: Code references load what was registered last under their path, whatever their group is.
import KeyExpansion.CodeRef
import KeyExpansion.Proofs.Sectioned.Ancestry
import KeyExpansion.Proofs.Sectioned.Decoding
import Mathlib.Data.List.Induction

/-! # Loading code

Code is registered and taken out under paths in any order. What is found under a path is the
function of the last event there, if that is a registration. A reference that is written with
a group, or without one, is read back as its group and its path: the first two colons end the
group, and the first colon behind them the module. So it loads what is found under its path. -/

namespace KeyExpansion

namespace CodeTable

/-- Code is registered under a path, or what is there is taken out. -/
inductive Event where
  | register (path function : String)
  | unregister (path : String)

namespace Event

def path : Event → String
  | register path _ => path
  | unregister path => path

/-- What is found under the path afterwards. -/
def function? : Event → Option String
  | register _ function => some function
  | unregister _ => none

variable {event : Event} {path function : String}

@[simp] theorem path_register : (register path function).path = path := rfl

theorem eq_register_iff :
    event = .register path function ↔ event.path = path ∧ event.function? = some function := by
  cases event <;> simp [Event.path, function?]

end Event

def step (table : CodeTable) : Event → CodeTable
  | .register path function => table.register path function
  | .unregister path => table.unregister path

/-- What is left after events, where nothing was registered at first. -/
def run (events : List Event) : CodeTable :=
  events.foldl step {}

/-- No event follows this one on the same path. -/
def IsLast (event : Event) (events : List Event) : Prop :=
  ∃ before after, events = before ++ event :: after ∧ ∀ later ∈ after, later.path ≠ event.path

variable {table : CodeTable} {path function : String} {event last : Event} {events : List Event}

@[simp] theorem run_nil : run [] = {} := rfl

@[simp] theorem run_concat : run (events ++ [event]) = (run events).step event := by
  simp [run]

/-! ## One event -/

theorem lookup_cons (entry : String × String) (entries : List (String × String)) (own : String) :
    (entry :: entries).lookup own = if entry.1 = own then some entry.2 else entries.lookup own := by
  obtain ⟨path, function⟩ := entry
  rw [List.lookup_cons]
  by_cases hown : path = own
  · simp [hown]
  · rw [if_neg hown, beq_false_of_ne (Ne.symm hown)]

theorem lookup_insert (entries : List (String × String)) (own : String) :
    (insert path function entries).lookup own =
      if path = own then some function else entries.lookup own := by
  induction entries with
  | nil => exact lookup_cons (path, function) [] own
  | cons entry entries ih =>
    rw [insert]
    split
    · next hsame =>
      rw [lookup_cons, lookup_cons, hsame]
      split
      · rfl
      · rfl
    · next hother =>
      split
      · rw [lookup_cons]
      · rw [lookup_cons, ih, lookup_cons]
        by_cases hown : entry.1 = own
        · rw [if_pos hown, if_pos hown, if_neg (hown ▸ hother)]
        · rw [if_neg hown, if_neg hown]

theorem lookup_filter (entries : List (String × String)) (own : String) :
    (entries.filter (·.1 != path)).lookup own =
      if path = own then none else entries.lookup own := by
  induction entries with
  | nil => exact (ite_self none).symm
  | cons entry entries ih =>
    rw [List.filter_cons, lookup_cons]
    by_cases hsame : entry.1 = path
    · rw [if_neg (by simp [hsame]), ih, hsame]
      split
      · rfl
      · rfl
    · rw [if_pos (by simp [hsame]), lookup_cons, ih]
      by_cases hown : entry.1 = own
      · rw [if_pos hown, if_pos hown, if_neg (hown ▸ Ne.symm hsame)]
      · rw [if_neg hown, if_neg hown]

/-- An event says what is found under its path, and nothing about other paths. -/
theorem find?_step (own : String) :
    (table.step event).find? own = if event.path = own then event.function? else table.find? own := by
  cases event with
  | register path function => exact lookup_insert table.entries own
  | unregister path => exact lookup_filter table.entries own

/-! ## Runs -/

theorem isLast_concat : IsLast last (events ++ [event]) ↔
    event = last ∨ event.path ≠ last.path ∧ IsLast last events := by
  constructor
  · rintro ⟨before, after, hevents, hlater⟩
    rcases List.eq_nil_or_concat after with rfl | ⟨after, next, rfl⟩
    · exact .inl (List.singleton_inj.mp (List.append_inj' hevents rfl).2)
    · rw [List.concat_eq_append, ← List.cons_append, ← List.append_assoc] at hevents
      obtain ⟨rfl, hnext⟩ := List.append_inj' hevents rfl
      obtain rfl := List.singleton_inj.mp hnext
      simp only [List.concat_eq_append, List.forall_mem_append, List.forall_mem_singleton] at hlater
      exact .inr ⟨hlater.2, before, after, rfl, hlater.1⟩
  · rintro (rfl | ⟨hother, before, after, rfl, hlater⟩)
    · exact ⟨events, [], rfl, by simp⟩
    · refine ⟨before, after ++ [event], by simp, ?_⟩
      rw [List.forall_mem_append, List.forall_mem_singleton]
      exact ⟨hlater, hother⟩

/-- What is found under a path is what the last event there has registered. -/
theorem find?_run : (run events).find? path = some function ↔
    IsLast (.register path function) events := by
  induction events using List.reverseRecOn with
  | nil => simp [IsLast, find?]
  | append_singleton events event ih =>
    rw [run_concat, find?_step, isLast_concat, ← ih, Event.eq_register_iff, Event.path_register]
    -- An event on the path is the last one there, and one on another path changes nothing.
    by_cases hpath : event.path = path
    · simp [hpath]
    · simp [hpath]

end CodeTable

/-! ## References -/

theorem Sectioned.sectionText?_position {scheme : Scheme} (s : Sectioned scheme) (n : Nat) :
    s.sectionText? (.position n) = (s.layout.map fun part => part.bounds.slice s.text)[n]? := by
  rw [sectionText?, part?, sectionIndex?, List.getElem?_map]
  split
  · rfl
  · next hn => rw [List.getElem?_eq_none (Nat.not_lt.mp hn)]; rfl

namespace CodeRef

variable {fresh : Uuid} {group path : String} {r : CodeRef}

/-- The reference has this group, and loads what was registered last under the path. -/
structure Resolves (r : CodeRef) (group path : String) : Prop where
  group_eq : r.group = group
  path_eq : r.path = path
  load_eq_ok : ∀ events function, (CodeTable.run events).load r = .ok ⟨r, function⟩ ↔
    CodeTable.IsLast (.register path function) events
  load_eq_error : ∀ events, (CodeTable.run events).load r = .error (.codeNotFound r.toString) ↔
    ¬ ∃ function, CodeTable.IsLast (.register path function) events

theorem resolves_of_path (hgroup : r.group = group) (hpath : r.path = path) : r.Resolves group path := by
  refine ⟨hgroup, hpath, ?_, ?_⟩
  · intro events function
    rw [← CodeTable.find?_run, CodeTable.load, hpath]
    cases (CodeTable.run events).find? path <;> simp
  · intro events
    simp only [← CodeTable.find?_run, CodeTable.load, hpath]
    cases (CodeTable.run events).find? path <;> simp

/-! ## Reading -/

variable {g m v p : List Char}

/-- The words that a text with a group and a path has. -/
theorem writes (hg : ':' ∉ g) (hm : ':' ∉ m) (v : List Char) :
    Scheme.Writes Scheme.codeRef.sections
      [Text.splitOn ['.'] g, Text.splitOn ['.'] m, Text.splitOn ['.'] v]
      (g ++ "::".toList ++ (m ++ [':'] ++ v)) := by
  refine .cons (.ended rfl (Text.isFirst_of_not_mem hg) (Text.splits_splitOn _ g)) ?_
  refine .cons (.ended rfl (Text.isFirst_singleton.mpr hm) (Text.splits_splitOn _ m)) ?_
  exact .last (Text.splits_splitOn _ v)

theorem bodies_eq (g m v : List Char) :
    Scheme.bodies Scheme.codeRef.sections
      [Text.splitOn ['.'] g, Text.splitOn ['.'] m, Text.splitOn ['.'] v] = [g, m, v] := by
  have hjoin (cs : List Char) : Text.join ['.'] (Text.splitOn ['.'] cs) = cs :=
    (Text.splits_splitOn ['.'] cs).join_eq
  show [Text.join ['.'] (Text.splitOn ['.'] g), Text.join ['.'] (Text.splitOn ['.'] m),
    Text.join ['.'] (Text.splitOn ['.'] v)] = [g, m, v]
  rw [hjoin, hjoin, hjoin]

/-- Colons between them keep the dots of a group and of a path apart. -/
theorem isTidy_append (hg : ¬ "...".toList <:+: g) (hp : Text.IsTidy '.' p) (hne : p ≠ []) :
    Text.IsTidy '.' (g ++ "::".toList ++ p) := by
  have hcolon : Text.IsTidy '.' ([] ++ ':' :: p) := hp.append_cons hne (by decide) (by decide)
  rw [List.append_assoc]
  exact hcolon.append_cons (List.cons_ne_nil ':' p) (by decide) hg

/-- The parts of a reference that is read from such a text. -/
theorem path_of_layout (hg : ':' ∉ g) (hm : ':' ∉ m) (htext : r.text = g ++ "::".toList ++ (m ++ [':'] ++ v))
    (hlayout : r.layout = Scheme.place 0 Scheme.codeRef.sections
      [Text.splitOn ['.'] g, Text.splitOn ['.'] m, Text.splitOn ['.'] v]) :
    r.group = String.ofList g ∧ r.path = String.ofList (m ++ [':'] ++ v) := by
  have hslices := (writes hg hm v).map_slice_place (Nat.zero_le _) rfl
  rw [← htext, ← hlayout, bodies_eq] at hslices
  have hpart (n : Nat) : r.part n = String.ofList ([g, m, v][n]?.getD []) := by
    rw [part, Sectioned.sectionText?_position, hslices]
  refine ⟨hpart 0, ?_⟩
  rw [path, moduleName, valueName, hpart, hpart, String.ofList_append, String.ofList_append]
  rfl

/-- A text with a group is read as its group and its path. -/
theorem exists_parse (hcolon : ':' ∈ path.toList) (hpath : Text.IsTidy '.' path.toList)
    (hgroup : ':' ∉ group.toList) (hrun : ¬ "...".toList <:+: group.toList)
    (hfree : TokenFree (group ++ "::" ++ path).toList) :
    ∃ r : CodeRef, r.group = group ∧ r.path = path ∧
      ∀ fresh, parse fresh (group ++ "::" ++ path) = .ok r := by
  have hdotted := Scheme.isDotted_codeRef
  -- The first colon of the path ends the module; the value may have others.
  obtain ⟨m, v, hsplit, hm⟩ := List.eq_append_cons_of_mem hcolon
  rw [← List.singleton_append, ← List.append_assoc] at hsplit
  rw [String.toList_append, String.toList_append] at hfree
  have hwrites := writes hgroup hm v
  have hlayout := hwrites.layOutFrom_eq hdotted.stop_ne_nil (Nat.zero_le _) rfl
  rw [← hsplit] at hlayout
  have hclean : Scheme.codeRef.IsClean (group.toList ++ "::".toList ++ path.toList) none :=
    ⟨isTidy_append hrun hpath (List.ne_nil_of_mem hcolon), .plain hfree, hdotted.hasMarkers hlayout⟩
  obtain ⟨r, htext, hplace, hparse⟩ := Sectioned.exists_parse_of_isClean hdotted hclean hlayout
  obtain ⟨hgroupEq, hpathEq⟩ := path_of_layout hgroup hm (hsplit ▸ htext) hplace
  refine ⟨r, ?_, ?_, ?_⟩
  · rw [hgroupEq, String.ofList_toList]
  · rw [hpathEq, ← hsplit, String.ofList_toList]
  · intro fresh
    rw [parse, String.toList_append, String.toList_append]
    exact hparse fresh

theorem withLead_eq (text : List Char) :
    Scheme.codeRef.withLead text = if Text.contains "::".toList text then text
      else "fn".toList ++ "::".toList ++ text := rfl

/-- Without a group a text is read as if it had the usual one. -/
theorem parse_of_no_group (h : ¬ "::".toList <:+: path.toList) :
    parse fresh path = parse fresh ("fn" ++ "::" ++ path) := by
  have hmissing : ¬ Text.contains "::".toList path.toList = true := by
    rwa [Text.contains_eq_true]
  have hfound : Text.contains "::".toList ("fn".toList ++ "::".toList ++ path.toList) = true :=
    Text.contains_eq_true.mpr ⟨_, _, rfl⟩
  apply Sectioned.parse_congr
  rw [String.toList_append, String.toList_append, Scheme.clean, Scheme.clean, withLead_eq,
    withLead_eq, if_neg hmissing, if_pos hfound]

/-- A reference without a group and one with any group both load what is registered under
their path. -/
theorem parse_resolves (hcolon : ':' ∈ path.toList) (hmarker : ¬ "::".toList <:+: path.toList)
    (hpath : Text.IsTidy '.' path.toList) (hgroup : ':' ∉ group.toList)
    (hrun : ¬ "...".toList <:+: group.toList) (hfree : TokenFree (group ++ "::" ++ path).toList) :
    ∃ r r', parse fresh path = .ok r ∧ r.Resolves "fn" path ∧
      parse fresh (group ++ "::" ++ path) = .ok r' ∧ r'.Resolves group path := by
  -- The usual group brings no token with it, and the path has none.
  have hplain : TokenFree ("fn" ++ "::" ++ path).toList := by
    rw [String.toList_append] at hfree ⊢
    exact (hfree.mono (List.suffix_append _ _).isInfix).append_left (by decide)
  obtain ⟨r, hr, hrPath, hparse⟩ := exists_parse hcolon hpath (by decide) (by decide) hplain
  obtain ⟨r', hr', hrPath', hparse'⟩ := exists_parse hcolon hpath hgroup hrun hfree
  refine ⟨r, r', ?_, resolves_of_path hr hrPath, hparse' fresh, resolves_of_path hr' hrPath'⟩
  rw [parse_of_no_group hmarker]
  exact hparse fresh

/-- A path that starts with a colon is told from the marker before it. -/
theorem parse_resolves_colons :
    let table := CodeTable.run [.register ":a.b:c" "old", .register "a:b" "other",
      .register ":a.b:c" "new", .unregister "a:b"]
    ∃ r r', parse (Uuid.ofSeed 1) ":a.b:c" = .ok r ∧ parse (Uuid.ofSeed 1) "g:::a.b:c" = .ok r' ∧
      r.group = "fn" ∧ r'.group = "g" ∧ table.load r = .ok ⟨r, "new"⟩ ∧
      table.load r' = .ok ⟨r', "new"⟩ := by
  have hlast : CodeTable.IsLast (.register ":a.b:c" "new")
      [.register ":a.b:c" "old", .register "a:b" "other", .register ":a.b:c" "new",
        .unregister "a:b"] :=
    ⟨[_, _], [_], rfl, by decide⟩
  have hclear : IsClear ("g" ++ "::" ++ ":a.b:c").toList := ⟨by decide, by decide⟩
  obtain ⟨r, r', hparse, hr, hparse', hr'⟩ := @parse_resolves (Uuid.ofSeed 1) "g" ":a.b:c" (by decide)
    (by decide) ⟨by decide, by decide⟩ (by decide) (by decide) hclear.tokenFree
  exact ⟨r, r', hparse, hparse', hr.group_eq, hr'.group_eq, (hr.load_eq_ok _ _).mpr hlast,
    (hr'.load_eq_ok _ _).mpr hlast⟩

end CodeRef

end KeyExpansion
