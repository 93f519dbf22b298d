-- SUMMARY: The runs of a separator in a text, and that collapsing them changes no more than their lengths.
import KeyExpansion.Proofs.Text.Tidy

/-! # Runs of a separator

A text is scanned from the left for a separator, which may be any text and may overlap itself.
Separators that follow each other directly are one run. Collapsing keeps what stands between
the runs and makes no run longer than two. The seams are safe because of what a scan knows: in
front of a run no separator begins, not even one that reaches into the run, and behind a run
none begins where it ends. Both are still so when the run is shorter, so that the collapsed text
is scanned as the text was. -/

namespace KeyExpansion.Text

variable {sep cs rest piece : List Char} {run count : Nat}

/-- The separator, a number of times. -/
def times (count : Nat) (sep : List Char) : List Char :=
  (List.replicate count sep).flatten

@[simp] theorem times_zero : times 0 sep = [] := rfl

@[simp] theorem times_succ : times (count + 1) sep = sep ++ times count sep := rfl

/-- A run of separators and the piece of text in front of it. -/
structure Run where
  piece : List Char
  count : Nat
deriving DecidableEq

/-- The runs of a text, and the piece behind the last of them. -/
structure Scan where
  runs : List Run
  last : List Char
deriving DecidableEq

namespace Scan

/-- One more run in front. -/
def cons (run : Run) (scan : Scan) : Scan where
  runs := run :: scan.runs
  last := scan.last

/-- The pieces of text between the runs and around them. -/
def pieces (scan : Scan) : List (List Char) :=
  scan.runs.map Run.piece ++ [scan.last]

/-- The lengths of the runs. -/
def counts (scan : Scan) : List Nat :=
  scan.runs.map Run.count

/-- The scan with no run longer than two. -/
def capped (scan : Scan) : Scan where
  runs := scan.runs.map fun run => ⟨run.piece, min run.count 2⟩
  last := scan.last

theorem capped_cons (run : Run) (scan : Scan) :
    (scan.cons run).capped = scan.capped.cons ⟨run.piece, min run.count 2⟩ := rfl

theorem capped_capped (scan : Scan) : scan.capped.capped = scan.capped := by
  simp [capped, Function.comp_def]

theorem pieces_capped (scan : Scan) : scan.capped.pieces = scan.pieces := by
  simp [capped, pieces, Function.comp_def]

theorem counts_capped (scan : Scan) : scan.capped.counts = scan.counts.map (min · 2) := by
  simp [capped, counts, Function.comp_def]

end Scan

/-- What a scan from the left finds. A run is as long as it can be. -/
inductive Scans (sep : List Char) : List Char → Scan → Prop where
  | last {piece : List Char} (free : ¬ sep <:+: piece) : Scans sep piece ⟨[], piece⟩
  | run {piece rest : List Char} {count : Nat} {later : Scan} (first : IsFirst sep piece)
      (positive : 0 < count) (ends : ¬ sep <+: rest) (more : Scans sep rest later) :
      Scans sep (piece ++ times count sep ++ rest) (later.cons ⟨piece, count⟩)

/-! ## There is one scan -/

/-- As many separators as there are at the start of a text. -/
theorem exists_times (hsep : sep ≠ []) (cs : List Char) :
    ∃ count rest, cs = times count sep ++ rest ∧ ¬ sep <+: rest := by
  induction hlength : cs.length using Nat.strong_induction_on generalizing cs with
  | _ length ih =>
    by_cases hstart : sep <+: cs
    · obtain ⟨tail, rfl⟩ := hstart
      have hshorter : tail.length < length := by
        have hpos := List.length_pos_of_ne_nil hsep
        rw [List.length_append] at hlength
        omega
      obtain ⟨count, rest, htail, hends⟩ := ih tail.length hshorter tail rfl
      refine ⟨count + 1, rest, ?_, hends⟩
      rw [times_succ, List.append_assoc, ← htail]
    · exact ⟨0, cs, rfl, hstart⟩

/-- They can be counted in one way. -/
theorem times_append_inj {count' : Nat} {rest' : List Char} (hends : ¬ sep <+: rest)
    (hends' : ¬ sep <+: rest') (h : times count sep ++ rest = times count' sep ++ rest') :
    count = count' ∧ rest = rest' := by
  induction count generalizing count' with
  | zero =>
    cases count' with
    | zero => exact ⟨rfl, h⟩
    | succ count' =>
      rw [times_zero, List.nil_append, times_succ, List.append_assoc] at h
      exact absurd ⟨_, h.symm⟩ hends
  | succ count ih =>
    rw [times_succ, List.append_assoc] at h
    cases count' with
    | zero => exact absurd ⟨_, h⟩ hends'
    | succ count' =>
      rw [times_succ, List.append_assoc] at h
      obtain ⟨rfl, hrest⟩ := ih (List.append_cancel_left h)
      exact ⟨rfl, hrest⟩

theorem exists_scans (hsep : sep ≠ []) (cs : List Char) : ∃ scan, Scans sep cs scan := by
  induction hlength : cs.length using Nat.strong_induction_on generalizing cs with
  | _ length ih =>
    cases hcut : cut? sep cs with
    | none => exact ⟨_, .last (cut?_eq_none.mp hcut)⟩
    | some cut =>
      obtain ⟨piece, after⟩ := cut
      obtain ⟨rfl, hfirst⟩ := (cut?_eq_some hsep).mp hcut
      obtain ⟨count, rest, rfl, hends⟩ := exists_times hsep after
      have hshorter : rest.length < length := by
        have hpos := List.length_pos_of_ne_nil hsep
        simp only [List.length_append] at hlength
        omega
      obtain ⟨later, hlater⟩ := ih rest.length hshorter rest rfl
      have hscan := Scans.run hfirst (Nat.succ_pos count) hends hlater
      rw [times_succ] at hscan
      simp only [List.append_assoc] at hscan ⊢
      exact ⟨_, hscan⟩

theorem Scans.unique (hsep : sep ≠ []) {scan other : Scan} (h : Scans sep cs scan)
    (hother : Scans sep cs other) : other = scan := by
  induction h generalizing other with
  | last free =>
    cases hother with
    | last => rfl
    | @run piece rest count _ _ positive _ _ =>
      obtain ⟨count, rfl⟩ := Nat.exists_eq_succ_of_ne_zero positive.ne'
      refine absurd ⟨piece, times count sep ++ rest, ?_⟩ free
      simp only [Nat.succ_eq_add_one, times_succ, List.append_assoc]
  | @run piece rest count later first positive ends _ ih =>
    obtain ⟨count, rfl⟩ := Nat.exists_eq_succ_of_ne_zero positive.ne'
    have hcut : cut? sep (piece ++ times (count + 1) sep ++ rest)
        = some (piece, times count sep ++ rest) := by
      refine (cut?_eq_some hsep).mpr ⟨?_, first⟩
      simp only [times_succ, List.append_assoc]
    generalize hcs : piece ++ times (count + 1) sep ++ rest = cs at hcut hother
    cases hother with
    | last free => rw [cut?_eq_none.mpr free] at hcut; cases hcut
    | @run piece' rest' count' later' first' positive' ends' more' =>
      obtain ⟨count', rfl⟩ := Nat.exists_eq_succ_of_ne_zero positive'.ne'
      have hcut' : cut? sep (piece' ++ times (count' + 1) sep ++ rest')
          = some (piece', times count' sep ++ rest') := by
        refine (cut?_eq_some hsep).mpr ⟨?_, first'⟩
        simp only [times_succ, List.append_assoc]
      obtain ⟨rfl, hafter⟩ := Prod.mk.inj (Option.some.inj (hcut.symm.trans hcut'))
      obtain ⟨rfl, rfl⟩ := times_append_inj ends ends' hafter
      rw [ih more']

/-! ## Collapsing -/

theorem collapseFrom_sep (hsep : sep ≠ []) :
    collapseFrom sep 0 run (sep ++ rest)
      = (if run < 2 then sep else []) ++ collapseFrom sep 0 (run + 1) rest := by
  obtain ⟨c, tail, rfl⟩ := List.exists_cons_of_ne_nil hsep
  rw [List.cons_append, collapseFrom, if_pos (by simp), collapseFrom_skip, List.length_cons,
    Nat.add_sub_cancel, List.drop_left]

/-- Of a run the first two separators are kept. -/
theorem collapseFrom_times (hsep : sep ≠ []) :
    collapseFrom sep 0 run (times count sep ++ rest)
      = times (min count (2 - run)) sep ++ collapseFrom sep 0 (run + count) rest := by
  induction count generalizing run with
  | zero => simp
  | succ count ih =>
    rw [times_succ, List.append_assoc, collapseFrom_sep hsep, ih, Nat.add_right_comm]
    by_cases hrun : run < 2
    · have hkept : min (count + 1) (2 - run) = min count (2 - (run + 1)) + 1 := by omega
      rw [if_pos hrun, hkept, times_succ, List.append_assoc, Nat.add_assoc]
    · have hkept : min (count + 1) (2 - run) = 0 := by omega
      have hnone : min count (2 - (run + 1)) = 0 := by omega
      rw [if_neg hrun, hkept, hnone, times_zero, List.nil_append, List.nil_append, List.nil_append,
        Nat.add_assoc]

/-- A run ends where no separator begins. -/
theorem collapseFrom_ends (hends : ¬ sep <+: rest) :
    collapseFrom sep 0 run rest = collapseFrom sep 0 0 rest := by
  cases rest with
  | nil => rfl
  | cons c rest =>
    have hstart : sep.isPrefixOf (c :: rest) = false := by
      rw [Bool.eq_false_iff, ne_eq, List.isPrefixOf_iff_prefix]
      exact hends
    simp only [collapseFrom, hstart, Bool.false_eq_true, if_false]

/-- What stands in front of the first separator is kept. -/
theorem collapseFrom_first (hfirst : IsFirst sep piece) :
    collapseFrom sep 0 0 (piece ++ (sep ++ rest)) = piece ++ collapseFrom sep 0 0 (sep ++ rest) := by
  induction piece with
  | nil => rfl
  | cons c piece ih =>
    obtain ⟨hstart, hfirst⟩ := (isFirst_cons rest).mp hfirst
    have hstart : sep.isPrefixOf (c :: (piece ++ (sep ++ rest))) = false := by
      rw [Bool.eq_false_iff, ne_eq, List.isPrefixOf_iff_prefix, ← List.append_assoc]
      exact hstart
    rw [List.cons_append, collapseFrom, if_neg (by simp [hstart]), ih hfirst, List.cons_append]

theorem collapseFrom_free (hfree : ¬ sep <:+: piece) : collapseFrom sep 0 0 piece = piece := by
  induction piece with
  | nil => rfl
  | cons c piece ih =>
    rw [List.infix_cons_iff, not_or] at hfree
    have hstart : sep.isPrefixOf (c :: piece) = false := by
      rw [Bool.eq_false_iff, ne_eq, List.isPrefixOf_iff_prefix]
      exact hfree.1
    rw [collapseFrom, if_neg (by simp [hstart]), ih hfree.2]

/-- A run and what follows it are collapsed each on its own. -/
theorem collapseFrom_run (hsep : sep ≠ []) (hfirst : IsFirst sep piece) (hcount : 0 < count)
    (hends : ¬ sep <+: rest) :
    collapseFrom sep 0 0 (piece ++ times count sep ++ rest)
      = piece ++ times (min count 2) sep ++ collapseFrom sep 0 0 rest := by
  have hrun : collapseFrom sep 0 0 (times count sep ++ rest)
      = times (min count 2) sep ++ collapseFrom sep 0 0 rest := by
    rw [collapseFrom_times hsep, collapseFrom_ends hends]
  obtain ⟨count, rfl⟩ := Nat.exists_eq_succ_of_ne_zero hcount.ne'
  rw [List.append_assoc, List.append_assoc, ← hrun, Nat.succ_eq_add_one, times_succ,
    List.append_assoc, collapseFrom_first hfirst]

/-- No separator begins in the piece in front of a run, however long the run is. -/
theorem not_prefix_run {count' : Nat} {rest' : List Char} (hfirst : IsFirst sep piece)
    (hcount : 0 < count) (hcount' : 0 < count')
    (h : ¬ sep <+: piece ++ times count sep ++ rest) :
    ¬ sep <+: piece ++ times count' sep ++ rest' := by
  obtain ⟨count, rfl⟩ := Nat.exists_eq_succ_of_ne_zero hcount.ne'
  obtain ⟨count', rfl⟩ := Nat.exists_eq_succ_of_ne_zero hcount'.ne'
  simp only [Nat.succ_eq_add_one, times_succ, List.append_assoc] at h ⊢
  cases piece with
  | nil => exact absurd (List.prefix_append _ _) h
  | cons c piece =>
    have hstart := ((isFirst_cons (times count' sep ++ rest')).mp hfirst).1
    simpa only [List.cons_append, List.append_assoc] using hstart

/-- Where no separator begins, none begins after collapsing. -/
theorem Scans.not_prefix_collapse (hsep : sep ≠ []) {scan : Scan} (h : Scans sep cs scan)
    (hstart : ¬ sep <+: cs) : ¬ sep <+: collapseFrom sep 0 0 cs := by
  cases h with
  | last free =>
    rw [collapseFrom_free free]
    exact hstart
  | run first positive ends _ =>
    rw [collapseFrom_run hsep first positive ends]
    exact not_prefix_run first positive (by omega) hstart

/-- The collapsed text is scanned as the text is, but that no run is longer than two. -/
theorem Scans.collapse (hsep : sep ≠ []) {scan : Scan} (h : Scans sep cs scan) :
    Scans sep (collapseFrom sep 0 0 cs) scan.capped := by
  induction h with
  | last free =>
    rw [collapseFrom_free free]
    exact .last free
  | run first positive ends more ih =>
    rw [collapseFrom_run hsep first positive ends]
    exact .run first (by omega) (more.not_prefix_collapse hsep ends) ih

/-- A text in which no run is longer than two is left as it is. -/
theorem Scans.collapse_eq_self (hsep : sep ≠ []) {scan : Scan} (h : Scans sep cs scan)
    (hcapped : scan.capped = scan) : collapseFrom sep 0 0 cs = cs := by
  induction h with
  | last free => exact collapseFrom_free free
  | @run piece rest count later first positive ends _ ih =>
    rw [Scan.capped_cons] at hcapped
    simp only [Scan.cons, Scan.mk.injEq, List.cons.injEq, Run.mk.injEq, true_and] at hcapped
    obtain ⟨⟨hcount, hruns⟩, -⟩ := hcapped
    have hlater : later.capped = later := by
      rw [Scan.capped] at hruns ⊢
      simp only at hruns
      rw [hruns]
    rw [collapseFrom_run hsep first positive ends, ih hlater, hcount]

/-! ## Collapsing is a projection -/

/-- Collapsing twice is collapsing once. The collapsed text has the same pieces of text with as
many runs between them, of which none is longer than two and the others are as they were. -/
theorem collapseRuns_projects (hsep : sep ≠ []) (cs : List Char) :
    collapseRuns sep (collapseRuns sep cs) = collapseRuns sep cs ∧
      ∃ before after : Scan, (∀ scan, Scans sep cs scan ↔ scan = before) ∧
        (∀ scan, Scans sep (collapseRuns sep cs) scan ↔ scan = after) ∧
        after.pieces = before.pieces ∧ after.counts = before.counts.map (min · 2) ∧
        ∀ count ∈ after.counts, count ≤ 2 := by
  have hcollapse (text : List Char) : collapseRuns sep text = collapseFrom sep 0 0 text := by
    rw [collapseRuns, if_neg (by simpa using hsep)]
  obtain ⟨scan, hscan⟩ := exists_scans hsep cs
  have hcapped := hscan.collapse hsep
  simp only [hcollapse]
  refine ⟨hcapped.collapse_eq_self hsep scan.capped_capped, scan, scan.capped, ?_, ?_,
    scan.pieces_capped, scan.counts_capped, ?_⟩
  · intro other
    constructor
    · exact hscan.unique hsep
    · rintro rfl
      exact hscan
  · intro other
    constructor
    · exact hcapped.unique hsep
    · rintro rfl
      exact hcapped
  · rw [scan.counts_capped]
    intro count hcount
    obtain ⟨whole, -, rfl⟩ := List.mem_map.mp hcount
    exact Nat.min_le_right whole 2

/-- A separator that overlaps itself. The first one leaves `ba` behind, and three follow that. -/
theorem collapseRuns_projects_overlapping :
    "aba".toList ≠ [] ∧
      Scans "aba".toList "xababaabaabaabac".toList ⟨[⟨['x'], 1⟩, ⟨['b', 'a'], 3⟩], ['c']⟩ ∧
      collapseRuns "aba".toList "xababaabaabaabac".toList = "xababaabaabac".toList ∧
      collapseRuns "aba".toList "xababaabaabac".toList = "xababaabaabac".toList ∧
      ∃ after, Scans "aba".toList "xababaabaabac".toList after ∧
        after.pieces = [['x'], ['b', 'a'], ['c']] ∧ after.counts = [1, 2] := by
  have hthree : Scans "aba".toList (['b', 'a'] ++ times 3 "aba".toList ++ ['c'])
      ⟨[⟨['b', 'a'], 3⟩], ['c']⟩ :=
    .run (by unfold IsFirst; decide) (by decide) (by decide) (.last (by decide))
  have hscan : Scans "aba".toList
      (['x'] ++ times 1 "aba".toList ++ (['b', 'a'] ++ times 3 "aba".toList ++ ['c']))
      ⟨[⟨['x'], 1⟩, ⟨['b', 'a'], 3⟩], ['c']⟩ :=
    .run (by unfold IsFirst; decide) (by decide) (by decide) hthree
  have hcollapse : collapseRuns "aba".toList "xababaabaabaabac".toList = "xababaabaabac".toList := by
    decide
  have hsep : "aba".toList ≠ [] := by decide
  obtain ⟨htwice, before, after, hbefore, hafter, hpieces, hcounts, -⟩ :=
    collapseRuns_projects hsep "xababaabaabaabac".toList
  obtain rfl := (hbefore _).mp hscan
  rw [hcollapse] at htwice hafter
  exact ⟨hsep, hscan, hcollapse, htwice, after, (hafter after).mpr rfl, hpieces, hcounts⟩

end KeyExpansion.Text
