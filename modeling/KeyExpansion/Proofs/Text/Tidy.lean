-- SUMMARY: Reducing runs of a separator and dropping those at the end: what stays and what goes.
import KeyExpansion.Proofs.Text.Search

/-! # Tidy texts

For a separator of one character a text is tidy if the separator never stands three
times in a row and not at the end. Tidying makes a text tidy, leaves tidy texts alone and
takes nothing away but separators. Since a run never goes altogether, a piece of text
without separators stands in the collapsed text only if it stood there before. -/

namespace KeyExpansion.Text

variable {d : Char} {cs xs ys : List Char} {run : Nat}

/-- No run of three separators and none at the end. -/
structure IsTidy (d : Char) (cs : List Char) : Prop where
  no_run : ¬ [d, d, d] <:+: cs
  no_end : ¬ [d] <:+ cs

/-- Runs reduced to two, and none at the end. -/
def tidy (d : Char) (cs : List Char) : List Char :=
  stripTrailing [d] (collapseRuns [d] cs)

/-! ## Collapsing -/

theorem collapseRuns_single : collapseRuns [d] cs = collapseFrom [d] 0 0 cs := rfl

theorem collapseFrom_same :
    collapseFrom [d] 0 run (d :: cs)
      = (if run < 2 then [d] else []) ++ collapseFrom [d] 0 (run + 1) cs := by
  simp [collapseFrom, List.isPrefixOf]

theorem collapseFrom_other {c : Char} (h : c ≠ d) :
    collapseFrom [d] 0 run (c :: cs) = c :: collapseFrom [d] 0 0 cs := by
  simp [collapseFrom, List.isPrefixOf, Ne.symm h]

/-- A run ends at any other character. -/
theorem collapseFrom_append_other {c : Char} (h : c ≠ d) :
    collapseFrom [d] 0 run (xs ++ c :: ys)
      = collapseFrom [d] 0 run xs ++ c :: collapseFrom [d] 0 0 ys := by
  induction xs generalizing run with
  | nil => exact collapseFrom_other h
  | cons x xs ih =>
    by_cases hx : x = d
    · subst hx
      rw [List.cons_append, collapseFrom_same, collapseFrom_same, ih, List.append_assoc]
    · rw [List.cons_append, collapseFrom_other hx, collapseFrom_other hx, ih, List.cons_append]

theorem collapseFrom_piece_append {piece : List Char} (h : d ∉ piece) :
    collapseFrom [d] 0 0 (piece ++ ys) = piece ++ collapseFrom [d] 0 0 ys := by
  induction piece with
  | nil => rfl
  | cons c piece ih =>
    obtain ⟨hc, hpiece⟩ := not_or.mp (List.mem_cons.not.mp h)
    rw [List.cons_append, collapseFrom_other (Ne.symm hc), ih hpiece, List.cons_append]

/-- A piece without separators is kept, and no run goes on behind it. -/
theorem collapseFrom_append_piece {piece : List Char} (hne : piece ≠ []) (h : d ∉ piece) :
    collapseFrom [d] 0 run (xs ++ piece ++ ys)
      = collapseFrom [d] 0 run xs ++ piece ++ collapseFrom [d] 0 0 ys := by
  obtain ⟨c, piece, rfl⟩ := List.exists_cons_of_ne_nil hne
  obtain ⟨hc, hpiece⟩ := not_or.mp (List.mem_cons.not.mp h)
  rw [List.append_assoc, List.cons_append, collapseFrom_append_other (Ne.symm hc),
    collapseFrom_piece_append hpiece, List.append_assoc, List.cons_append]

theorem collapseFrom_eq_self (h : ¬ [d, d, d] <:+: List.replicate run d ++ cs) :
    collapseFrom [d] 0 run cs = cs := by
  induction cs generalizing run with
  | nil => rfl
  | cons c cs ih =>
    by_cases hc : c = d
    · subst hc
      have hreplicate : List.replicate run c ++ c :: cs = List.replicate (run + 1) c ++ cs := by
        rw [List.replicate_succ', List.append_assoc, List.singleton_append]
      rw [hreplicate] at h
      have hrun : run < 2 := by
        by_contra hrun
        have hsplit : List.replicate (run + 1) c = [c, c, c] ++ List.replicate (run - 2) c := by
          rw [show run + 1 = 3 + (run - 2) by omega, List.replicate_add]
          rfl
        rw [hsplit, List.append_assoc] at h
        exact h (List.prefix_append _ _).isInfix
      rw [collapseFrom_same, if_pos hrun, ih h, List.singleton_append]
    · have hrest : ¬ [d, d, d] <:+: List.replicate 0 d ++ cs := by
        intro hinfix
        exact h ( hinfix.trans ((List.suffix_cons c cs).trans (List.suffix_append _ _)).isInfix)
      rw [collapseFrom_other hc, ih hrest]

/-- One more separator at the end is the last of a run, or is taken away. -/
theorem collapseFrom_concat (run : Nat) (cs : List Char) :
    collapseFrom [d] 0 run (cs ++ [d]) = collapseFrom [d] 0 run cs ++ [d] ∨
      collapseFrom [d] 0 run (cs ++ [d]) = collapseFrom [d] 0 run cs := by
  induction cs generalizing run with
  | nil =>
    rw [List.nil_append, collapseFrom_same]
    split
    · exact .inl rfl
    · exact .inr rfl
  | cons c cs ih =>
    by_cases hc : c = d
    · subst hc
      rw [List.cons_append, collapseFrom_same, collapseFrom_same]
      rcases ih (run + 1) with h | h
      · exact .inl (by rw [h, List.append_assoc])
      · exact .inr (by rw [h])
    · rw [List.cons_append, collapseFrom_other hc, collapseFrom_other hc]
      rcases ih 0 with h | h
      · exact .inl (by rw [h, List.cons_append])
      · exact .inr (by rw [h])

theorem run_of_replicate_append {c : Char} (hc : c ≠ d) {count : Nat} (hcount : count ≤ 2)
    (h : [d, d, d] <:+: List.replicate count d ++ c :: cs) : [d, d, d] <:+: cs := by
  rcases infix_of_infix_append_cons (by simp [hc]) h with h | h
  · have hlength := h.length_le
    simp only [List.length_cons, List.length_nil, List.length_replicate] at hlength
    omega
  · exact h

/-- No run of three is left, also with the separators seen before. -/
theorem no_run_collapseFrom (run : Nat) (cs : List Char) :
    ¬ [d, d, d] <:+: List.replicate (min run 2) d ++ collapseFrom [d] 0 run cs := by
  induction cs generalizing run with
  | nil =>
    intro h
    have hlength := h.length_le
    simp only [collapseFrom, List.append_nil, List.length_replicate, List.length_cons,
      List.length_nil] at hlength
    omega
  | cons c cs ih =>
    by_cases hc : c = d
    · subst hc
      rw [collapseFrom_same]
      by_cases hrun : run < 2
      · have hnext := ih (run + 1)
        rw [if_pos hrun, ← List.append_assoc, ← List.replicate_succ', Nat.min_eq_left (by omega)]
        rwa [Nat.min_eq_left (by omega)] at hnext
      · have hnext := ih (run + 1)
        rw [if_neg hrun, List.nil_append, Nat.min_eq_right (by omega)]
        rwa [Nat.min_eq_right (by omega)] at hnext
    · rw [collapseFrom_other hc]
      intro h
      exact ih 0 (run_of_replicate_append hc (Nat.min_le_right run 2) h)

theorem collapseFrom_sublist : (collapseFrom [d] 0 run cs).Sublist cs := by
  induction cs generalizing run with
  | nil => exact List.Sublist.slnil
  | cons c cs ih =>
    by_cases hc : c = d
    · subst hc
      rw [collapseFrom_same]
      split
      · exact ih.cons_cons c
      · exact ih.cons c
    · rw [collapseFrom_other hc]
      exact ih.cons_cons c

/-- The characters of a separator that was seen are passed over. -/
theorem collapseFrom_skip (sep : List Char) (skip run : Nat) (cs : List Char) :
    collapseFrom sep skip run cs = collapseFrom sep 0 run (cs.drop skip) := by
  induction skip generalizing cs with
  | zero => rfl
  | succ skip ih =>
    cases cs with
    | nil => simp [collapseFrom]
    | cons c cs => rw [collapseFrom, ih, List.drop_succ_cons]

section Filter

variable {sep : List Char} {p : Char → Bool}

theorem filter_eq_nil_of_separator (h : ∀ c ∈ sep, p c = false) : sep.filter p = [] :=
  List.filter_eq_nil_iff.mpr fun c hc => by simp [h c hc]

theorem filter_collapseFrom (hne : sep ≠ []) (h : ∀ c ∈ sep, p c = false) :
    (collapseFrom sep 0 run cs).filter p = cs.filter p := by
  induction hlength : cs.length using Nat.strong_induction_on generalizing cs run with
  | _ length ih =>
    subst hlength
    cases cs with
    | nil => rfl
    | cons c cs =>
      rw [collapseFrom]
      split
      · next hprefix =>
        obtain ⟨rest, hrest⟩ := List.isPrefixOf_iff_prefix.mp hprefix
        have hdrop : cs.drop (sep.length - 1) = rest := by
          have hwhole : (c :: cs).drop sep.length = rest := by rw [← hrest, List.drop_left]
          obtain ⟨n, hn⟩ := Nat.exists_eq_succ_of_ne_zero (List.length_pos_of_ne_nil hne).ne'
          rw [hn, List.drop_succ_cons] at hwhole
          rw [hn]
          exact hwhole
        have hshorter : rest.length < (c :: cs).length := by
          have hpos := List.length_pos_of_ne_nil hne
          rw [← hrest, List.length_append]
          omega
        have hseps : (if run < 2 then sep else []).filter p = [] := by
          split
          · exact filter_eq_nil_of_separator h
          · rfl
        rw [collapseFrom_skip, hdrop, List.filter_append, hseps, ih _ hshorter rfl, ← hrest,
          List.filter_append, filter_eq_nil_of_separator h]
      · rw [List.filter_cons, List.filter_cons, ih _ (Nat.lt_succ_self _) rfl]

/-- Only separators are taken away. -/
theorem filter_collapseRuns (h : ∀ c ∈ sep, p c = false) :
    (collapseRuns sep cs).filter p = cs.filter p := by
  rw [collapseRuns]
  split
  · rfl
  · next hne => exact filter_collapseFrom (by simpa using hne) h

end Filter

theorem eq_append_of_collapseFrom_eq {piece : List Char} (h : d ∉ piece)
    (heq : collapseFrom [d] 0 0 cs = piece ++ ys) :
    ∃ rest, cs = piece ++ rest ∧ ys = collapseFrom [d] 0 0 rest := by
  induction piece generalizing cs with
  | nil => exact ⟨cs, rfl, heq.symm⟩
  | cons c piece ih =>
    obtain ⟨hc, hpiece⟩ := not_or.mp (List.mem_cons.not.mp h)
    cases cs with
    | nil => cases heq
    | cons x cs =>
      by_cases hx : x = d
      · rw [hx, collapseFrom_same] at heq
        exact absurd (List.cons.inj heq).1 hc
      · rw [collapseFrom_other hx] at heq
        obtain ⟨rfl, htail⟩ := List.cons.inj heq
        obtain ⟨rest, rfl, hys⟩ := ih hpiece htail
        exact ⟨rest, rfl, hys⟩

/-- A piece without separators stands in the collapsed text only if it stood in the text,
and what follows it is what followed it, collapsed. -/
theorem exists_of_collapseFrom_eq {piece : List Char} (hne : piece ≠ []) (h : d ∉ piece)
    (heq : collapseFrom [d] 0 run cs = xs ++ piece ++ ys) :
    ∃ before after, cs = before ++ piece ++ after ∧ ys = collapseFrom [d] 0 0 after := by
  induction cs generalizing run xs with
  | nil => simp [collapseFrom, hne] at heq
  | cons c cs ih =>
    by_cases hc : c = d
    · have hrest : ∃ front, collapseFrom [d] 0 (run + 1) cs = front ++ piece ++ ys := by
        rw [hc, collapseFrom_same] at heq
        by_cases hrun : run < 2
        · rw [if_pos hrun] at heq
          cases xs with
          | nil =>
            obtain ⟨e, piece, rfl⟩ := List.exists_cons_of_ne_nil hne
            exact absurd (List.mem_cons.mpr (.inl (List.cons.inj heq).1)) h
          | cons x front => exact ⟨front, (List.cons.inj heq).2⟩
        · rw [if_neg hrun] at heq
          exact ⟨xs, heq⟩
      obtain ⟨front, hfront⟩ := hrest
      obtain ⟨before, after, rfl, hys⟩ := ih hfront
      exact ⟨c :: before, after, rfl, hys⟩
    · cases xs with
      | nil =>
        rw [collapseFrom_other hc, ← @collapseFrom_other d cs 0 c hc, List.nil_append] at heq
        obtain ⟨after, hcs, hys⟩ := eq_append_of_collapseFrom_eq h heq
        exact ⟨[], after, hcs, hys⟩
      | cons x front =>
        rw [collapseFrom_other hc] at heq
        obtain ⟨before, after, rfl, hys⟩ := ih (List.cons.inj heq).2
        exact ⟨c :: before, after, rfl, hys⟩

/-! ## Dropping separators at the end -/

/-- What holds of a text and of every text with one separator less at its end holds of the
stripped text. -/
theorem stripTrailing_induction {motive : List Char → Prop}
    (step : ∀ cs, motive (cs ++ [d]) → motive cs) (h : motive cs) :
    motive (stripTrailing [d] cs) := by
  rw [stripTrailing]
  generalize cs.length = fuel
  induction fuel generalizing cs with
  | zero => exact h
  | succ fuel ih =>
    rw [stripTrailing.go]
    split
    · next hsuffix =>
      have hend : [d] <:+ cs := List.isSuffixOf_iff_suffix.mp (by simpa using hsuffix)
      obtain ⟨front, rfl⟩ := hend
      refine ih ?_
      rw [List.length_append, Nat.add_sub_cancel, List.take_left]
      exact step front h
    · exact h

/-- Only separators are dropped. -/
theorem filter_stripTrailing {sep : List Char} {p : Char → Bool} (h : ∀ c ∈ sep, p c = false) :
    (stripTrailing sep cs).filter p = cs.filter p := by
  rw [stripTrailing]
  generalize cs.length = fuel
  induction fuel generalizing cs with
  | zero => rfl
  | succ fuel ih =>
    rw [stripTrailing.go]
    split
    · next hsuffix =>
      obtain ⟨front, rfl⟩ : sep <:+ cs := List.isSuffixOf_iff_suffix.mp (by simp_all)
      rw [List.length_append, Nat.add_sub_cancel, List.take_left, ih, List.filter_append,
        filter_eq_nil_of_separator h, List.append_nil]
    · rfl

theorem stripTrailing_nil (cs : List Char) : stripTrailing [] cs = cs := by
  rw [stripTrailing]
  cases cs <;> rfl

theorem stripTrailing_eq_self (h : ¬ [d] <:+ cs) : stripTrailing [d] cs = cs := by
  rw [stripTrailing]
  cases cs.length with
  | zero => rfl
  | succ fuel =>
    rw [stripTrailing.go, if_neg]
    simpa using h

theorem stripTrailing_concat : stripTrailing [d] (cs ++ [d]) = stripTrailing [d] cs := by
  rw [stripTrailing, stripTrailing, List.length_append, List.length_singleton, stripTrailing.go,
    if_pos (by simp), List.length_append, Nat.add_sub_cancel, List.take_left]

theorem not_suffix_stripTrailing (cs : List Char) : ¬ [d] <:+ stripTrailing [d] cs := by
  induction cs using List.reverseRecOn with
  | nil => simp [stripTrailing, stripTrailing.go]
  | append_singleton cs c ih =>
    by_cases hc : c = d
    · rw [hc, stripTrailing_concat]
      exact ih
    · have hend : ¬ [d] <:+ cs ++ [c] := by
        rintro ⟨front, hfront⟩
        have hlast : [d] = [c] := (List.append_inj' hfront rfl).2
        exact hc (List.singleton_inj.mp hlast).symm
      rw [stripTrailing_eq_self hend]
      exact hend

/-! ## Tidying -/

theorem isTidy_tidy (d : Char) (cs : List Char) : IsTidy d (tidy d cs) := by
  constructor
  · refine stripTrailing_induction (motive := fun cs => ¬ [d, d, d] <:+: cs) ?_ ?_
    · intro cs h hrun
      exact h (hrun.trans (List.prefix_append cs [d]).isInfix)
    · exact no_run_collapseFrom 0 cs
  · exact not_suffix_stripTrailing _

/-- A separator at the end makes no difference. -/
theorem tidy_concat (d : Char) (cs : List Char) : tidy d (cs ++ [d]) = tidy d cs := by
  rw [tidy, tidy, collapseRuns_single, collapseRuns_single]
  rcases collapseFrom_concat 0 cs with h | h
  · rw [h, stripTrailing_concat]
  · rw [h]

theorem IsTidy.tidy_eq (h : IsTidy d cs) : tidy d cs = cs := by
  have hcollapse : collapseRuns [d] cs = cs := collapseFrom_eq_self h.no_run
  rw [tidy, hcollapse, stripTrailing_eq_self h.no_end]

namespace IsTidy

variable (h : IsTidy d cs)

include h

/-- Two separators at the end make no run of three. -/
theorem no_run_append : ¬ [d, d, d] <:+: cs ++ [d, d] := by
  have hsplit : cs ++ [d, d] = cs ++ [d] ++ [d] := by rw [List.append_assoc]; rfl
  rw [hsplit, List.infix_concat_iff, ← hsplit, List.infix_concat_iff]
  rintro (hend | hend | hrun)
  · have hone : [d] ++ [d, d] <:+ cs ++ [d, d] := hend
    exact h.no_end (List.suffix_append_self_iff.mp hone)
  · have htwo : [d, d] ++ [d] <:+ cs ++ [d] := hend
    exact h.no_end ((List.suffix_cons d [d]).trans (List.suffix_append_self_iff.mp htwo))
  · exact h.no_run hrun

theorem no_run_concat : ¬ [d, d, d] <:+: cs ++ [d] := by
  intro hrun
  have hprefix : cs ++ [d] <+: cs ++ [d, d] := ⟨[d], by rw [List.append_assoc]; rfl⟩
  exact h.no_run_append (hrun.trans hprefix.isInfix)

end IsTidy

/-- A word without separators makes a text tidy that has no run of three. -/
theorem isTidy_append_word {word : List Char} (hrun : ¬ [d, d, d] <:+: cs) (hne : word ≠ [])
    (hword : d ∉ word) : IsTidy d (cs ++ word) := by
  constructor
  · obtain ⟨c, rest, rfl⟩ := List.exists_cons_of_ne_nil hne
    obtain ⟨hc, hrest⟩ := not_or.mp (List.mem_cons.not.mp hword)
    intro h
    rcases infix_of_infix_append_cons (by simp [Ne.symm hc]) h with h | h
    · exact hrun h
    · exact hrest (h.subset List.mem_cons_self)
  · rw [← List.dropLast_concat_getLast hne, ← List.append_assoc,
      List.singleton_suffix_append_singleton_iff]
    intro heq
    exact hword (heq ▸ List.getLast_mem hne)

/-- A text is tidy behind another character if no run of three is before that. -/
theorem IsTidy.append_cons {c : Char} (h : IsTidy d ys) (hne : ys ≠ []) (hc : c ≠ d)
    (hrun : ¬ [d, d, d] <:+: xs) : IsTidy d (xs ++ c :: ys) := by
  constructor
  · intro hin
    rcases infix_of_infix_append_cons (by simp [hc]) hin with hin | hin
    · exact hrun hin
    · exact h.no_run hin
  · intro hend
    have hsuffix : ys <:+ xs ++ c :: ys := (List.suffix_cons c ys).trans (List.suffix_append _ _)
    apply h.no_end
    exact List.suffix_of_suffix_length_le hend hsuffix (List.length_pos_of_ne_nil hne)

/-- Words joined to a tidy text keep it tidy. -/
theorem IsTidy.join (h : IsTidy d cs) {words : List (List Char)}
    (hwords : ∀ word ∈ words, word ≠ [] ∧ d ∉ word) : IsTidy d (join [d] (cs :: words)) := by
  induction words generalizing cs with
  | nil => rwa [join_singleton]
  | cons word words ih =>
    obtain ⟨⟨hne, hword⟩, hwords⟩ := List.forall_mem_cons.mp hwords
    rw [join_cons_cons]
    exact ih (isTidy_append_word h.no_run_concat hne hword) hwords

/-- Words right behind a tidy text keep it tidy. -/
theorem IsTidy.append_join (h : IsTidy d cs) {words : List (List Char)}
    (hwords : ∀ word ∈ words, word ≠ [] ∧ d ∉ word) : IsTidy d (cs ++ Text.join [d] words) := by
  cases words with
  | nil => rwa [Text.join, List.intersperse_nil, List.flatten_nil, List.append_nil]
  | cons word words =>
    obtain ⟨⟨hne, hword⟩, hwords⟩ := List.forall_mem_cons.mp hwords
    have hfirst := (isTidy_append_word h.no_run hne hword).join hwords
    rwa [join_cons_eq, List.append_assoc, ← join_cons_eq] at hfirst

/-- An empty word before them does not matter if there are any. -/
theorem IsTidy.join_gap (h : IsTidy d cs) {words : List (List Char)} (hne : words ≠ [])
    (hwords : ∀ word ∈ words, word ≠ [] ∧ d ∉ word) :
    IsTidy d (Text.join [d] (cs :: [] :: words)) := by
  obtain ⟨word, words, rfl⟩ := List.exists_cons_of_ne_nil hne
  obtain ⟨⟨hne, hword⟩, hwords⟩ := List.forall_mem_cons.mp hwords
  have hrun : ¬ [d, d, d] <:+: cs ++ [d] ++ [] ++ [d] := by
    rw [List.append_nil, List.append_assoc]
    exact h.no_run_append
  rw [join_cons_cons, join_cons_cons]
  exact (isTidy_append_word hrun hne hword).join hwords

theorem filter_tidy (d : Char) (cs : List Char) :
    (tidy d cs).filter (· ≠ d) = cs.filter (· ≠ d) := by
  have hsep : ∀ c ∈ [d], decide (c ≠ d) = false := by simp
  rw [tidy, filter_stripTrailing hsep, filter_collapseRuns hsep]

end KeyExpansion.Text
