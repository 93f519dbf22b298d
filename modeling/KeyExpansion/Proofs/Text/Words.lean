-- SUMMARY: Tidying a text loses none of its words but empty ones.
import KeyExpansion.Proofs.Text.Tidy

/-! # Words of tidied texts

Separators that are dropped stand next to empty words, so a text and its tidied form have
the same words but for empty ones. A piece without separators stays where it is, and what
stands on both sides of it is tidied on its own. -/

namespace KeyExpansion.Text

variable {d : Char} {cs xs ys piece : List Char} {run : Nat}

theorem splitOn_same : splitOn [d] (d :: cs) = [] :: splitOn [d] cs := by
  simp [splitOn, splitFrom, List.isPrefixOf]

theorem splitOn_other {c : Char} (h : c ≠ d) :
    splitOn [d] (c :: cs) = consFirst c (splitOn [d] cs) := by
  simp [splitOn, splitFrom, List.isPrefixOf, Ne.symm h]

/-- Words are the same but for empty ones after the first. -/
inductive SameWords : List (List Char) → List (List Char) → Prop where
  | cons (word : List Char) {left right : List (List Char)}
      (rest : left.filter (· ≠ []) = right.filter (· ≠ [])) : SameWords (word :: left) (word :: right)

theorem SameWords.filter_eq {left right : List (List Char)} (h : SameWords left right) :
    left.filter (· ≠ []) = right.filter (· ≠ []) := by
  cases h with
  | cons word rest => rw [List.filter_cons, List.filter_cons, rest]

theorem SameWords.consFirst (c : Char) {left right : List (List Char)} (h : SameWords left right) :
    SameWords (consFirst c left) (consFirst c right) := by
  cases h with
  | cons word rest => exact .cons (c :: word) rest

/-- While two separators have not been seen, the first word is the same as well. -/
theorem splitOn_collapseFrom (run : Nat) (cs : List Char) :
    (splitOn [d] (collapseFrom [d] 0 run cs)).filter (· ≠ []) = (splitOn [d] cs).filter (· ≠ []) ∧
      (run < 2 → SameWords (splitOn [d] (collapseFrom [d] 0 run cs)) (splitOn [d] cs)) := by
  induction cs generalizing run with
  | nil => exact ⟨rfl, fun _ => .cons [] rfl⟩
  | cons c cs ih =>
    by_cases hc : c = d
    · subst hc
      rw [collapseFrom_same, splitOn_same]
      by_cases hrun : run < 2
      · rw [if_pos hrun, List.singleton_append, splitOn_same]
        have hsame : SameWords ([] :: splitOn [c] (collapseFrom [c] 0 (run + 1) cs))
            ([] :: splitOn [c] cs) := .cons [] (ih (run + 1)).1
        exact ⟨hsame.filter_eq, fun _ => hsame⟩
      · rw [if_neg hrun, List.nil_append]
        refine ⟨?_, fun h => absurd h hrun⟩
        rw [(ih (run + 1)).1]
        simp
    · rw [collapseFrom_other hc, splitOn_other hc, splitOn_other hc]
      have hsame := ((ih 0).2 (by decide)).consFirst c
      exact ⟨hsame.filter_eq, fun _ => hsame⟩

theorem filter_splitOn_collapse :
    (splitOn [d] (collapseRuns [d] cs)).filter (· ≠ []) = (splitOn [d] cs).filter (· ≠ []) :=
  (splitOn_collapseFrom 0 cs).1

theorem splitOn_concat : splitOn [d] (cs ++ [d]) = splitOn [d] cs ++ [[]] := by
  have hsplits := (splits_splitOn [d] cs).join_cons (List.cons_ne_nil [] []) (by simp)
  have hjoin : join [d] [cs, []] = cs ++ [d] := by simp [join_cons]
  rw [hjoin] at hsplits
  exact hsplits.eq_splitOn.symm

/-- Another character at the end is the end of the last word. -/
theorem splitOn_concat_other {c : Char} (h : c ≠ d) (cs : List Char) :
    ∃ early last, splitOn [d] cs = early ++ [last] ∧
      splitOn [d] (cs ++ [c]) = early ++ [last ++ [c]] := by
  have hsplits := splits_splitOn [d] cs
  rcases List.eq_nil_or_concat (splitOn [d] cs) with hnil | ⟨early, last, hwords⟩
  · exact absurd hnil hsplits.ne_nil
  · rw [List.concat_eq_append] at hwords
    rw [hwords] at hsplits
    refine ⟨early, last, hwords, ?_⟩
    have hjoin : join [d] (early ++ [last ++ [c]]) = cs ++ [c] := by
      rw [← hsplits.join_eq, join_append early (List.cons_ne_nil _ []),
        join_append early (List.cons_ne_nil _ []), join_singleton, join_singleton,
        List.append_assoc]
    rw [← hjoin]
    refine (splits_join (by simp) ?_).eq_splitOn.symm
    intro word hword
    have hdot := hsplits.not_mem
    rcases List.mem_append.mp hword with hword | hword
    · exact hdot word (List.mem_append_left _ hword)
    · obtain rfl := List.mem_singleton.mp hword
      have hlast := hdot last (by simp)
      simp [hlast, Ne.symm h]

theorem mem_consFirst {c : Char} {word : List Char} {words : List (List Char)}
    (h : word ∈ consFirst c words) : word.head? = some c ∨ word ∈ words := by
  cases words with
  | nil =>
    obtain rfl := List.mem_singleton.mp h
    exact .inl rfl
  | cons first words =>
    rcases List.mem_cons.mp h with rfl | h
    · exact .inl rfl
    · exact .inr (List.mem_cons_of_mem first h)

/-- Words without the separator are those of the text they are joined to. -/
theorem mem_splitOn_join {word : List Char} {words : List (List Char)}
    (hdot : ∀ word ∈ words, d ∉ word) (hne : word ≠ [])
    (h : word ∈ splitOn [d] (join [d] words)) : word ∈ words := by
  cases words with
  | nil => exact absurd (List.mem_singleton.mp h) hne
  | cons first words => rwa [← (splits_join (List.cons_ne_nil first words) hdot).eq_splitOn] at h

/-- Without words the text has an empty one. -/
theorem filter_splitOn_join {words : List (List Char)} (hdot : ∀ word ∈ words, d ∉ word) :
    (splitOn [d] (join [d] words)).filter (· ≠ []) = words.filter (· ≠ []) := by
  cases words with
  | nil => rfl
  | cons first words => rw [← (splits_join (List.cons_ne_nil first words) hdot).eq_splitOn]

/-- A text and its tidied form have the same words, but for empty ones. -/
theorem filter_splitOn_tidy :
    (splitOn [d] (tidy d cs)).filter (· ≠ []) = (splitOn [d] cs).filter (· ≠ []) := by
  refine stripTrailing_induction
    (motive := fun xs => (splitOn [d] xs).filter (· ≠ []) = (splitOn [d] cs).filter (· ≠ [])) ?_ ?_
  · intro xs h
    simpa [splitOn_concat] using h
  · exact filter_splitOn_collapse

theorem mem_splitOn_of_filter {word : List Char} (hne : word ≠ [])
    (h : (splitOn [d] xs).filter (· ≠ []) = (splitOn [d] ys).filter (· ≠ []))
    (hword : word ∈ splitOn [d] xs) : word ∈ splitOn [d] ys := by
  have hmem : word ∈ (splitOn [d] xs).filter (· ≠ []) := by simp [hword, hne]
  rw [h] at hmem
  exact (List.mem_filter.mp hmem).1

/-! ## Around a piece without separators -/

theorem stripTrailing_append (hne : piece ≠ []) (hd : d ∉ piece) :
    stripTrailing [d] (xs ++ piece ++ ys) = xs ++ piece ++ stripTrailing [d] ys := by
  have hend : ¬ [d] <:+ xs ++ piece := by
    rw [← List.dropLast_concat_getLast hne, ← List.append_assoc,
      List.singleton_suffix_append_singleton_iff]
    intro heq
    exact hd (heq ▸ List.getLast_mem hne)
  induction ys using List.reverseRecOn with
  | nil =>
    rw [List.append_nil, stripTrailing_eq_self hend]
    exact (List.append_nil _).symm
  | append_singleton ys c ih =>
    by_cases hc : c = d
    · rw [hc, ← List.append_assoc, stripTrailing_concat, stripTrailing_concat, ih]
    · have hother (zs : List Char) : stripTrailing [d] (zs ++ [c]) = zs ++ [c] := by
        apply stripTrailing_eq_self
        rw [List.singleton_suffix_append_singleton_iff]
        exact Ne.symm hc
      rw [← List.append_assoc, hother, hother, List.append_assoc (xs ++ piece)]

theorem tidy_append (hne : piece ≠ []) (hd : d ∉ piece) :
    tidy d (xs ++ piece ++ ys) = collapseRuns [d] xs ++ piece ++ tidy d ys := by
  rw [tidy, collapseRuns_single, collapseFrom_append_piece hne hd, stripTrailing_append hne hd]
  rfl

theorem infix_tidy (hne : piece ≠ []) (hd : d ∉ piece) (h : piece <:+: cs) :
    piece <:+: tidy d cs := by
  obtain ⟨front, back, rfl⟩ := h
  rw [tidy_append hne hd]
  exact ⟨_, _, rfl⟩

end KeyExpansion.Text
