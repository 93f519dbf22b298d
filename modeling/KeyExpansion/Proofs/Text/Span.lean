-- SUMMARY: Where the words of a text stand, in characters and in bytes.
import KeyExpansion.Proofs.Text.Search
import KeyExpansion.Text.Span

/-! # Spans

The spans of words that are joined by a separator give the words back. They lie within
the joined text and follow each other. The UTF-8 offsets of a span are boundaries of
characters, and what is between them encodes what the span gives. -/

namespace KeyExpansion.Text

/-! ## Words -/

theorem Span.slice_eq (start length : Nat) (cs : List Char) :
    (⟨start, start + length⟩ : Span).slice cs = (cs.drop start).take length := by
  simp [Span.slice]

/-- A span that ends before some text gives the same without it. -/
theorem Span.slice_append {span : Span} {cs : List Char} (h : span.stop ≤ cs.length)
    (more : List Char) : span.slice (cs ++ more) = span.slice cs := by
  have hnone : span.stop - span.start - (cs.length - span.start) = 0 := by omega
  rw [Span.slice, Span.slice, List.drop_append, List.take_append, List.length_drop, hnone,
    List.take_zero, List.append_nil]

/-- The spans of the words of a joined text give the words. -/
theorem map_slice_spans {sep cs : List Char} {start : Nat} {words : List (List Char)}
    (h : join sep words <+: cs.drop start) :
    (spans sep.length start words).map (·.slice cs) = words := by
  induction words generalizing start with
  | nil => rfl
  | cons word words ih =>
    rw [spans, List.map_cons, Span.slice_eq]
    cases words with
    | nil =>
      rw [join_singleton, List.prefix_iff_eq_take] at h
      rw [← h]
      rfl
    | cons next words =>
      rw [join_cons (List.cons_ne_nil next words), List.append_assoc] at h
      have hword : (cs.drop start).take word.length = word :=
        (List.prefix_iff_eq_take.mp ((List.prefix_append _ _).trans h)).symm
      have hrest : join sep (next :: words) <+: cs.drop (start + word.length + sep.length) := by
        obtain ⟨rest, hrest⟩ := h
        refine ⟨rest, ?_⟩
        rw [← List.drop_drop, ← List.drop_drop, ← hrest]
        simp
      rw [hword, ih hrest]

/-- Further words start where the words before them and their separators end. -/
theorem spans_append (sep : List Char) (start : Nat) (left right : List (List Char)) :
    spans sep.length start (left ++ right) = spans sep.length start left
      ++ spans sep.length (start + (left.flatMap (· ++ sep)).length) right := by
  induction left generalizing start with
  | nil => rfl
  | cons word left ih =>
    rw [List.cons_append, spans, spans, ih, List.flatMap_cons, List.length_append,
      List.length_append, List.cons_append]
    simp only [Nat.add_assoc]

theorem length_spans (gap start : Nat) (words : List (List Char)) :
    (spans gap start words).length = words.length := by
  induction words generalizing start with
  | nil => rfl
  | cons word words ih => rw [spans, List.length_cons, List.length_cons, ih]

/-- The spans of words lie within the joined text. -/
theorem mem_spans {sep : List Char} {start : Nat} {words : List (List Char)} :
    ∀ span ∈ spans sep.length start words,
      start ≤ span.start ∧ span.start ≤ span.stop ∧
        span.stop ≤ start + (join sep words).length := by
  induction words generalizing start with
  | nil => simp [spans]
  | cons word words ih =>
    rw [spans]
    cases words with
    | nil => simp [spans]
    | cons next words =>
      have hlength : (join sep (word :: next :: words)).length
          = word.length + sep.length + (join sep (next :: words)).length := by
        rw [join_cons (List.cons_ne_nil next words)]
        simp only [List.length_append]
      refine List.forall_mem_cons.mpr ⟨⟨le_rfl, Nat.le_add_right _ _, ?_⟩, ?_⟩
      · show start + word.length ≤ _
        omega
      · intro span hspan
        obtain ⟨hstart, hspan, hstop⟩ := ih span hspan
        omega

theorem isEmpty_eq_false_of_mem_spans {gap start : Nat} {words : List (List Char)}
    (h : ∀ word ∈ words, word ≠ []) : ∀ span ∈ spans gap start words, span.isEmpty = false := by
  induction words generalizing start with
  | nil => simp [spans]
  | cons word words ih =>
    obtain ⟨hword, hwords⟩ := List.forall_mem_cons.mp h
    refine List.forall_mem_cons.mpr ⟨?_, ih hwords⟩
    have hpos := List.length_pos_of_ne_nil hword
    simp only [Span.isEmpty, decide_eq_false_iff_not]
    omega

/-- The spans of words follow each other. -/
theorem pairwise_spans (sep : List Char) (start : Nat) (words : List (List Char)) :
    (spans sep.length start words).Pairwise fun a b => a.stop ≤ b.start := by
  induction words generalizing start with
  | nil => exact .nil
  | cons word words ih =>
    refine List.pairwise_cons.mpr ⟨fun span hspan => ?_, ih _⟩
    have hstart := (mem_spans span hspan).1
    show start + word.length ≤ span.start
    omega

/-! ## Bytes -/

theorem width_eq (cs : List Char) : width cs = (String.ofList cs).utf8ByteSize := by
  induction cs with
  | nil => rfl
  | cons c cs ih =>
    rw [width, ih, ← List.singleton_append, String.ofList_append, String.utf8ByteSize_append,
      ← String.singleton_eq_ofList, String.utf8ByteSize_singleton]

theorem offset_eq (cs : List Char) (position : Nat) :
    offset cs position = (String.ofList (cs.take position)).utf8ByteSize :=
  width_eq _

/-- Offsets are in the order of the positions. -/
theorem offset_mono (cs : List Char) {i j : Nat} (h : i ≤ j) : offset cs i ≤ offset cs j := by
  have hsplit : cs.take j = cs.take i ++ (cs.drop i).take (j - i) := by
    rw [← List.take_add, Nat.add_sub_cancel' h]
  rw [offset_eq, offset_eq, hsplit, String.ofList_append, String.utf8ByteSize_append]
  exact Nat.le_add_right _ _

theorem extract_middle (a b c : ByteArray) :
    (a ++ (b ++ c)).extract a.size (a.size + b.size) = b := by
  have hafter := ByteArray.extract_append_size_add (a := a) (b := b ++ c) (i := 0) (j := b.size)
  rwa [Nat.add_zero, ByteArray.extract_append_eq_left rfl] at hafter

namespace Span

/-- The span lies within the text. -/
structure Within (cs : List Char) (span : Span) : Prop where
  start_le_stop : span.start ≤ span.stop
  stop_le : span.stop ≤ cs.length

/-- The offsets are boundaries of characters in the encoding of the text, in order,
and what stands between them encodes what the span gives. -/
structure Encoded (cs : List Char) (span : Span) : Prop where
  start_valid : String.Pos.Raw.IsValid (String.ofList cs) ⟨(span.offsets cs).1⟩
  stop_valid : String.Pos.Raw.IsValid (String.ofList cs) ⟨(span.offsets cs).2⟩
  start_le_stop : (span.offsets cs).1 ≤ (span.offsets cs).2
  stop_le : (span.offsets cs).2 ≤ (String.ofList cs).utf8ByteSize
  bytes : (String.ofList cs).toByteArray.extract (span.offsets cs).1 (span.offsets cs).2
    = (String.ofList (span.slice cs)).toByteArray

/-- One span ends before the other begins, in characters and in bytes. -/
structure Before (cs : List Char) (a b : Span) : Prop where
  positions : a.stop ≤ b.start
  offsets : (a.offsets cs).2 ≤ (b.offsets cs).1

/-- One span lies inside the other, in characters and in bytes. -/
structure Inside (cs : List Char) (inner outer : Span) : Prop where
  positions : outer.start ≤ inner.start ∧ inner.stop ≤ outer.stop
  offsets : (outer.offsets cs).1 ≤ (inner.offsets cs).1 ∧ (inner.offsets cs).2 ≤ (outer.offsets cs).2

theorem before_of_le (cs : List Char) {a b : Span} (h : a.stop ≤ b.start) : Before cs a b :=
  ⟨h, offset_mono cs h⟩

theorem inside_of_le (cs : List Char) {inner outer : Span} (hstart : outer.start ≤ inner.start)
    (hstop : inner.stop ≤ outer.stop) : Inside cs inner outer :=
  ⟨⟨hstart, hstop⟩, offset_mono cs hstart, offset_mono cs hstop⟩

/-- What stands before the end of a span is what stands before it and what it gives. -/
theorem Within.split {cs : List Char} {span : Span} (h : span.Within cs) :
    cs.take span.stop = cs.take span.start ++ span.slice cs := by
  have hstop : span.stop = span.start + (span.stop - span.start) := by
    have := h.start_le_stop
    omega
  conv_lhs => rw [hstop, List.take_add]
  rfl

theorem Within.encoded {cs : List Char} {span : Span} (h : span.Within cs) : span.Encoded cs := by
  have hstart : (span.offsets cs).1 = (String.ofList (cs.take span.start)).utf8ByteSize :=
    offset_eq cs span.start
  have hstop : (span.offsets cs).2 = (String.ofList (cs.take span.stop)).utf8ByteSize :=
    offset_eq cs span.stop
  have hsplit : (String.ofList (cs.take span.stop)).toByteArray
      = (String.ofList (cs.take span.start)).toByteArray
        ++ (String.ofList (span.slice cs)).toByteArray := by
    rw [h.split, String.ofList_append, String.toByteArray_append]
  have htext : (String.ofList cs).toByteArray
      = (String.ofList (cs.take span.stop)).toByteArray
        ++ (String.ofList (cs.drop span.stop)).toByteArray := by
    rw [← String.toByteArray_append, ← String.ofList_append, List.take_append_drop]
  have hsize := congrArg ByteArray.size hsplit
  have htextSize := congrArg ByteArray.size htext
  simp only [ByteArray.size_append, String.size_toByteArray] at hsize htextSize
  refine ⟨?_, ?_, by omega, by omega, ?_⟩
  · exact String.Pos.Raw.isValid_ofList.mpr ⟨span.start, hstart⟩
  · exact String.Pos.Raw.isValid_ofList.mpr ⟨span.stop, hstop⟩
  · rw [htext, hsplit, ByteArray.append_assoc, hstart, hstop, hsize, ← String.size_toByteArray,
      ← String.size_toByteArray, extract_middle]

end Span

end KeyExpansion.Text
