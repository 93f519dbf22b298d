-- SUMMARY: The parts of a path, the way up from it to the root, and paths that are absolute.
import KeyExpansion.Path
import KeyExpansion.Proofs.Text.Search

/-! # Paths and what is above them

Going up cuts the last part that stands for something. There are fewer of them above a path, so
the way up ends, and at a path that has no parent. What is joined to an absolute path is absolute,
hence so is every absolute form. -/

namespace KeyExpansion.Path

variable {p q cwd : Path} {part : String} {parts : List String}

/-! ## Parts -/

theorem not_mem_parts (p : Path) : ∀ part ∈ p.parts, '/' ∉ part.toList := by
  intro part hpart
  obtain ⟨word, hword, rfl⟩ := List.mem_map.mp hpart
  rw [String.toList_ofList]
  exact (Text.splits_splitOn ['/'] p.text.toList).not_mem word hword

/-- What is put together from parts has these parts. -/
theorem parts_intercalate (hne : parts ≠ []) (hparts : ∀ part ∈ parts, '/' ∉ part.toList) :
    (⟨"/".intercalate parts⟩ : Path).parts = parts := by
  have htext : ("/".intercalate parts).toList = Text.join ['/'] (parts.map String.toList) := by
    rw [String.toList_intercalate]
    rfl
  have hsplits := Text.splits_join (List.map_eq_nil_iff.not.mpr hne)
    (by simpa using hparts : ∀ word ∈ parts.map String.toList, '/' ∉ word)
  rw [Path.parts, htext, ← hsplits.eq_splitOn]
  simp [Function.comp_def]

theorem parts_root_intercalate (hne : parts ≠ []) (hparts : ∀ part ∈ parts, '/' ∉ part.toList) :
    (⟨"/" ++ "/".intercalate parts⟩ : Path).parts = "" :: parts := by
  have htext : "/" ++ "/".intercalate parts = "/".intercalate ("" :: parts) := by
    rw [String.intercalate_cons_of_ne_nil hne]
    rfl
  rw [htext]
  exact parts_intercalate (List.cons_ne_nil _ _) (by simpa using hparts)

/-! ## The way up -/

theorem isPrefix_go (absolute : Bool) (parts : List String) :
    dropVoidEnd.go absolute parts <+: parts.reverse := by
  fun_induction dropVoidEnd.go absolute parts with
  | case1 => exact List.prefix_rfl
  | case2 => exact List.nil_prefix
  | case3 => exact List.prefix_rfl
  | case4 part parts _ _ ih =>
    rw [List.reverse_cons]
    exact ih.trans (List.prefix_append _ _)
  | case5 => exact List.prefix_rfl

theorem isPrefix_dropVoidEnd (absolute : Bool) (parts : List String) :
    dropVoidEnd absolute parts <+: parts := by
  have hprefix := isPrefix_go absolute parts.reverse
  rwa [List.reverse_reverse] at hprefix

theorem isAbsolute_root_append (text : String) : isAbsolute ⟨"/" ++ text⟩ = true := by
  simp [isAbsolute]

/-- The parts behind the root, or all parts of a relative path. -/
def body (p : Path) : List String :=
  if p.isAbsolute then p.parts.drop 1 else p.parts

/-- The number of parts up to the last one that stands for something. -/
def depth (p : Path) : Nat :=
  (dropVoidEnd p.isAbsolute p.body).length

theorem body_suffix (p : Path) : p.body <:+ p.parts := by
  rw [body]
  split
  · exact List.drop_suffix _ _
  · exact List.suffix_rfl

theorem depth_le_body (p : Path) : p.depth ≤ p.body.length :=
  (isPrefix_dropVoidEnd _ _).length_le

theorem depth_le (p : Path) : p.depth ≤ p.parts.length :=
  p.depth_le_body.trans p.body_suffix.length_le

/-- What is written above a path. -/
def above (p : Path) : List String :=
  dropVoidEnd p.isAbsolute (dropVoidEnd p.isAbsolute p.body).dropLast

theorem parent?_eq (p : Path) : p.parent? = if p.depth = 0 then none
    else some ⟨if p.isAbsolute then "/" ++ "/".intercalate p.above else "/".intercalate p.above⟩ := by
  have hbody : (if p.isAbsolute = true then p.parts.drop 1 else p.parts) = p.body := rfl
  simp only [parent?, depth, above, List.length_eq_zero_iff, hbody]
  cases dropVoidEnd p.isAbsolute p.body <;> simp

theorem length_above_lt (h : p.depth ≠ 0) : p.above.length < p.depth := by
  have hlength : p.above.length ≤ p.depth - 1 := by
    rw [depth, ← List.length_dropLast]
    exact (isPrefix_dropVoidEnd _ _).length_le
  omega

theorem not_mem_above (p : Path) : ∀ part ∈ p.above, '/' ∉ part.toList := by
  intro part hpart
  refine p.not_mem_parts part (p.body_suffix.subset ?_)
  exact (isPrefix_dropVoidEnd _ _).subset (List.mem_of_mem_dropLast ((isPrefix_dropVoidEnd _ _).subset hpart))

theorem depth_lt (h : p.parent? = some q) : q.depth < p.depth := by
  rw [parent?_eq] at h
  split at h
  · cases h
  · next hdepth =>
    have hlt := length_above_lt hdepth
    obtain rfl := Option.some.inj h
    refine lt_of_le_of_lt ?_ hlt
    rcases eq_or_ne p.above [] with hnil | hne
    · -- Nothing is above but the root, or the directory that a relative path starts from.
      rw [hnil]
      cases p.isAbsolute <;> decide
    · cases p.isAbsolute with
      | true =>
        have hparts := parts_root_intercalate hne p.not_mem_above
        refine (depth_le_body _).trans ?_
        rw [body, if_pos rfl, if_pos (isAbsolute_root_append _), hparts, List.drop_one, List.tail_cons]
      | false =>
        have hparts := parts_intercalate hne p.not_mem_above
        refine (depth_le _).trans ?_
        rw [if_neg Bool.false_ne_true, hparts]

/-- A path, its parent, the parent of that, and so on to a path that has none. -/
inductive IsAscent : Path → List Path → Prop where
  | top {p : Path} (parent_eq : p.parent? = none) : IsAscent p [p]
  | up {p q : Path} {line : List Path} (parent_eq : p.parent? = some q) (above : IsAscent q line) :
      IsAscent p (p :: line)

theorem isAscent_go {fuel : Nat} (h : p.depth ≤ fuel) : IsAscent p (ancestors.go fuel p) := by
  induction fuel generalizing p with
  | zero =>
    have hdepth : p.depth = 0 := Nat.le_zero.mp h
    exact .top (by rw [parent?_eq, if_pos hdepth])
  | succ fuel ih =>
    rw [ancestors.go]
    cases hparent : p.parent? with
    | none => exact .top hparent
    | some q => exact .up hparent (ih (by have := depth_lt hparent; omega))

theorem isAscent_ancestors (p : Path) : IsAscent p p.ancestors :=
  isAscent_go p.depth_le

theorem IsAscent.depth_le {line : List Path} (h : IsAscent p line) : ∀ q ∈ line, q.depth ≤ p.depth := by
  induction h with
  | top => simp
  | up parent_eq _ ih =>
    refine List.forall_mem_cons.mpr ⟨le_rfl, fun q hq => ?_⟩
    exact (ih q hq).trans (depth_lt parent_eq).le

/-- No path is above itself. -/
theorem IsAscent.not_mem {line : List Path} (h : IsAscent p (p :: line)) : p ∉ line := by
  cases h with
  | top => simp
  | up parent_eq above =>
    intro hmem
    exact absurd (above.depth_le p hmem) (Nat.not_le.mpr (depth_lt parent_eq))

/-! ## Absolute paths -/

theorem isAbsolute_join (h : p.isAbsolute = true) : (p.join q).isAbsolute = true := by
  have hstart (rest : String) : isAbsolute ⟨p.text ++ rest⟩ = true := by
    rw [isAbsolute, beq_iff_eq] at h ⊢
    rw [String.toList_append, List.head?_append, h]
    rfl
  rw [join]
  split
  · assumption
  · split
    · exact hstart _
    · rw [String.append_assoc]
      exact hstart _

theorem isAbsolute_push (h : p.isAbsolute = true) (c : Component) : (p.push c).isAbsolute = true := by
  cases c <;> exact isAbsolute_join h

theorem isAbsolute_foldl_push (components : List Component) (h : p.isAbsolute = true) :
    (components.foldl push p).isAbsolute = true := by
  induction components generalizing p with
  | nil => exact h
  | cons c components ih => exact ih (isAbsolute_push h c)

theorem isAbsolute_origin (h : cwd.isAbsolute = true) (p : Path) : (origin cwd p).1.isAbsolute = true := by
  have hroot : isAbsolute ⟨"/"⟩ = true := by decide
  have hroots : isAbsolute ⟨"//"⟩ = true := by decide
  unfold origin
  split
  · exact hroot
  · exact hroots
  · exact hroot
  · exact h

/-- The absolute form is absolute, seen from a directory that is. -/
theorem isAbsolute_absolute (h : cwd.isAbsolute = true) (p : Path) :
    (absolute cwd p).isAbsolute = true := by
  have hwhole := isAbsolute_foldl_push (origin cwd p).2 (isAbsolute_origin h p)
  simp only [absolute]
  split
  · exact isAbsolute_join hwhole
  · exact hwhole

end KeyExpansion.Path
