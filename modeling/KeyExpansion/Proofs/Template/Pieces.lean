-- SUMMARY: What the pieces of a template look like: names, fields, and texts without braces.
import KeyExpansion.Proofs.Except
import KeyExpansion.Template.Parser
import Mathlib.Data.List.TakeWhile

/-! # Pieces of a template

A text without braces is literal, a field is read up to the brace that closes it, and
the name of a field holds no brace and no mark that would end it. -/

namespace KeyExpansion.Template

def IsBraceFree (cs : List Char) : Prop :=
  ∀ c ∈ cs, c ≠ '{' ∧ c ≠ '}'

theorem isBraceFree_cons {c : Char} {cs : List Char} :
    IsBraceFree (c :: cs) ↔ (c ≠ '{' ∧ c ≠ '}') ∧ IsBraceFree cs := by
  simp [IsBraceFree]

theorem isBraceFree_append {as bs : List Char} :
    IsBraceFree (as ++ bs) ↔ IsBraceFree as ∧ IsBraceFree bs := by
  simp only [IsBraceFree, List.mem_append]
  exact ⟨fun h => ⟨fun c hc => h c (.inl hc), fun c hc => h c (.inr hc)⟩,
    fun h c hc => hc.elim (h.1 c) (h.2 c)⟩

/-- An open field stays free of braces with a character that opens no field and does not close it. -/
theorem IsBraceFree.concat {field : List Char} {c : Char} (h : IsBraceFree field) (hopen : c ≠ '{')
    (hempty : field = [] → c ≠ '}') (hclose : ∀ f cs, field = f :: cs → c ≠ '}') :
    IsBraceFree (field ++ [c]) := by
  have hc : c ≠ '}' := by
    cases field with
    | nil => exact hempty rfl
    | cons f cs => exact hclose f cs rfl
  exact isBraceFree_append.mpr ⟨h, by simpa [IsBraceFree] using ⟨hopen, hc⟩⟩

theorem hasBrace_eq_false {text : String} :
    hasBrace text = false ↔ IsBraceFree text.toList := by
  simp [hasBrace, IsBraceFree]

/-! ## Scanning -/

theorem scan_of_braceFree {lead cs : List Char} (h : IsBraceFree cs) :
    scan lead none cs = .ok (Piece.literals (lead ++ cs)) := by
  induction cs generalizing lead with
  | nil => simp [scan]
  | cons c cs ih =>
    obtain ⟨⟨hopen, hclose⟩, hcs⟩ := isBraceFree_cons.mp h
    have step : scan lead none (c :: cs) = scan (lead ++ [c]) none cs := by
      rw [scan] <;> simp_all
    rw [step, ih hcs]
    simp

/-- An open field takes in text without braces. -/
theorem scan_field {lead field cs rest : List Char} (h : IsBraceFree cs) :
    scan lead (some field) (cs ++ rest) = scan lead (some (field ++ cs)) rest := by
  induction cs generalizing field with
  | nil => simp
  | cons c cs ih =>
    obtain ⟨⟨hopen, hclose⟩, hcs⟩ := isBraceFree_cons.mp h
    have step : scan lead (some field) (c :: (cs ++ rest))
        = scan lead (some (field ++ [c])) (cs ++ rest) := by
      rw [scan] <;> simp_all
    rw [List.cons_append, step, ih hcs]
    simp

theorem scan_cons {lead field cs : List Char} {f : Char} (hf : IsBraceFree [f]) :
    scan lead (some field) (f :: cs) = scan lead (some (field ++ [f])) cs :=
  scan_field hf

theorem toList_inBraces (text : String) : (inBraces text).toList = '{' :: (text.toList ++ ['}']) := by
  simp [inBraces]

/-- Text in braces that does not begin in a brace opens a field. -/
theorem pieces_inBraces_eq {text : String} {f : Char} {cs : List Char} (htext : text.toList = f :: cs)
    (hf : IsBraceFree [f]) : pieces (inBraces text) = scan [] (some [f]) (cs ++ ['}']) := by
  have hopen : f ≠ '{' := (hf f (by simp)).1
  have start : scan [] none ('{' :: (f :: cs ++ ['}'])) = scan [] (some []) (f :: cs ++ ['}']) := by
    rw [List.cons_append, scan]
    rintro rest heq
    simp_all
  rw [pieces, toList_inBraces, htext, start, List.cons_append, scan_cons hf, List.nil_append]

theorem Piece.ofField_of_name {lead name : List Char} (hne : name ≠ [])
    (h : ∀ c ∈ name, endsName c = false) :
    Piece.ofField lead name = .ok { lead := String.ofList lead, name := String.ofList name } := by
  have hall : ∀ c ∈ name, (!endsName c) = true := fun c hc => by simp [h c hc]
  simp [Piece.ofField, List.takeWhile_eq_self_iff.mpr hall, List.dropWhile_eq_nil_iff.mpr hall,
    splitOptions, hne]

/-- One field in braces is one piece. -/
theorem pieces_inBraces {name : String} (hne : name ≠ "") (hfree : IsBraceFree name.toList)
    (hends : ∀ c ∈ name.toList, endsName c = false) :
    pieces (inBraces name) = .ok [{ lead := "", name }] := by
  have hcs : name.toList ≠ [] := by simpa using hne
  obtain ⟨c, cs, hname⟩ := List.exists_cons_of_ne_nil hcs
  obtain ⟨hc, hrest⟩ : IsBraceFree [c] ∧ IsBraceFree cs := by
    rwa [← isBraceFree_append, List.singleton_append, ← hname]
  rw [pieces_inBraces_eq hname hc, scan_field hrest, List.singleton_append, scan, ← hname,
    Piece.ofField_of_name hcs hends]
  simp [scan, Piece.literals, bind, Except.bind, pure, Except.pure]

/-! ## Names of fields -/

/-- Could the text be the name of a field? -/
def IsName (cs : List Char) : Prop :=
  IsBraceFree cs ∧ ∀ c ∈ cs, endsName c = false

theorem Piece.name_of_ofField {lead field : List Char} {p : Piece}
    (hfield : IsBraceFree field) (h : Piece.ofField lead field = .ok p) :
    p.isLiteral = false ∧ IsName p.name.toList := by
  simp only [Piece.ofField] at h
  split at h
  · cases h
  · rename_i hne
    cases h
    refine ⟨by simpa [Piece.isLiteral] using hne, ?_, ?_⟩
    · intro c hc
      exact hfield c ((List.takeWhile_prefix _).subset (by simpa using hc))
    · intro c hc
      rw [String.toList_ofList] at hc
      simpa using List.mem_takeWhile_imp hc

/-- A piece as it is read: literal text that is not empty, or a field with a name. -/
structure Piece.IsRead (p : Piece) : Prop where
  lead : p.isLiteral = true → p.lead ≠ ""
  name : p.isLiteral = false → IsName p.name.toList

theorem Piece.IsRead.isLiteral_eq_false {p : Piece} (h : p.IsRead) (hlead : p.lead = "") :
    p.isLiteral = false := by
  by_contra hlit
  exact h.lead (by simpa using hlit) hlead

theorem isRead_of_mem_scan {lead : List Char} {field : Option (List Char)} {cs : List Char}
    {ps : List Piece} (hfield : ∀ f ∈ field, IsBraceFree f) (h : scan lead field cs = .ok ps) :
    ∀ p ∈ ps, p.IsRead := by
  fun_induction scan lead field cs generalizing ps with
  | case1 lead =>
    cases h
    intro p hp
    unfold Piece.literals at hp
    split at hp
    · cases hp
    · rename_i hne
      rw [List.mem_singleton.mp hp]
      exact ⟨fun _ => by simpa using hne, fun hlit => by cases hlit⟩
  | case2 lead cs ih => exact ih (by simp) h
  | case3 lead cs _ ih => exact ih (by simp [IsBraceFree]) h
  | case4 lead cs ih => exact ih (by simp) h
  | case5 => cases h
  | case6 lead c cs _ _ _ _ ih => exact ih (by simp) h
  | case7 => cases h
  | case8 => cases h
  | case9 lead cs ih => exact ih (by simp) h
  | case10 lead f field cs ih =>
    obtain ⟨piece, hpiece, rest, hrest, rfl⟩ : ∃ piece, Piece.ofField lead (f :: field) = .ok piece ∧
        ∃ rest, scan [] none cs = .ok rest ∧ piece :: rest = ps := by
      simpa only [Except.bind_eq_ok, Except.pure_eq_ok] using h
    obtain ⟨hlit, hname⟩ := Piece.name_of_ofField (hfield _ rfl) hpiece
    intro p hp
    rcases List.mem_cons.mp hp with rfl | hp
    · exact ⟨fun h => by simp [hlit] at h, fun _ => hname⟩
    · exact ih (by simp) hrest p hp
  | case11 lead field c cs hopen hempty hclose ih =>
    refine ih ?_ h
    rintro f ⟨rfl⟩
    exact (hfield _ rfl).concat hopen hempty hclose

theorem isRead_of_mem_pieces {text : String} {ps : List Piece} (h : pieces text = .ok ps) :
    ∀ p ∈ ps, p.IsRead :=
  isRead_of_mem_scan (by simp) h

/-- A template with a field has braces. -/
theorem hasBrace_of_field {text : String} {ps : List Piece} (h : pieces text = .ok ps)
    {p : Piece} (hp : p ∈ ps) (hlit : p.isLiteral = false) : hasBrace text = true := by
  by_contra hfree
  have hfree : IsBraceFree text.toList := hasBrace_eq_false.mp (by simpa using hfree)
  rw [pieces, scan_of_braceFree hfree, Except.ok.injEq, Piece.literals] at h
  subst h
  split at hp
  · cases hp
  · simp_all [Piece.isLiteral]

end KeyExpansion.Template
