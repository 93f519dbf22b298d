-- SUMMARY: What is found in maps that were put together.
import KeyExpansion.Value.Entries
import Mathlib.Data.List.Induction

/-! # Entries of merged maps

Entries that are put one after the other leave under each name the last value that was put
there, at the place where the name was put first. Maps that lie on top of each other come down to
one in this way. -/

namespace KeyExpansion.Entries

variable {α : Type}

@[simp] theorem get?_nil (name : String) : get? ([] : List (String × α)) name = none := rfl

theorem get?_cons (entry : String × α) (entries : List (String × α)) (name : String) :
    get? (entry :: entries) name = if entry.1 = name then some entry.2 else get? entries name := by
  obtain ⟨own, value⟩ := entry
  by_cases hname : own = name
  · simp [get?, hname]
  · have hne : (name == own) = false := by simpa using Ne.symm hname
    simp [get?, List.lookup_cons, hne, hname]

theorem get?_append (as bs : List (String × α)) (name : String) :
    get? (as ++ bs) name = (get? as name).or (get? bs name) :=
  List.lookup_append

/-- Putting a value changes what is found under its name, and nothing else. -/
theorem get?_put (name : String) (value : α) (entries : List (String × α)) (other : String) :
    get? (put name value entries) other = if name = other then some value else get? entries other := by
  induction entries with
  | nil => simp [put, get?_cons]
  | cons entry entries ih =>
    unfold put
    split
    · rename_i hsame
      rw [get?_cons, get?_cons, hsame]
      split <;> rfl
    · rename_i hdiffers
      rw [get?_cons, ih, get?_cons]
      by_cases hname : name = other
      · have hentry : entry.1 ≠ other := fun h => hdiffers (h.trans hname.symm)
        rw [if_neg hentry, if_pos hname, if_pos hname]
      · rw [if_neg hname, if_neg hname]

/-- The last entry of the upper map counts, and where it has none the lower map does. -/
theorem get?_merge (below above : List (String × α)) (name : String) :
    get? (merge below above) name = (get? above.reverse name).or (get? below name) := by
  induction above generalizing below with
  | nil => simp [merge]
  | cons entry above ih =>
    have hstep : merge below (entry :: above) = merge (put entry.1 entry.2 below) above := rfl
    rw [hstep, ih, get?_put, List.reverse_cons, get?_append, Option.or_assoc, get?_cons, get?_nil]
    split <;> rfl

/-! ## Maps on top of each other -/

/-- The names of a map. -/
def names (entries : List (String × α)) : List String :=
  entries.map Prod.fst

@[simp] theorem names_cons (entry : String × α) (entries : List (String × α)) :
    names (entry :: entries) = entry.1 :: names entries := rfl

theorem names_put (name : String) (value : α) (entries : List (String × α)) :
    names (put name value entries)
      = if name ∈ names entries then names entries else names entries ++ [name] := by
  induction entries with
  | nil => simp [put, names]
  | cons entry entries ih =>
    unfold put
    split
    · rename_i hsame
      simp [hsame]
    · rename_i hdiffers
      by_cases hmem : name ∈ names entries
      · simp [ih, hmem]
      · simp [ih, hmem, Ne.symm hdiffers]

theorem nodup_names_put {name : String} {value : α} {entries : List (String × α)}
    (h : (names entries).Nodup) : (names (put name value entries)).Nodup := by
  rw [names_put]
  split
  · exact h
  · rename_i hnew
    refine List.nodup_append.mpr ⟨h, by simp, fun other hother new hnewMem heq => hnew ?_⟩
    rwa [← List.mem_singleton.mp hnewMem, ← heq]

theorem nodup_names_merge {below : List (String × α)} (h : (names below).Nodup)
    (above : List (String × α)) : (names (merge below above)).Nodup := by
  induction above generalizing below with
  | nil => exact h
  | cons entry above ih => exact ih (nodup_names_put h)

/-- One map for several, of which the first that has a name counts. -/
def overlay (maps : List (List (String × α))) : List (String × α) :=
  maps.foldr (fun above below => merge below above.reverse) []

theorem get?_overlay (maps : List (List (String × α))) (name : String) :
    get? (overlay maps) name = maps.findSome? fun entries => get? entries name := by
  induction maps with
  | nil => rfl
  | cons above maps ih =>
    have hstep : overlay (above :: maps) = merge (overlay maps) above.reverse := rfl
    rw [hstep, get?_merge, List.reverse_reverse, ih, List.findSome?_cons]
    cases get? above name <;> rfl

theorem nodup_names_overlay (maps : List (List (String × α))) : (names (overlay maps)).Nodup := by
  induction maps with
  | nil => exact List.nodup_nil
  | cons above maps ih => exact nodup_names_merge ih _

/-! ## Maps as a whole -/

theorem mem_names {name : String} {entries : List (String × α)} :
    name ∈ names entries ↔ ∃ value, get? entries name = some value := by
  induction entries with
  | nil => simp [names]
  | cons entry entries ih =>
    rw [names_cons, List.mem_cons, ih, get?_cons]
    by_cases hname : entry.1 = name
    · simp [hname]
    · simp [hname, Ne.symm hname]

theorem get?_eq_none {name : String} {entries : List (String × α)} :
    get? entries name = none ↔ name ∉ names entries := by
  rw [mem_names, Option.eq_none_iff_forall_ne_some, not_exists]

/-- A map is its names, in their order, and what is found under each. -/
theorem eq_of_names_eq {as bs : List (String × α)} (hnames : names as = names bs)
    (hnodup : (names as).Nodup) (hget : ∀ name, get? as name = get? bs name) : as = bs := by
  induction as generalizing bs with
  | nil => exact (List.map_eq_nil_iff.mp hnames.symm).symm
  | cons a as ih =>
    cases bs with
    | nil => cases hnames
    | cons b bs =>
      obtain ⟨hname, hrest⟩ := List.cons.inj hnames
      obtain ⟨hnew, hnodup⟩ := List.nodup_cons.mp hnodup
      have hvalue : a.2 = b.2 := by
        have hfirst := hget a.1
        rw [get?_cons, get?_cons, if_pos rfl, if_pos hname.symm] at hfirst
        exact Option.some.inj hfirst
      have htail : as = bs := by
        refine ih hrest hnodup fun name => ?_
        by_cases hsame : a.1 = name
        · subst hsame
          have hother : a.1 ∉ names bs := by
            rwa [names, ← hrest]
          rw [get?_eq_none.mpr hnew, get?_eq_none.mpr hother]
        · have hlater := hget name
          rwa [get?_cons, get?_cons, if_neg hsame, if_neg (hname ▸ hsame)] at hlater
      rw [htail, Prod.ext hname hvalue]

theorem merge_append (below middle above : List (String × α)) :
    merge below (middle ++ above) = merge (merge below middle) above :=
  List.foldl_append

theorem merge_singleton (below : List (String × α)) (entry : String × α) :
    merge below [entry] = put entry.1 entry.2 below := rfl

theorem ofList_concat (entries : List (String × α)) (entry : String × α) :
    ofList (entries ++ [entry]) = put entry.1 entry.2 (ofList entries) :=
  List.foldl_append

/-- Names are kept in the order in which they come first. -/
theorem names_ofList (entries : List (String × α)) :
    names (ofList entries) = (names entries).eraseDups := by
  induction entries using List.reverseRecOn with
  | nil => rfl
  | append_singleton entries entry ih =>
    have hnames : names (entries ++ [entry]) = names entries ++ [entry.1] := List.map_append
    rw [ofList_concat, names_put, ih, hnames, List.eraseDups_append]
    by_cases hmem : entry.1 ∈ names entries
    · simp [hmem, List.removeAll]
    · simp [hmem, List.removeAll, List.eraseDups_cons]

theorem nodup_names_ofList (entries : List (String × α)) : (names (ofList entries)).Nodup := by
  refine nodup_names_merge ?_ entries
  exact List.nodup_nil

theorem mem_put {name : String} {value : α} {entries : List (String × α)} {entry : String × α}
    (h : entry ∈ put name value entries) : entry = (name, value) ∨ entry ∈ entries := by
  induction entries with
  | nil => exact .inl (List.mem_singleton.mp h)
  | cons first entries ih =>
    rw [put] at h
    split at h
    · rcases List.mem_cons.mp h with hfirst | hlater
      · exact .inl hfirst
      · exact .inr (List.mem_cons_of_mem first hlater)
    · rcases List.mem_cons.mp h with hfirst | hlater
      · exact .inr (hfirst ▸ List.mem_cons_self)
      · exact (ih hlater).imp_right (List.mem_cons_of_mem first)

/-- Every entry of the map that a list makes stands in the list. -/
theorem mem_of_mem_ofList {entries : List (String × α)} {entry : String × α}
    (h : entry ∈ ofList entries) : entry ∈ entries := by
  induction entries using List.reverseRecOn with
  | nil => exact h
  | append_singleton entries last ih =>
    rw [ofList_concat] at h
    rcases mem_put h with rfl | hbefore
    · exact List.mem_append_right _ List.mem_cons_self
    · exact List.mem_append_left _ (ih hbefore)

theorem put_of_not_mem {name : String} {value : α} {entries : List (String × α)}
    (h : name ∉ names entries) : put name value entries = entries ++ [(name, value)] := by
  induction entries with
  | nil => rfl
  | cons first entries ih =>
    rw [names_cons, List.mem_cons, not_or] at h
    rw [put, if_neg (Ne.symm h.1), ih h.2, List.cons_append]

theorem length_put (name : String) (value : α) (entries : List (String × α)) :
    (put name value entries).length
      = if name ∈ names entries then entries.length else entries.length + 1 := by
  have hlength (entries : List (String × α)) : entries.length = (names entries).length := by
    rw [names, List.length_map]
  rw [hlength, names_put]
  split
  · exact (hlength entries).symm
  · rw [List.length_append, ← hlength]
    rfl

/-- A list makes a map of the values that it gives last. -/
theorem get?_ofList (entries : List (String × α)) (name : String) :
    get? (ofList entries) name = get? entries.reverse name := by
  rw [ofList, ← merge, get?_merge, get?_nil, Option.or_none]

theorem length_ofList_le (entries : List (String × α)) : (ofList entries).length ≤ entries.length := by
  induction entries using List.reverseRecOn with
  | nil => exact Nat.le_refl 0
  | append_singleton entries last ih =>
    rw [ofList_concat, length_put, List.length_append, List.length_singleton]
    split <;> omega

/-- A list of which no entry is lost is a map. -/
theorem ofList_of_length {entries : List (String × α)} (h : (ofList entries).length = entries.length) :
    ofList entries = entries := by
  induction entries using List.reverseRecOn with
  | nil => rfl
  | append_singleton entries last ih =>
    have hle := length_ofList_le entries
    rw [ofList_concat, length_put, List.length_append, List.length_singleton] at h
    split at h
    · omega
    · next hnew =>
      rw [ofList_concat, put_of_not_mem hnew, ih (by omega)]

theorem ofList_of_nodup {entries : List (String × α)} (h : (names entries).Nodup) :
    ofList entries = entries := by
  induction entries using List.reverseRecOn with
  | nil => rfl
  | append_singleton entries last ih =>
    have hnames : names (entries ++ [last]) = names entries ++ [last.1] := List.map_append
    rw [hnames, List.nodup_append] at h
    have hnew : last.1 ∉ names entries := fun hmem => h.2.2 _ hmem _ List.mem_cons_self rfl
    rw [ofList_concat, ih h.1, put_of_not_mem hnew]

/-- Putting entries on a map adds the names that are new to it, in the order in which they come
first. -/
theorem names_merge (below above : List (String × α)) :
    names (merge below above)
      = names below ++ (names (ofList above)).filter (· ∉ names below) := by
  induction above using List.reverseRecOn with
  | nil => simp [merge, names, ofList]
  | append_singleton above entry ih =>
    rw [merge_append, merge_singleton, names_put, ih, ofList_concat, names_put]
    by_cases hbelow : entry.1 ∈ names below
    · by_cases habove : entry.1 ∈ names (ofList above)
      · simp [hbelow, habove]
      · simp [hbelow, habove]
    · by_cases habove : entry.1 ∈ names (ofList above)
      · simp [hbelow, habove]
      · simp [hbelow, habove]

/-- The lower map with the values of the upper one where it has any, then what only the upper one
has. -/
def layered (below above : List (String × α)) : List (String × α) :=
  below.map (fun entry => (entry.1, (get? above entry.1).getD entry.2))
    ++ above.filter (·.1 ∉ names below)

theorem names_layered (below above : List (String × α)) :
    names (layered below above) = names below ++ (names above).filter (· ∉ names below) := by
  simp [layered, names, List.filter_map, Function.comp_def]

theorem get?_map (f : String → α → α) (entries : List (String × α)) (name : String) :
    get? (entries.map fun entry => (entry.1, f entry.1 entry.2)) name
      = (get? entries name).map (f name) := by
  induction entries with
  | nil => rfl
  | cons entry entries ih =>
    rw [List.map_cons, get?_cons, get?_cons, ih]
    by_cases hname : entry.1 = name
    · simp [hname]
    · simp [hname]

theorem get?_filter (p : String → Bool) (entries : List (String × α)) (name : String) :
    get? (entries.filter fun entry => p entry.1) name = if p name then get? entries name else none := by
  induction entries with
  | nil => simp
  | cons entry entries ih =>
    rw [List.filter_cons, get?_cons]
    by_cases hname : entry.1 = name
    · subst hname
      cases hp : p entry.1 with
      | true => simp [get?_cons]
      | false => simp [ih, hp]
    · cases hp : p entry.1 with
      | true => simp [get?_cons, hname, ih]
      | false => simp [hname, ih]

/-- The upper map counts, and where it has no value the lower one does. -/
theorem get?_layered (below above : List (String × α)) (name : String) :
    get? (layered below above) name = (get? above name).or (get? below name) := by
  rw [layered, get?_append, get?_map (fun name value => (get? above name).getD value),
    get?_filter (fun name => decide (name ∉ names below))]
  cases hbelow : get? below name with
  | none =>
    have hnot := get?_eq_none.mp hbelow
    simp [hnot]
  | some value =>
    have hmem := mem_names.mpr ⟨value, hbelow⟩
    cases get? above name <;> simp [hmem]

/-- To put entries on a map one by one is to lay the map that they make over it. -/
theorem merge_eq_layered {below : List (String × α)} (h : (names below).Nodup)
    (above : List (String × α)) : merge below above = layered below (ofList above) := by
  refine eq_of_names_eq ?_ (nodup_names_merge h above) fun name => ?_
  · rw [names_merge, names_layered]
  · rw [get?_layered, get?_merge, get?_ofList]

end KeyExpansion.Entries
