-- SUMMARY: When a source is registered while leases on it start and stop.
import KeyExpansion.Registry
import Mathlib.Data.List.Induction
import Mathlib.Data.List.Perm.Basic

/-! # Runs of leases

Leases start and stop in any order, and several may be on one source. A lease that stops
takes out all registrations of its source. So a source is registered from the start of a
lease on it to the stop of any lease on it, which is as long as some lease on it lives only
where no lease stops before another one on the same source. -/

namespace KeyExpansion

/-- The registered sources and the leases that live. -/
structure Leases where
  registry : Registry := {}
  live : List Lease := []

namespace Leases

/-- A lease starts, or that at a place among those that live stops. -/
inductive Event where
  | start (s : Shared)
  | stop (place : Nat)

def step (l : Leases) : Event → Leases
  | .start s => { registry := (Lease.start l.registry s).2, live := l.live ++ [(Lease.start l.registry s).1] }
  | .stop place =>
    match l.live[place]? with
    | some lease => { registry := Lease.stop l.registry lease, live := l.live.eraseIdx place }
    | none => l

/-- What is left after events, where nothing was registered at first. -/
def run (events : List Event) : Leases :=
  events.foldl step {}

/-- The lease that an event stops. -/
def stopped? (l : Leases) : Event → Option Lease
  | .start _ => none
  | .stop place => l.live[place]?

/-- Some lease on the source lives. -/
def Holds (l : Leases) (s : Shared) : Prop :=
  ∃ lease ∈ l.live, lease.shared.id = s.id

/-- The sources that are registered are those with a lease. -/
def Agrees (l : Leases) : Prop :=
  ∀ s, l.registry.has s = true ↔ l.Holds s

/-- A lease on the source has started, and none has stopped since. -/
inductive Covers (s : Shared) : List Event → Prop
  | start {events : List Event} {t : Shared} (same : t.id = s.id) : Covers s (events ++ [.start t])
  | later {events : List Event} {event : Event} (covered : Covers s events)
      (other : ∀ lease ∈ (run events).stopped? event, lease.shared.id ≠ s.id) :
      Covers s (events ++ [event])

variable {l : Leases} {s t : Shared} {place : Nat} {lease : Lease} {event : Event}
  {events : List Event}

@[simp] theorem run_nil : run [] = {} := rfl

@[simp] theorem run_concat : run (events ++ [event]) = (run events).step event := by
  simp [run]

/-! ## One event -/

@[simp] theorem holds_start : (l.step (.start t)).Holds s ↔ l.Holds s ∨ t.id = s.id := by
  simp [Holds, step, Lease.start, or_and_right, exists_or]

theorem step_stop (h : l.live[place]? = some lease) :
    l.step (.stop place) = { registry := l.registry.unregister lease.shared, live := l.live.eraseIdx place } := by
  simp only [step, h]
  rfl

theorem step_stop_none (h : l.live[place]? = none) : l.step (.stop place) = l := by
  simp only [step, h]

/-- A lease that lives is the one that stops, or lives on. -/
theorem holds_stop (h : l.live[place]? = some lease) :
    l.Holds s ↔ lease.shared.id = s.id ∨ (l.step (.stop place)).Holds s := by
  obtain ⟨hplace, rfl⟩ := List.getElem?_eq_some_iff.mp h
  have hmem (other : Lease) :
      other ∈ l.live ↔ other = l.live[place] ∨ other ∈ l.live.eraseIdx place := by
    rw [← (List.getElem_cons_eraseIdx_perm hplace).mem_iff, List.mem_cons]
  simp only [Holds, step_stop h, hmem, or_and_right, exists_or, exists_eq_left]

/-- After an event a source is registered if a lease on it has just started, or if it was
registered and no lease on it has just stopped. -/
theorem has_step :
    (l.step event).registry.has s = true ↔
      (∃ t, event = .start t ∧ t.id = s.id) ∨
        l.registry.has s = true ∧ ∀ lease ∈ l.stopped? event, lease.shared.id ≠ s.id := by
  cases event with
  | start t => simp [step, stopped?, Lease.start, Registry.register, Registry.has, or_comm]
  | stop place =>
    cases hlease : l.live[place]? with
    | none => simp [step_stop_none hlease, stopped?, hlease]
    | some lease =>
      simp only [step_stop hlease, stopped?, hlease, Registry.unregister, Registry.has, reduceCtorEq,
        false_and, exists_false, false_or, Option.mem_some_iff, forall_eq', List.any_filter,
        List.any_eq_true, Bool.and_eq_true, bne_iff_ne, beq_iff_eq]
      constructor
      · rintro ⟨other, hmem, hne, hid⟩
        exact ⟨⟨other, hmem, hid⟩, fun hsame => hne (hid.trans hsame.symm)⟩
      · rintro ⟨⟨other, hmem, hid⟩, hne⟩
        exact ⟨other, hmem, fun hsame => hne (hsame.symm.trans hid), hid⟩

/-- An event leaves registered only what has a lease. -/
theorem holds_step (h : l.registry.has s = true → l.Holds s)
    (hstep : (l.step event).registry.has s = true) : (l.step event).Holds s := by
  rcases has_step.mp hstep with ⟨t, rfl, hsame⟩ | ⟨hhas, hother⟩
  · exact holds_start.mpr (.inr hsame)
  · cases event with
    | start t => exact holds_start.mpr (.inl (h hhas))
    | stop place =>
      cases hlease : l.live[place]? with
      | none =>
        rw [step_stop_none hlease]
        exact h hhas
      | some lease =>
        have hne : lease.shared.id ≠ s.id := hother lease hlease
        exact ((holds_stop hlease).mp (h hhas)).resolve_left hne

/-- Where the registered sources are those with a lease, they are so after an event exactly if
it stops no lease beside another one on the same source. -/
theorem Agrees.step_iff (h : l.Agrees) :
    (l.step event).Agrees ↔
      ∀ lease ∈ l.stopped? event, ¬ (l.step event).Holds lease.shared := by
  constructor
  · intro hstep lease hlease hholds
    rcases has_step.mp ((hstep lease.shared).mpr hholds) with ⟨t, rfl, -⟩ | ⟨-, hother⟩
    · cases hlease
    · exact hother lease hlease rfl
  · intro halone s
    refine ⟨holds_step (h s).mp, fun hholds => has_step.mpr ?_⟩
    cases event with
    | start t =>
      rcases holds_start.mp hholds with hold | hsame
      · exact .inr ⟨(h s).mpr hold, by simp [stopped?]⟩
      · exact .inl ⟨t, rfl, hsame⟩
    | stop place =>
      cases hlease : l.live[place]? with
      | none =>
        rw [step_stop_none hlease] at hholds
        exact .inr ⟨(h s).mpr hholds, by simp [stopped?, hlease]⟩
      | some lease =>
        refine .inr ⟨(h s).mpr ((holds_stop hlease).mpr (.inr hholds)), ?_⟩
        intro other hother hsame
        refine halone other hother ?_
        obtain ⟨survivor, hsurvivor, hid⟩ := hholds
        exact ⟨survivor, hsurvivor, hid.trans hsame.symm⟩

/-! ## Runs -/

theorem covers_concat :
    Covers s (events ++ [event]) ↔
      (∃ t, event = .start t ∧ t.id = s.id) ∨
        Covers s events ∧ ∀ lease ∈ (run events).stopped? event, lease.shared.id ≠ s.id := by
  constructor
  · generalize hrun : events ++ [event] = all
    intro h
    cases h with
    | start same =>
      obtain ⟨-, rfl⟩ := List.append_singleton_inj.mp hrun
      exact .inl ⟨_, rfl, same⟩
    | later covered other =>
      obtain ⟨rfl, rfl⟩ := List.append_singleton_inj.mp hrun
      exact .inr ⟨covered, other⟩
  · rintro (⟨t, rfl, same⟩ | ⟨covered, other⟩)
    · exact .start same
    · exact .later covered other

theorem has_run : (run events).registry.has s = true ↔ Covers s events := by
  induction events using List.reverseRecOn with
  | nil =>
    constructor
    · intro h
      cases h
    · intro h
      generalize hnil : ([] : List Event) = events at h
      cases h <;> simp at hnil
  | append_singleton events event ih => rw [run_concat, has_step, ih, covers_concat]

theorem holds_run (h : (run events).registry.has s = true) : (run events).Holds s := by
  induction events using List.reverseRecOn with
  | nil => cases h
  | append_singleton events event ih =>
    rw [run_concat] at h ⊢
    exact holds_step ih h

/-- The registered sources are those with a lease all along a run exactly if no lease stops
while another one on the same source lives. -/
theorem agrees_run_iff :
    (∀ before, before <+: events → (run before).Agrees) ↔
      ∀ before event, before ++ [event] <+: events →
        ∀ lease ∈ (run before).stopped? event, ¬ (run (before ++ [event])).Holds lease.shared := by
  constructor
  · intro h before event hbefore
    have hearlier : before <+: events := (List.prefix_append before [event]).trans hbefore
    have hstep := h _ hbefore
    rw [run_concat] at hstep ⊢
    exact (h before hearlier).step_iff.mp hstep
  · intro halone before
    induction before using List.reverseRecOn with
    | nil => exact fun _ s => by simp [Registry.has, Holds]
    | append_singleton before event ih =>
      intro hbefore
      have hearlier : before <+: events := (List.prefix_append before [event]).trans hbefore
      have halone := halone before event hbefore
      rw [run_concat] at halone ⊢
      exact (ih hearlier).step_iff.mpr halone

/-- A source is registered from the start of a lease on it to the stop of any lease on it. What
is registered has a lease, so nothing is once all leases have stopped. All that have a lease
are registered all along a run exactly if no lease stops while another one on the same source
lives. -/
theorem registered_iff (events : List Event) :
    (∀ s, (run events).registry.has s = true ↔ Covers s events) ∧
    (∀ s, (run events).registry.has s = true → (run events).Holds s) ∧
    ((run events).live = [] → (run events).registry.shared = []) ∧
    ((∀ before, before <+: events → (run before).Agrees) ↔
      ∀ before event, before ++ [event] <+: events →
        ∀ lease ∈ (run before).stopped? event, ¬ (run (before ++ [event])).Holds lease.shared) := by
  refine ⟨fun s => has_run, fun s => holds_run, fun hlive => ?_, agrees_run_iff⟩
  refine List.eq_nil_iff_forall_not_mem.mpr fun s hs => ?_
  have hhas : (run events).registry.has s = true := List.any_eq_true.mpr ⟨s, hs, by simp⟩
  obtain ⟨lease, hlease, -⟩ := holds_run hhas
  rw [hlive] at hlease
  cases hlease

/-- Of two leases on one source the first stops, and the source is gone while the other lives. -/
theorem has_misses_second_lease :
    let s : Shared := ⟨0, .table [("a", .str "v")]⟩
    let l := run [.start s, .start s, .stop 0]
    l.Holds s ∧ l.registry.has s = false :=
  ⟨⟨_, List.mem_singleton.mpr rfl, rfl⟩, rfl⟩

end Leases

end KeyExpansion
