import Ece318.Schedule.QueueRing

/-!
# `schedule` always dispatches a queued task

As long as the clock stays below `2^63` no wait reaches `ULLONG_MAX`, so no
divisor of the goodness wraps to 0.
-/

namespace Ece318.Schedule

open Ece318.Foundation

/-- A legal call, at a clock below `2^63`. -/
def Timely (seed : TaskAddr) (w : Watched) (action : Action) : Prop :=
  Legal seed w action ∧ action.clockAfter w.1.clock < 0x8000000000000000

instance (seed : TaskAddr) (w : Watched) (action : Action) : Decidable (Timely seed w action) :=
  inferInstanceAs (Decidable (_ ∧ _))

structure Early (seed : TaskAddr) (w : Watched) : Prop where
  sound : Sound seed w
  clock : w.1.clock < 0x8000000000000000

variable {seed : TaskAddr} {w : Watched}

theorem Early.waited_lt (he : Early seed w) : ∀ u ∈ w.2.queued, w.1.waited u < ULLONG_MAX := by
  intro u hu
  exact he.sound.waited_lt (UInt64.lt_trans he.clock (by decide)) hu

theorem early_step {action : Action} (he : Early seed w) (htimely : Timely seed w action) :
    ∃ w', stepWatched w action = .ok w' ∧ Early seed w' := by
  obtain ⟨s, h⟩ := w
  rcases effect_or_error he.sound htimely.1 with
    ⟨s', hok, heffect, hsound⟩ | ⟨⟨u, hu, hfull⟩, -⟩
  · refine ⟨_, hok, hsound, ?_⟩
    change s'.clock < 0x8000000000000000
    rw [heffect.clock]
    exact htimely.2
  · have hlt := he.waited_lt u hu
    rw [hfull] at hlt
    exact absurd hlt (UInt64.lt_irrefl _)

theorem Early.dispatches (he : Early seed w) :
    ∃ s' t, schedule w.1 = .ok s' ∧ s'.switches = w.1.switches ++ [some t] ∧
      s'.current = some t ∧ some t ∈ w.1.visited ∧ (t = seed ↔ w.1.rq.nrRunning = 1) := by
  obtain ⟨s, h⟩ := w
  have hqueued : Queued s seed h.queued := he.sound.queued
  have hcount : s.rq.nrRunning = h.queued.length + 1 := hqueued.nrRunning
  obtain ⟨c, -, -, ⟨hempty, hok⟩ | ⟨-, curr, hcurr, goodness, hok⟩ | ⟨⟨u, hu, hfull⟩, -⟩⟩ :=
    he.sound.schedule_cases
  · refine ⟨_, seed, hok, rfl, rfl, ?_, ?_⟩
    · exact (mem_visited hqueued).mpr List.mem_cons_self
    · simp [hcount, hempty]
  · refine ⟨_, curr, hok, rfl, rfl, ?_, ?_⟩
    · exact (mem_visited hqueued).mpr (List.mem_cons_of_mem _ hcurr)
    · have hne : curr ≠ seed := fun heq => hqueued.seed_notMem (heq ▸ hcurr)
      have hpos := List.length_pos_of_mem hcurr
      constructor
      · intro heq
        exact absurd heq hne
      · intro hone
        have hlength : h.queued.length + 1 = 1 := hcount ▸ hone
        omega
  · have hlt := he.waited_lt u hu
    rw [hfull] at hlt
    exact absurd hlt (UInt64.lt_irrefl _)

/-- In every state of every run before clock `2^63` `schedule` switches, once, to a queued task. -/
theorem schedule_dispatches (s : Sched) (seed : TaskAddr) {actions : List Action}
    (hclock : s.clock < 0x8000000000000000)
    (htimely : Along stepWatched (Timely seed) (start s seed) actions) :
    ∃ w, run stepWatched (start s seed) actions = .ok w ∧
      ∃ s' t, schedule w.1 = .ok s' ∧ s'.switches = w.1.switches ++ [some t] ∧
        s'.current = some t ∧ some t ∈ w.1.visited ∧ (t = seed ↔ w.1.rq.nrRunning = 1) := by
  have hstart : Early seed (start s seed) := ⟨Sound.start s seed, hclock⟩
  obtain ⟨w, hrun, hw⟩ := run_invariant (Early seed) (fun _ _ he ht => early_step he ht)
    hstart htimely
  exact ⟨w, hrun, hw.dispatches⟩

theorem schedule_dispatches_blank :
    ∃ w, run stepWatched (start blank 0) twoTasks = .ok w ∧
      ∃ s' t, schedule w.1 = .ok s' ∧ s'.switches = w.1.switches ++ [some t] ∧
        s'.current = some t ∧ some t ∈ w.1.visited ∧ (t = 0 ↔ w.1.rq.nrRunning = 1) :=
  schedule_dispatches blank 0 (by decide) (by decide)

end Ece318.Schedule
