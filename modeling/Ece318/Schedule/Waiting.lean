import Ece318.Schedule.History

/-!
# Waiting times

`lastRunOrInQueue` of a queued task that is not running is the later of the
moment it was last inserted and the moment it last lost the CPU.  On the
single-task path `schedule` leaves the stamp of the running task as it was, but
that task is not queued, and its next insertion stamps it again.
-/

namespace Ece318.Schedule

open Ece318.Foundation

/-- The later of the last insertion and the last loss of the CPU. -/
def History.waitingSince (h : History) (p : TaskAddr) : Nat :=
  max (h.insertedAt p).toNat (h.lostCpuAt p).toNat

structure Stamped (seed : TaskAddr) (w : Watched) : Prop where
  sound : Sound seed w
  inserted : ∀ p, (w.2.insertedAt p).toNat ≤ w.1.clock.toNat
  lostCpu : ∀ p, (w.2.lostCpuAt p).toNat ≤ w.1.clock.toNat
  stamp : ∀ p ∈ w.2.queued, w.1.current ≠ some p →
    (w.1.tasks p).lastRunOrInQueue.toNat = w.2.waitingSince p

namespace Stamped

variable {seed : TaskAddr} {s s' : Sched} {h : History} {action : Action}

theorem start (s : Sched) (seed : TaskAddr) : Stamped seed (start s seed) where
  sound := Sound.start s seed
  inserted := by simp [Schedule.start, History.empty]
  lostCpu := by simp [Schedule.start, History.empty]
  stamp := by simp [Schedule.start, History.empty]

theorem waitingSince_le (hst : Stamped seed (s, h)) (p : TaskAddr) :
    h.waitingSince p ≤ s.clock.toNat :=
  Nat.max_le.mpr ⟨hst.inserted p, hst.lostCpu p⟩

theorem inserted_step (hst : Stamped seed (s, h)) (he : Effect seed s h action s') (p : TaskAddr) :
    ((h.record s action s').insertedAt p).toNat ≤ s'.clock.toNat := by
  have hold : (h.insertedAt p).toNat ≤ s.clock.toNat := hst.inserted p
  cases he with
  | insert action q next prev nrRunning haction hq hforked =>
      rw [record_insert haction]
      by_cases hpq : p = q
      · simp [History.insert, hpq]
      · simpa [History.insert, hpq] using hold
  | tick now hnow => exact Nat.le_trans hold (UInt64.le_iff_toNat_le.mp hnow)
  | _ => exact hold

theorem lostCpu_step (hst : Stamped seed (s, h)) (he : Effect seed s h action s') (p : TaskAddr) :
    ((h.record s action s').lostCpuAt p).toNat ≤ s'.clock.toNat := by
  have hold : (h.lostCpuAt p).toNat ≤ s.clock.toNat := hst.lostCpu p
  cases he with
  | insert action q next prev nrRunning haction hq hforked =>
      rw [record_insert haction]
      exact hold
  | tick now hnow => exact Nat.le_trans hold (UInt64.le_iff_toNat_le.mp hnow)
  | backToHead c hempty hc =>
      simp only [History.record]
      split
      · exact Nat.le_refl _
      · exact hold
  | dispatch c curr goodness hcurr hc =>
      simp only [History.record]
      split
      · exact Nat.le_refl _
      · exact hold
  | _ => exact hold

theorem stamp_step (hst : Stamped seed (s, h)) (he : Effect seed s h action s') :
    ∀ p ∈ (h.record s action s').queued, s'.current ≠ some p →
      (s'.tasks p).lastRunOrInQueue.toNat = (h.record s action s').waitingSince p := by
  intro p hp hcurrent
  have hold := hst.stamp p
  cases he with
  | fork q hq =>
      have hpq : p ≠ q := by
        rintro rfl
        exact hq (List.mem_cons_of_mem _ hp)
      simpa [schedFork, Sched.modify_tasks, hpq, History.record, History.waitingSince] using
        hold hp hcurrent
  | insert action q next prev nrRunning haction hq hforked =>
      rw [record_insert haction] at hp ⊢
      rw [Sched.count_tasks, stamp_relink_tasks]
      by_cases hpq : p = q
      · -- the stamp and the loss of the CPU are both in the past
        subst p
        have hstamp := hst.sound.stamped q hforked
        have hlost := hst.lostCpu q
        simp only [if_true, toNat_refreshed, History.waitingSince, History.insert,
          Function.update_self] at hstamp hlost ⊢
        omega
      · have hqueued : p ∈ h.queued := by simpa [History.insert, hpq] using hp
        simpa [hpq, History.insert, History.waitingSince] using hold hqueued hcurrent
  | remove q next prev nrRunning hq => exact hold (List.mem_of_mem_erase hp) hcurrent
  | tick now hnow => exact hold hp hcurrent
  | backToHead c hempty hc =>
      have hnone : p ∈ h.queued := hp
      simp [hempty] at hnone
  | dispatch c curr goodness hcurr hc =>
      have hqueued : p ∈ h.queued := hp
      have hpcurr : curr ≠ p := fun heq => hcurrent (by rw [← heq]; rfl)
      rw [dispatch_lastRunOrInQueue]
      by_cases hpc : p = c
      · -- the running task loses the CPU now
        subst p
        have hstamp := hst.sound.stamped c (hst.sound.forked c hqueued)
        have hinserted := hst.inserted c
        have hlost : s.current = some c ∧
            (s.dispatch h.queued c curr goodness).current ≠ some c := ⟨hc, hcurrent⟩
        rw [if_pos ⟨rfl, hpcurr⟩, toNat_refreshed]
        simp only [History.waitingSince, History.record, if_pos hlost] at hstamp hinserted ⊢
        omega
      · have hnot : s.current ≠ some p := by
          rw [hc]
          exact fun heq => hpc (Option.some.inj heq).symm
        rw [if_neg fun hand => hpc hand.1, hold hqueued hnot]
        simp [History.waitingSince, History.record, hnot]

theorem effect (hst : Stamped seed (s, h)) (he : Effect seed s h action s')
    (hsound : Sound seed (s', h.record s action s')) :
    Stamped seed (s', h.record s action s') :=
  ⟨hsound, hst.inserted_step he, hst.lostCpu_step he, hst.stamp_step he⟩

theorem run {actions : List Action} {w w' : Watched} (hst : Stamped seed w)
    (hlegal : Along stepWatched (Legal seed) w actions)
    (hrun : run stepWatched w actions = .ok w') : Stamped seed w' := by
  refine run_preserves (Stamped seed) ?_ hst hlegal hrun
  rintro ⟨s, h⟩ action w' hst hlegal hok
  obtain ⟨s', rfl, heffect, hsound⟩ := effect_of_ok hst.sound hlegal hok
  exact hst.effect heffect hsound

end Stamped

/--
In every run, after `schedule` has called `updateWaitingInRQ`, the wait of a
queued task is 0 if it runs, and otherwise the time since it was last inserted
or last lost the CPU; no subtraction underflows.  The rest of `schedule` keeps
the waits.
-/
theorem waitingInRQ_exact (s₀ : Sched) (seed : TaskAddr) {actions : List Action} {w : Watched}
    (hlegal : Along stepWatched (Legal seed) (start s₀ seed) actions)
    (hrun : run stepWatched (start s₀ seed) actions = .ok w) :
    ∃ c s', w.1.current = some c ∧ updateWaitingInRQ (book w.1 c).1 = .ok s' ∧
      (∀ p ∈ w.2.queued,
        (p = c → (s'.tasks p).waitingInRQ = 0) ∧
        (p ≠ c →
          ((book w.1 c).1.tasks p).lastRunOrInQueue ≤ w.1.clock ∧
          w.2.waitingSince p ≤ w.1.clock.toNat ∧
          (s'.tasks p).waitingInRQ.toNat = w.1.clock.toNat - w.2.waitingSince p)) ∧
      ∀ s'', schedule w.1 = .ok s'' → ∀ p ∈ w.2.queued,
        (s''.tasks p).waitingInRQ = (s'.tasks p).waitingInRQ := by
  obtain ⟨s, h⟩ := w
  have hst := (Stamped.start s₀ seed).run hlegal hrun
  have hqueued : Queued s seed h.queued := hst.sound.queued
  obtain ⟨c, hc, -, hcases⟩ := hst.sound.schedule_cases
  refine ⟨c, s.measured h.queued c, hc, ?_, ?_, ?_⟩
  · rw [book_eq]
    exact updateWaitingInRQ_bookedState hqueued c
  · intro p hp
    rw [measured_waitingInRQ s c hp, book_eq]
    constructor
    · rintro rfl
      exact if_pos hc.symm
    · intro hpc
      have hnot : s.current ≠ some p := by
        rw [hc]
        exact fun heq => hpc (Option.some.inj heq).symm
      have hstamp : (s.tasks p).lastRunOrInQueue.toNat = h.waitingSince p := hst.stamp p hp hnot
      have hle := hst.waitingSince_le p
      have hclock : (s.tasks p).lastRunOrInQueue ≤ s.clock := by
        rw [UInt64.le_iff_toNat_le, hstamp]
        exact hle
      refine ⟨?_, hle, ?_⟩
      · simpa [Sched.modify_tasks, hpc] using hclock
      · rw [Sched.waited, if_neg (Ne.symm hnot), UInt64.toNat_sub_of_le _ _ hclock, hstamp]
  · intro s'' hok p hp
    rcases hcases with ⟨hempty, -⟩ | ⟨-, curr, -, goodness, hok'⟩ | ⟨-, herror⟩
    · simp [hempty] at hp
    · obtain rfl := Except.ok.inj (hok'.symm.trans hok)
      rw [measured_waitingInRQ s c hp]
      simp [Sched.dispatch, Sched.rescheduled, hp]
    · rw [herror] at hok
      cases hok

theorem waitingInRQ_exact_blank :
    ∃ w, run stepWatched (start blank 0) twoTasks = .ok w ∧
      ∃ c s', w.1.current = some c ∧ updateWaitingInRQ (book w.1 c).1 = .ok s' ∧
        (∀ p ∈ w.2.queued,
          (p = c → (s'.tasks p).waitingInRQ = 0) ∧
          (p ≠ c →
            ((book w.1 c).1.tasks p).lastRunOrInQueue ≤ w.1.clock ∧
            w.2.waitingSince p ≤ w.1.clock.toNat ∧
            (s'.tasks p).waitingInRQ.toNat = w.1.clock.toNat - w.2.waitingSince p)) ∧
        ∀ s'', schedule w.1 = .ok s'' → ∀ p ∈ w.2.queued,
          (s''.tasks p).waitingInRQ = (s'.tasks p).waitingInRQ :=
  have hlegal : Along stepWatched (Legal 0) (start blank 0) twoTasks := by decide
  ⟨_, rfl, waitingInRQ_exact blank 0 hlegal rfl⟩

end Ece318.Schedule
