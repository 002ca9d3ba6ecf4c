import Mathlib.Logic.Function.Iterate
import Ece318.Schedule.History

/-!
# A task that leaves the queue

`schedule` ends the burst of a running task that has been taken off the queue,
but only on the path for two tasks or more.  When just init is left the task
keeps its open burst, its old prediction and its old execution time.
-/

namespace Ece318.Schedule

open Ece318.Foundation

def Sched.burst (s : Sched) (c : TaskAddr) : UInt64 :=
  (s.tasks c).lastBurstTime + (s.clock - (s.tasks c).timeStarted)

/-- A prediction that a burst has entered, once or more often. -/
def UpdatedWith (burst pred pred' : UInt64) : Prop :=
  ∃ times, 0 < times ∧ pred' = (burstAverage burst)^[times] pred

structure BurstBooked (s s' : Sched) (c : TaskAddr) : Prop where
  lastBurstTime : (s'.tasks c).lastBurstTime = 0
  totalExecutionTime : (s'.tasks c).totalExecutionTime =
    (s.tasks c).totalExecutionTime + (s.clock - (s.tasks c).timeStarted)
  nextBurstPred :
    UpdatedWith (s.burst c) (s.tasks c).nextBurstPred (s'.tasks c).nextBurstPred

theorem burstAverage_zero_iterate (times : Nat) (pred : UInt64) :
    ((burstAverage 0)^[times] pred).toNat ≤ pred.toNat := by
  induction times generalizing pred with
  | zero => exact Nat.le_refl _
  | succ times ih =>
      rw [Function.iterate_succ_apply]
      have hstep := toNat_burstAverage 0 pred
      have hrest := ih (burstAverage 0 pred)
      simp only [UInt64.toNat_zero] at hstep
      omega

theorem updatedWith_zero_iff {pred : UInt64} : UpdatedWith 0 pred pred ↔ pred = 0 := by
  constructor
  · rintro ⟨times, hpos, heq⟩
    obtain ⟨times, rfl⟩ := Nat.exists_eq_succ_of_ne_zero (Nat.ne_of_gt hpos)
    rw [Function.iterate_succ_apply] at heq
    have hstep := toNat_burstAverage 0 pred
    have hrest := burstAverage_zero_iterate times (burstAverage 0 pred)
    rw [← heq] at hrest
    simp only [UInt64.toNat_zero] at hstep
    apply UInt64.toNat_inj.mp
    simp only [UInt64.toNat_zero]
    omega
  · rintro rfl
    exact ⟨1, Nat.one_pos, by decide⟩

section

variable {seed : TaskAddr} {s : Sched} {h : History} {c : TaskAddr}

theorem burstBooked_dispatch (hs : Sound seed (s, h)) (hc : s.current = some c) (hcs : c ≠ seed)
    (hremoved : c ∈ h.removed) {curr : TaskAddr} (hcurr : curr ∈ h.queued)
    (goodness : TaskAddr → UInt64) :
    BurstBooked s (s.dispatch h.queued c curr goodness) c := by
  have hhead : s.rq.head = some seed := hs.queued.head
  obtain ⟨hnotin, hnext, hprev⟩ := hs.removed c hremoved
  have hleft : s.Removed c := by
    refine ⟨⟨hnext, hprev⟩, ?_⟩
    rw [hc, hhead]
    exact fun heq => hcs (Option.some.inj heq)
  have hbooked : s.booked c =
      { ((s.tasks c).charge s.clock).close with needReschedule := 0 } := by
    simp only [Sched.booked, if_pos hleft.2, if_pos hleft]
  have hcc : curr ≠ c := by
    rintro rfl
    exact hnotin (List.mem_cons_of_mem _ hcurr)
  refine ⟨?_, ?_, 2, by decide, ?_⟩
  · simp [Sched.dispatch, Sched.rescheduled, hbooked, TaskStruct.close]
  · simp [Sched.dispatch, Sched.rescheduled, hbooked, TaskStruct.close, TaskStruct.charge]
  · -- the charge and the end of the burst each average it in
    simp [Sched.dispatch, Sched.rescheduled, hbooked, TaskStruct.close, TaskStruct.charge, hcc,
      Sched.burst]

theorem burstBooked_backToHead_iff :
    BurstBooked s (s.backToHead c seed) c ↔
      (s.tasks c).lastBurstTime = 0 ∧ (s.tasks c).nextBurstPred = 0 ∧
        (s.tasks c).timeStarted = s.clock := by
  constructor
  · rintro ⟨hlast, htotal, hpred⟩
    rw [backToHead_tasks] at hlast htotal hpred
    simp only at hlast htotal hpred
    have hzero : s.clock - (s.tasks c).timeStarted = 0 := by
      simpa using htotal
    have hburst : s.burst c = 0 := by
      rw [Sched.burst, hlast, hzero]
      rfl
    rw [hburst, updatedWith_zero_iff] at hpred
    have hclock : s.clock = (s.tasks c).timeStarted := by
      simpa using UInt64.sub_eq_iff_eq_add.mp hzero
    exact ⟨hlast, hpred, hclock.symm⟩
  · rintro ⟨hlast, hpred, hstarted⟩
    refine ⟨?_, ?_, ?_⟩ <;> rw [backToHead_tasks]
    · exact hlast
    · simp [hstarted]
    · have hburst : s.burst c = 0 := by
        simp [Sched.burst, hlast, hstarted]
      rw [hburst]
      exact updatedWith_zero_iff.mpr hpred

/-- A wait reaches `ULLONG_MAX` only from clock 0 to the last clock value. -/
theorem waited_eq_max_iff (hs : Sound seed (s, h)) {u : TaskAddr} (hu : u ∈ h.queued)
    (hcurrent : s.current ≠ some u) :
    s.waited u = ULLONG_MAX ↔ s.clock = ULLONG_MAX ∧ (s.tasks u).lastRunOrInQueue = 0 := by
  have hstamp : (s.tasks u).lastRunOrInQueue.toNat ≤ s.clock.toNat :=
    hs.stamped u (hs.forked u hu)
  have hclock := s.clock.toNat_lt
  rw [Sched.waited, if_neg (Ne.symm hcurrent)]
  simp only [← UInt64.toNat_inj]
  rw [UInt64.toNat_sub_of_le _ _ (UInt64.le_iff_toNat_le.mpr hstamp)]
  simp only [ULLONG_MAX, UInt64.reduceToNat, UInt64.toNat_zero]
  omega

end

/--
In every reachable state in which the running task has been taken off the queue:
the next call of `schedule` books its burst if and only if init is not alone in
the queue, or nothing is there to book.  (At the last clock value a task that
has waited since clock 0 stops `schedule` with a division by zero.)
-/
theorem burstBooked_iff (s₀ : Sched) (seed : TaskAddr) {actions : List Action} {w : Watched}
    (hlegal : Along stepWatched (Legal seed) (start s₀ seed) actions)
    (hrun : run stepWatched (start s₀ seed) actions = .ok w) {c : TaskAddr}
    (hc : w.1.current = some c) (hcs : c ≠ seed) (hremoved : c ∈ w.2.removed) :
    (∃ s', schedule w.1 = .ok s' ∧ BurstBooked w.1 s' c) ↔
      (w.1.rq.nrRunning ≠ 1 ∧
          ¬ (w.1.clock = ULLONG_MAX ∧ ∃ u ∈ w.2.queued, (w.1.tasks u).lastRunOrInQueue = 0)) ∨
        (w.1.rq.nrRunning = 1 ∧ (w.1.tasks c).lastBurstTime = 0 ∧
          (w.1.tasks c).nextBurstPred = 0 ∧ (w.1.tasks c).timeStarted = w.1.clock) := by
  obtain ⟨s, h⟩ := w
  have hs := sound_run (Sound.start s₀ seed) hlegal hrun
  have hcount : s.rq.nrRunning = h.queued.length + 1 := hs.queued.nrRunning
  obtain ⟨hnotin, -, -⟩ := hs.removed c hremoved
  have hfull : ∀ u ∈ h.queued, s.waited u = ULLONG_MAX ↔
      s.clock = ULLONG_MAX ∧ (s.tasks u).lastRunOrInQueue = 0 := by
    intro u hu
    apply waited_eq_max_iff hs hu
    rw [show s.current = some c from hc]
    rintro heq
    exact hnotin (List.mem_cons_of_mem _ (Option.some.inj heq ▸ hu))
  obtain ⟨c', hc', -, ⟨hempty, hok⟩ | ⟨hwait, curr, hcurr, goodness, hok⟩ |
    ⟨⟨u, hu, hmax⟩, hok⟩⟩ := hs.schedule_cases
  · -- just init is left
    obtain rfl : c = c' := Option.some.inj (hc.symm.trans hc')
    have hone : s.rq.nrRunning = 1 := by simp [hcount, hempty]
    simp [hok, hone, burstBooked_backToHead_iff]
  · obtain rfl : c = c' := Option.some.inj (hc.symm.trans hc')
    have hmany : s.rq.nrRunning ≠ 1 := by
      have hpos := List.length_pos_of_mem hcurr
      omega
    have hnone : ¬ (s.clock = ULLONG_MAX ∧
        ∃ u ∈ h.queued, (s.tasks u).lastRunOrInQueue = 0) := by
      rintro ⟨hclock, u, hu, hzero⟩
      have hlt := hwait u hu
      rw [(hfull u hu).mpr ⟨hclock, hzero⟩] at hlt
      exact UInt64.lt_irrefl _ hlt
    have hbooked := burstBooked_dispatch hs hc hcs hremoved hcurr goodness
    exact iff_of_true ⟨_, hok, hbooked⟩ (Or.inl ⟨hmany, hnone⟩)
  · obtain ⟨hclock, hzero⟩ := (hfull u hu).mp hmax
    have hmany : s.rq.nrRunning ≠ 1 := by
      have hpos := List.length_pos_of_mem hu
      omega
    refine iff_of_false ?_ ?_
    · rintro ⟨s', hok', -⟩
      rw [hok] at hok'
      cases hok'
    · rintro (⟨-, hnone⟩ | ⟨hone, -⟩)
      · exact hnone ⟨hclock, u, hu, hzero⟩
      · exact hmany hone

theorem burstBooked_iff_blank :
    ∃ w, run stepWatched (start blank 0) twoTasks = .ok w ∧
      ((∃ s', schedule w.1 = .ok s' ∧ BurstBooked w.1 s' 1) ↔
        (w.1.rq.nrRunning ≠ 1 ∧
            ¬ (w.1.clock = ULLONG_MAX ∧
              ∃ u ∈ w.2.queued, (w.1.tasks u).lastRunOrInQueue = 0)) ∨
          (w.1.rq.nrRunning = 1 ∧ (w.1.tasks 1).lastBurstTime = 0 ∧
            (w.1.tasks 1).nextBurstPred = 0 ∧ (w.1.tasks 1).timeStarted = w.1.clock)) :=
  have hlegal : Along stepWatched (Legal 0) (start blank 0) twoTasks := by decide
  ⟨_, rfl, burstBooked_iff blank 0 hlegal rfl rfl (by decide) (by decide)⟩

def loneTask : List Action :=
  [.schedFork 1, .wakeUpNewTask 1, .tick 5, .schedule, .tick 9, .schedule, .tick 12,
    .deactivateTask 1]

theorem burst_lost :
    Along stepWatched (Legal 0) (start blank 0) loneTask ∧
      ∃ w, run stepWatched (start blank 0) loneTask = .ok w ∧ w.1.current = some 1 ∧
        1 ∈ w.2.removed ∧ ¬ ∃ s', schedule w.1 = .ok s' ∧ BurstBooked w.1 s' 1 := by
  refine ⟨by decide, _, rfl, rfl, by decide, ?_⟩
  rintro ⟨s', hok, hbooked⟩
  cases hok
  exact absurd hbooked.lastBurstTime (by decide)

end Ece318.Schedule
