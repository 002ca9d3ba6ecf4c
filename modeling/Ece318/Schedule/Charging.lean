import Mathlib.Algebra.BigOperators.Group.List.Basic
import Mathlib.Algebra.GroupWithZero.Nat
import Ece318.Schedule.History

/-!
# CPU time

A task is charged from `timeStarted` to the clock when it is the running task of
a call of `schedule`.  The stamp of a task that does not run may be stale, but
the task gets a fresh one when it is next given the CPU, so the charged intervals
follow one another.
-/

namespace Ece318.Schedule

open Ece318.Foundation

def ForkOnce : Watched → Action → Prop
  | (_, h), .schedFork p => p ∉ h.forked
  | _, _ => True

instance : ∀ w action, Decidable (ForkOnce w action)
  | (_, h), .schedFork p => inferInstanceAs (Decidable (p ∉ h.forked))
  | _, .wakeUpNewTask _ => .isTrue trivial
  | _, .activateTask _ => .isTrue trivial
  | _, .deactivateTask _ => .isTrue trivial
  | _, .tick _ => .isTrue trivial
  | _, .schedule => .isTrue trivial

def Sched.processingTime (s : Sched) (p : TaskAddr) : UInt64 :=
  s.clock - (s.tasks p).totalProcessingTime

/-- The CPU time that the forked tasks have been charged with. -/
def charged (w : Watched) : Nat :=
  (w.2.forked.map fun p => (w.1.tasks p).totalExecutionTime.toNat).sum

def horizon (seed : TaskAddr) (s : Sched) : Nat :=
  match s.current with
  | none => s.clock.toNat
  | some c => if c = seed then s.clock.toNat else (s.tasks c).timeStarted.toNat

structure Charged (seed : TaskAddr) (since : Nat) (w : Watched) : Prop where
  sound : Sound seed w
  nodup : w.2.forked.Nodup
  horizon_le : horizon seed w.1 ≤ w.1.clock.toNat
  total : since + charged w ≤ horizon seed w.1
  each : ∀ p ∈ w.2.forked,
    (w.2.forkedAt p).toNat + (w.1.tasks p).totalExecutionTime.toNat ≤
      if w.1.current = some p then horizon seed w.1 else w.1.clock.toNat
  processing : ∀ p ∈ w.2.forked, (w.1.tasks p).totalProcessingTime = w.2.forkedAt p

/-! ## What a dispatch charges -/

section

variable {s : Sched} {seed c : TaskAddr} {cells : List TaskAddr}

theorem dispatch_totalExecutionTime (h : Queued s seed cells) (hc : s.current = some c)
    (curr : TaskAddr) (goodness : TaskAddr → UInt64) (u : TaskAddr) :
    ((s.dispatch cells c curr goodness).tasks u).totalExecutionTime =
      if u = c ∧ c ≠ seed then
        (s.tasks u).totalExecutionTime + (s.clock - (s.tasks u).timeStarted)
      else (s.tasks u).totalExecutionTime := by
  have hseed : s.current ≠ s.rq.head ↔ c ≠ seed := by simp [hc, h.head]
  have hbooked : (s.booked c).totalExecutionTime = if c ≠ seed then
      (s.tasks c).totalExecutionTime + (s.clock - (s.tasks c).timeStarted)
      else (s.tasks c).totalExecutionTime := by
    simp only [Sched.booked, hseed, TaskStruct.charge, TaskStruct.close]
    split <;> split <;> rfl
  by_cases hu : u = c
  · subst u
    simp [Sched.dispatch, Sched.rescheduled, hbooked]
  · simp [Sched.dispatch, Sched.rescheduled, hu]

theorem dispatch_timeStarted (s : Sched) (cells : List TaskAddr) (c curr : TaskAddr)
    (goodness : TaskAddr → UInt64) (u : TaskAddr) :
    ((s.dispatch cells c curr goodness).tasks u).timeStarted =
      if u = curr then s.clock else (s.tasks u).timeStarted := by
  have hbooked := congrArg TaskStruct.timeStarted (booked_eq s c)
  by_cases hu : u = c
  · subst u
    simp only [Sched.dispatch, Sched.rescheduled, if_true, hbooked]
  · simp [Sched.dispatch, Sched.rescheduled, hu]

theorem dispatch_totalProcessingTime (s : Sched) (cells : List TaskAddr) (c curr : TaskAddr)
    (goodness : TaskAddr → UInt64) (u : TaskAddr) :
    ((s.dispatch cells c curr goodness).tasks u).totalProcessingTime =
      (s.tasks u).totalProcessingTime := by
  have hbooked := congrArg TaskStruct.totalProcessingTime (booked_eq s c)
  by_cases hu : u = c
  · subst u
    simp only [Sched.dispatch, Sched.rescheduled, if_true, hbooked]
  · simp [Sched.dispatch, Sched.rescheduled, hu]

theorem sum_charge {forked : List TaskAddr} (hnodup : forked.Nodup) (hc : c ∈ forked)
    (before after : TaskAddr → Nat) (amount : Nat) (hself : after c = before c + amount)
    (hother : ∀ p ∈ forked, p ≠ c → after p = before p) :
    (forked.map after).sum = (forked.map before).sum + amount := by
  have hrest : (forked.erase c).map after = (forked.erase c).map before := by
    apply List.map_congr_left
    intro p hp
    have hpc : p ≠ c := by
      rintro rfl
      exact hnodup.not_mem_erase hp
    exact hother p (List.mem_of_mem_erase hp) hpc
  have hbefore := List.sum_map_erase before hc
  have hafter := List.sum_map_erase after hc
  rw [hrest, hself] at hafter
  omega

end

/-! ## What every run keeps -/

namespace Charged

variable {seed : TaskAddr} {since : Nat} {s s' : Sched} {h : History} {action : Action}

theorem start (s : Sched) (seed : TaskAddr) :
    Charged seed s.clock.toNat (start s seed) where
  sound := Sound.start s seed
  nodup := List.nodup_nil
  horizon_le := by
    simp [horizon, Schedule.start, boot, initschedule, Sched.setNext, Sched.setPrev]
  total := by
    simp [charged, horizon, Schedule.start, History.empty, boot, initschedule, Sched.setNext,
      Sched.setPrev]
  each := by simp [Schedule.start, History.empty]
  processing := by simp [Schedule.start, History.empty]

theorem keep (hch : Charged seed since (s, h)) {h' : History} (hsound : Sound seed (s', h'))
    (hforked : h'.forked = h.forked) (hforkedAt : h'.forkedAt = h.forkedAt)
    (hclock : s.clock.toNat ≤ s'.clock.toNat) (hcurrent : s'.current = s.current)
    (htasks : ∀ p, (s'.tasks p).totalExecutionTime = (s.tasks p).totalExecutionTime ∧
      (s'.tasks p).timeStarted = (s.tasks p).timeStarted ∧
      (s'.tasks p).totalProcessingTime = (s.tasks p).totalProcessingTime) :
    Charged seed since (s', h') := by
  obtain ⟨c, hc, -⟩ := hch.sound.current
  have hbound := hch.horizon_le
  have htotal := hch.total
  have hhorizon : horizon seed s ≤ horizon seed s' ∧ horizon seed s' ≤ s'.clock.toNat := by
    simp only [horizon, hcurrent, show s.current = some c from hc, (htasks c).2.1] at hbound ⊢
    split at hbound <;> simp_all
    omega
  refine ⟨hsound, ?_, hhorizon.2, ?_, ?_, ?_⟩
  · rw [hforked]
    exact hch.nodup
  · simp only [charged, hforked, fun p => (htasks p).1] at htotal ⊢
    omega
  · intro p hp
    rw [hforked] at hp
    have hold := hch.each p hp
    simp only [hcurrent, hforkedAt, (htasks p).1] at hold ⊢
    split at hold <;> rename_i hif <;> simp only [hif, if_true, if_false] <;> omega
  · intro p hp
    rw [hforked] at hp
    rw [(htasks p).2.2, hforkedAt]
    exact hch.processing p hp

theorem fork (hch : Charged seed since (s, h)) {p : TaskAddr} (hp : p ∉ seed :: h.queued)
    (honce : p ∉ h.forked)
    (hsound : Sound seed (schedFork s p, h.record s (.schedFork p) (schedFork s p))) :
    Charged seed since (schedFork s p, h.record s (.schedFork p) (schedFork s p)) := by
  obtain ⟨c, hc, hmem⟩ := hch.sound.current
  have hcp : c ≠ p := by
    rintro rfl
    rcases List.mem_cons.mp hmem with rfl | hmem
    · exact hp List.mem_cons_self
    · exact honce hmem
  have hself : ∀ q, q ≠ p → (schedFork s p).tasks q = s.tasks q := by
    intro q hq
    simp [schedFork, Sched.modify_tasks, hq]
  have hne : ∀ q ∈ h.forked, q ≠ p := fun q hq heq => honce (heq ▸ hq)
  have hhorizon : horizon seed (schedFork s p) = horizon seed s := by
    have hcurrent : (schedFork s p).current = some c := hc
    simp only [horizon, hcurrent, show s.current = some c from hc, hself c hcp]
    rfl
  have hzero : ((schedFork s p).tasks p).totalExecutionTime = 0 := by
    simp [schedFork, Sched.modify_tasks]
  refine ⟨hsound, List.nodup_cons.mpr ⟨honce, hch.nodup⟩, ?_, ?_, ?_, ?_⟩
  · rw [hhorizon]
    exact hch.horizon_le
  · have hrest : h.forked.map (fun q => ((schedFork s p).tasks q).totalExecutionTime.toNat) =
        h.forked.map fun q => (s.tasks q).totalExecutionTime.toNat :=
      List.map_congr_left fun q hq => by rw [hself q (hne q hq)]
    have htotal := hch.total
    simp only [charged, History.record, List.map_cons, List.sum_cons, hzero, hrest,
      hhorizon] at htotal ⊢
    simpa using htotal
  · intro q hq
    rcases List.mem_cons.mp hq with rfl | hq
    · have hnot : ¬ (schedFork s q).current = some q := by
        rw [show (schedFork s q).current = some c from hc]
        exact fun heq => hcp (Option.some.inj heq)
      simp only [hnot, if_false, hzero, History.record, Function.update_self]
      exact Nat.le_refl _
    · have hold := hch.each q hq
      have hqp := hne q hq
      simp only [hself q hqp, hhorizon, History.record, Function.update_of_ne hqp]
      exact hold
  · intro q hq
    rcases List.mem_cons.mp hq with rfl | hq
    · simp [schedFork, Sched.modify_tasks, History.record]
    · have hqp := hne q hq
      simp only [hself q hqp, History.record, Function.update_of_ne hqp]
      exact hch.processing q hq

theorem backToHead (hch : Charged seed since (s, h)) (c : TaskAddr)
    (hsound : Sound seed (s.backToHead c seed, h.record s .schedule (s.backToHead c seed))) :
    Charged seed since (s.backToHead c seed, h.record s .schedule (s.backToHead c seed)) := by
  have hhorizon : horizon seed (s.backToHead c seed) = s.clock.toNat := by
    simp [horizon, Sched.backToHead, contextSwitch]
  have hbound : horizon seed s ≤ s.clock.toNat := hch.horizon_le
  refine ⟨hsound, hch.nodup, Nat.le_of_eq hhorizon, ?_, ?_, ?_⟩
  · have htotal := hch.total
    simp only [charged, History.record, backToHead_tasks, hhorizon] at htotal ⊢
    omega
  · intro p hp
    have hold := hch.each p hp
    simp only [backToHead_tasks, hhorizon, History.record] at hold ⊢
    have hgoal : (h.forkedAt p).toNat + (s.tasks p).totalExecutionTime.toNat ≤ s.clock.toNat := by
      split at hold
      · exact Nat.le_trans hold hbound
      · exact hold
    split <;> exact hgoal
  · intro p hp
    rw [backToHead_tasks]
    exact hch.processing p hp

theorem current_forked (hch : Charged seed since (s, h)) {c : TaskAddr}
    (hc : s.current = some c) (hcs : c ≠ seed) : c ∈ h.forked := by
  rcases hch.sound.current with ⟨c', hc', hmem⟩
  obtain rfl : c = c' := Option.some.inj (hc.symm.trans hc')
  exact (List.mem_cons.mp hmem).resolve_left hcs

theorem owed (hch : Charged seed since (s, h)) {c : TaskAddr} (hc : s.current = some c)
    (hcs : c ≠ seed) :
    horizon seed s = (s.tasks c).timeStarted.toNat ∧
      ((s.tasks c).totalExecutionTime + (s.clock - (s.tasks c).timeStarted)).toNat =
        (s.tasks c).totalExecutionTime.toNat + (s.clock.toNat - horizon seed s) := by
  have hforked := hch.current_forked hc hcs
  have hhorizon : horizon seed s = (s.tasks c).timeStarted.toNat := by
    simp [horizon, hc, hcs]
  have hbound : horizon seed s ≤ s.clock.toNat := hch.horizon_le
  have heach := hch.each c hforked
  rw [if_pos hc] at heach
  have hclock := s.clock.toNat_lt
  refine ⟨hhorizon, ?_⟩
  rw [UInt64.toNat_add, UInt64.toNat_sub_of_le _ _ (by rw [UInt64.le_iff_toNat_le]; omega),
    hhorizon]
  apply Nat.mod_eq_of_lt
  simp only at heach
  omega

theorem dispatch (hch : Charged seed since (s, h)) {c curr : TaskAddr}
    (hc : s.current = some c) (hcurr : curr ∈ h.queued) (goodness : TaskAddr → UInt64)
    (hsound : Sound seed (s.dispatch h.queued c curr goodness,
      h.record s .schedule (s.dispatch h.queued c curr goodness))) :
    Charged seed since (s.dispatch h.queued c curr goodness,
      h.record s .schedule (s.dispatch h.queued c curr goodness)) := by
  have hqueued : Queued s seed h.queued := hch.sound.queued
  have hne : curr ≠ seed := fun heq => hqueued.seed_notMem (heq ▸ hcurr)
  have hbound : horizon seed s ≤ s.clock.toNat := hch.horizon_le
  have htotal : since + charged (s, h) ≤ horizon seed s := hch.total
  have hexec := dispatch_totalExecutionTime hqueued hc curr goodness
  have hhorizon : horizon seed (s.dispatch h.queued c curr goodness) = s.clock.toNat := by
    have hcurrent : (s.dispatch h.queued c curr goodness).current = some curr := rfl
    simp [horizon, hcurrent, hne, dispatch_timeStarted]
  refine ⟨hsound, hch.nodup, Nat.le_of_eq hhorizon, ?_, ?_, ?_⟩
  · rw [hhorizon]
    by_cases hcs : c = seed
    · have hsame : charged (s.dispatch h.queued c curr goodness,
          h.record s .schedule (s.dispatch h.queued c curr goodness)) = charged (s, h) := by
        have hnot : ∀ p, ¬ (p = c ∧ c ≠ seed) := fun p hand => hand.2 hcs
        simp only [charged, History.record, hexec, hnot, if_false]
      omega
    · obtain ⟨-, hcharge⟩ := hch.owed hc hcs
      have hforked := hch.current_forked hc hcs
      have hsum := sum_charge hch.nodup hforked
        (fun p => (s.tasks p).totalExecutionTime.toNat)
        (fun p => ((s.dispatch h.queued c curr goodness).tasks p).totalExecutionTime.toNat)
        (s.clock.toNat - horizon seed s) (by simpa [hexec, hcs] using hcharge)
        (fun p _ hpc => by simp [hexec, hpc])
      simp only [charged, History.record] at htotal hsum ⊢
      omega
  · intro p hp
    have hold := hch.each p hp
    have hgoal : (h.forkedAt p).toNat +
        ((s.dispatch h.queued c curr goodness).tasks p).totalExecutionTime.toNat ≤
          s.clock.toNat := by
      rw [hexec]
      by_cases hpc : p = c ∧ c ≠ seed
      · obtain ⟨rfl, hcs⟩ := hpc
        rw [if_pos hc] at hold
        rw [if_pos ⟨rfl, hcs⟩, (hch.owed hc hcs).2]
        simp only at hold
        omega
      · rw [if_neg hpc]
        split at hold
        · exact Nat.le_trans hold hbound
        · exact hold
    simp only [hhorizon]
    split <;> exact hgoal
  · intro p hp
    rw [dispatch_totalProcessingTime]
    exact hch.processing p hp

theorem effect (hch : Charged seed since (s, h)) (honce : ForkOnce (s, h) action)
    (he : Effect seed s h action s') (hsound : Sound seed (s', h.record s action s')) :
    Charged seed since (s', h.record s action s') := by
  cases he with
  | fork p hp => exact hch.fork hp honce hsound
  | insert action p next prev nrRunning haction hp hforked =>
      rw [record_insert haction] at hsound ⊢
      apply hch.keep hsound rfl rfl (Nat.le_refl _) rfl
      intro q
      rw [Sched.count_tasks, stamp_relink_tasks]
      exact ⟨rfl, rfl, rfl⟩
  | remove p next prev nrRunning hp =>
      exact hch.keep hsound rfl rfl (Nat.le_refl _) rfl fun _ => ⟨rfl, rfl, rfl⟩
  | tick now hnow =>
      exact hch.keep hsound rfl rfl (UInt64.le_iff_toNat_le.mp hnow) rfl fun _ => ⟨rfl, rfl, rfl⟩
  | backToHead c hempty hc => exact hch.backToHead c hsound
  | dispatch c curr goodness hcurr hc => exact hch.dispatch hc hcurr goodness hsound

theorem run {actions : List Action} {w w' : Watched} (hch : Charged seed since w)
    (hlegal : Along stepWatched (fun w a => Legal seed w a ∧ ForkOnce w a) w actions)
    (hrun : run stepWatched w actions = .ok w') : Charged seed since w' := by
  refine run_preserves (Charged seed since) ?_ hch hlegal hrun
  rintro ⟨s, h⟩ action w' hch ⟨hlegal, honce⟩ hok
  obtain ⟨s', rfl, heffect, hsound⟩ := effect_of_ok hch.sound hlegal hok
  exact hch.effect honce heffect hsound

end Charged

/--
No run charges more CPU time than has passed, to all tasks together or to one
task since its fork, so `killtask` subtracts without underflow.
-/
theorem executionTime_bounded (s₀ : Sched) (seed : TaskAddr) {actions : List Action} {w : Watched}
    (hlegal : Along stepWatched (fun w a => Legal seed w a ∧ ForkOnce w a) (start s₀ seed) actions)
    (hrun : run stepWatched (start s₀ seed) actions = .ok w) :
    s₀.clock.toNat + charged w ≤ w.1.clock.toNat ∧
      ∀ p ∈ w.2.forked,
        (w.2.forkedAt p).toNat + (w.1.tasks p).totalExecutionTime.toNat ≤ w.1.clock.toNat ∧
        (w.1.tasks p).totalProcessingTime ≤ w.1.clock ∧
        (w.1.tasks p).totalExecutionTime ≤ w.1.processingTime p := by
  have hch := (Charged.start s₀ seed).run hlegal hrun
  refine ⟨Nat.le_trans hch.total hch.horizon_le, ?_⟩
  intro p hp
  have hle : (w.2.forkedAt p).toNat + (w.1.tasks p).totalExecutionTime.toNat ≤
      w.1.clock.toNat := by
    have heach := hch.each p hp
    split at heach
    · exact Nat.le_trans heach hch.horizon_le
    · exact heach
  have hprocessing : (w.1.tasks p).totalProcessingTime ≤ w.1.clock := by
    rw [UInt64.le_iff_toNat_le, hch.processing p hp]
    omega
  refine ⟨hle, hprocessing, ?_⟩
  rw [UInt64.le_iff_toNat_le, Sched.processingTime, UInt64.toNat_sub_of_le _ _ hprocessing,
    hch.processing p hp]
  omega

theorem executionTime_bounded_blank :
    ∃ w, run stepWatched (start blank 0) twoTasks = .ok w ∧
      (0 + charged w ≤ w.1.clock.toNat ∧
        ∀ p ∈ w.2.forked,
          (w.2.forkedAt p).toNat + (w.1.tasks p).totalExecutionTime.toNat ≤ w.1.clock.toNat ∧
          (w.1.tasks p).totalProcessingTime ≤ w.1.clock ∧
          (w.1.tasks p).totalExecutionTime ≤ w.1.processingTime p) :=
  have hlegal : Along stepWatched (fun w a => Legal 0 w a ∧ ForkOnce w a) (start blank 0)
      twoTasks := by decide
  ⟨_, rfl, executionTime_bounded blank 0 hlegal rfl⟩

end Ece318.Schedule
