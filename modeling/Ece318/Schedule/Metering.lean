import Mathlib.Order.Lattice
import Ece318.Schedule.Charging

/-!
# What a task has been charged with

No charge of `schedule` wraps: what a task has been charged with lies before the
moment it was given the CPU, or before the clock.  A call that keeps the running
task moves its meters on and leaves everything else.
-/

namespace Ece318.Schedule

open Ece318.Foundation

/-- Up to when a task may have been charged. -/
def Sched.meter (s : Sched) (p : TaskAddr) : UInt64 :=
  if s.current = some p then (s.tasks p).timeStarted else s.clock

/-- The four fields of a task that a charge reads or writes, against the clock. -/
structure TaskMetered (s : Sched) (p : TaskAddr) : Prop where
  started : (s.tasks p).timeStarted ≤ s.clock
  pred : (s.tasks p).nextBurstPred ≤ s.clock
  burst : (s.tasks p).lastBurstTime ≤ s.meter p
  total : (s.tasks p).totalExecutionTime ≤ s.meter p

structure Metered (seed : TaskAddr) (w : Watched) : Prop where
  sound : Sound seed w
  tasks : ∀ p ∈ w.2.forked, TaskMetered w.1 p
  linked : ∀ c, w.1.current = some c → c ≠ seed → c ∈ w.2.queued ∨ c ∈ w.2.removed

theorem meter_le {s : Sched} {p : TaskAddr} (h : (s.tasks p).timeStarted ≤ s.clock) :
    s.meter p ≤ s.clock := by
  rw [Sched.meter]
  split
  · exact h
  · exact UInt64.le_refl _

theorem toNat_charge {before since now : UInt64} (hbefore : before ≤ since) (hnow : since ≤ now) :
    (before + (now - since)).toNat = before.toNat + (now.toNat - since.toNat) := by
  have hlt := now.toNat_lt
  have hle := UInt64.le_iff_toNat_le.mp hbefore
  have hle' := UInt64.le_iff_toNat_le.mp hnow
  rw [UInt64.toNat_add, UInt64.toNat_sub_of_le _ _ hnow]
  apply Nat.mod_eq_of_lt
  omega

theorem charge_le {before since now : UInt64} (hbefore : before ≤ since) (hnow : since ≤ now) :
    before + (now - since) ≤ now := by
  have hle := UInt64.le_iff_toNat_le.mp hbefore
  have hle' := UInt64.le_iff_toNat_le.mp hnow
  rw [UInt64.le_iff_toNat_le, toNat_charge hbefore hnow]
  omega

theorem burstAverage_le {burst pred now : UInt64} (hburst : burst ≤ now) (hpred : pred ≤ now) :
    burstAverage burst pred ≤ now := by
  have hle := UInt64.le_iff_toNat_le.mp hburst
  have hle' := UInt64.le_iff_toNat_le.mp hpred
  rw [UInt64.le_iff_toNat_le, toNat_burstAverage]
  omega

/-! ## What a dispatch books -/

section

variable {s : Sched} {seed c : TaskAddr} {cells : List TaskAddr}

theorem booked_of_queued (h : Queued s seed cells) (hc : s.current = some c) (hmem : c ∈ cells) :
    s.booked c = { (s.tasks c).charge s.clock with needReschedule := 0 } := by
  have hne : c ≠ seed := fun heq => h.seed_notMem (heq ▸ hmem)
  have hhead : s.current ≠ s.rq.head := by
    rw [hc, h.head]
    exact fun heq => hne (Option.some.inj heq)
  obtain ⟨r, -, hnext, -⟩ := h.ring.next_of_mem (List.mem_cons_of_mem seed hmem)
  have hnot : ¬ s.Removed c := by
    rintro ⟨⟨hnone, -⟩, -⟩
    rw [hnext] at hnone
    cases hnone
  simp [Sched.booked, hhead, hnot]

theorem booked_of_removed (h : Queued s seed cells) (hc : s.current = some c) (hne : c ≠ seed)
    (hnext : s.next c = none) (hprev : s.prev c = none) :
    s.booked c = { ((s.tasks c).charge s.clock).close with needReschedule := 0 } := by
  have hhead : s.current ≠ s.rq.head := by
    rw [hc, h.head]
    exact fun heq => hne (Option.some.inj heq)
  have hleft : s.Removed c := ⟨⟨hnext, hprev⟩, hhead⟩
  simp only [Sched.booked, if_pos hhead, if_pos hleft]

theorem dispatch_other (s : Sched) (cells : List TaskAddr) {c curr u : TaskAddr}
    (goodness : TaskAddr → UInt64) (hu : u ≠ c) (hcurr : u ≠ curr) :
    ∃ waitingInRQ, (s.dispatch cells c curr goodness).tasks u =
      { s.tasks u with waitingInRQ := waitingInRQ, goodness := goodness u } := by
  refine ⟨if u ∈ cells then s.waited u else (s.tasks u).waitingInRQ, ?_⟩
  simp [Sched.dispatch, Sched.rescheduled, hu, hcurr]

theorem dispatch_lastBurstTime (s : Sched) (cells : List TaskAddr) (c curr : TaskAddr)
    (goodness : TaskAddr → UInt64) (u : TaskAddr) :
    ((s.dispatch cells c curr goodness).tasks u).lastBurstTime =
      if u = c then (s.booked c).lastBurstTime else (s.tasks u).lastBurstTime := by
  by_cases hu : u = c <;> simp [Sched.dispatch, Sched.rescheduled, hu]

theorem dispatch_nextBurstPred (s : Sched) (cells : List TaskAddr) (c curr : TaskAddr)
    (goodness : TaskAddr → UInt64) (u : TaskAddr) :
    ((s.dispatch cells c curr goodness).tasks u).nextBurstPred =
      if u = c ∧ curr ≠ c then (s.booked c).nextBurstPred else (s.tasks u).nextBurstPred := by
  by_cases hu : u = c <;> by_cases hcurr : curr = c <;>
    simp [Sched.dispatch, Sched.rescheduled, hu, hcurr]

end

/-! ## What every run keeps -/

namespace TaskMetered

variable {s s' : Sched} {p c : TaskAddr}

theorem keep (h : TaskMetered s p) (hclock : s.clock ≤ s'.clock)
    (hcurrent : s'.current = s.current)
    (hstarted : (s'.tasks p).timeStarted = (s.tasks p).timeStarted)
    (hpred : (s'.tasks p).nextBurstPred = (s.tasks p).nextBurstPred)
    (hburst : (s'.tasks p).lastBurstTime = (s.tasks p).lastBurstTime)
    (htotal : (s'.tasks p).totalExecutionTime = (s.tasks p).totalExecutionTime) :
    TaskMetered s' p := by
  have hmeter : s.meter p ≤ s'.meter p := by
    simp only [Sched.meter, hcurrent, hstarted]
    split
    · exact UInt64.le_refl _
    · exact hclock
  refine ⟨?_, ?_, ?_, ?_⟩
  · rw [hstarted]
    exact UInt64.le_trans h.started hclock
  · rw [hpred]
    exact UInt64.le_trans h.pred hclock
  · rw [hburst]
    exact UInt64.le_trans h.burst hmeter
  · rw [htotal]
    exact UInt64.le_trans h.total hmeter

theorem schedFork (s : Sched) (p : TaskAddr) : TaskMetered (schedFork s p) p := by
  refine ⟨?_, ?_, ?_, ?_⟩ <;> simp [Schedule.schedFork, Sched.modify_tasks]

theorem backToHead (h : TaskMetered s p) (c : TaskAddr) {seed : TaskAddr} (hp : p ≠ seed) :
    TaskMetered (s.backToHead c seed) p := by
  have hmeter : (s.backToHead c seed).meter p = s.clock := by
    have hnot : ¬ (s.backToHead c seed).current = some p :=
      fun heq => hp (Option.some.inj heq).symm
    rw [Sched.meter, if_neg hnot]
    rfl
  have hle := meter_le h.started
  refine ⟨?_, ?_, ?_, ?_⟩
  · rw [backToHead_tasks]
    exact h.started
  · rw [backToHead_tasks]
    exact h.pred
  · rw [backToHead_tasks, hmeter]
    exact UInt64.le_trans h.burst hle
  · rw [backToHead_tasks, hmeter]
    exact UInt64.le_trans h.total hle

theorem booked_le (h : TaskMetered s c) (hc : s.current = some c) :
    (s.booked c).lastBurstTime ≤ s.clock ∧ (s.booked c).totalExecutionTime ≤ s.clock ∧
      (s.booked c).nextBurstPred ≤ s.clock := by
  have hmeter : s.meter c = (s.tasks c).timeStarted := by rw [Sched.meter, if_pos hc]
  have hburst := hmeter ▸ h.burst
  have htotal := hmeter ▸ h.total
  have hcharged := charge_le hburst h.started
  have hburst' := UInt64.le_trans hburst h.started
  simp only [Sched.booked, TaskStruct.charge, TaskStruct.close]
  split <;> split
  · exact ⟨UInt64.zero_le, charge_le htotal h.started,
      burstAverage_le hcharged (burstAverage_le hcharged h.pred)⟩
  · exact ⟨UInt64.zero_le, UInt64.le_trans htotal h.started, burstAverage_le hburst' h.pred⟩
  · exact ⟨hcharged, charge_le htotal h.started, burstAverage_le hcharged h.pred⟩
  · exact ⟨hburst', UInt64.le_trans htotal h.started, h.pred⟩

theorem dispatch (h : TaskMetered s p) (hc : s.current = some c) (cells : List TaskAddr)
    (curr : TaskAddr) (goodness : TaskAddr → UInt64) :
    TaskMetered (s.dispatch cells c curr goodness) p := by
  have hmeter : (s.dispatch cells c curr goodness).meter p = s.clock := by
    rw [Sched.meter, dispatch_timeStarted]
    by_cases hp : p = curr
    · simp [hp, Sched.dispatch]
    · have hnot : ¬ (s.dispatch cells c curr goodness).current = some p :=
        fun heq => hp (Option.some.inj heq).symm
      rw [if_neg hnot]
      rfl
  have hle := meter_le h.started
  have hbooked : p = c → (s.booked c).lastBurstTime ≤ s.clock ∧
      (s.booked c).totalExecutionTime ≤ s.clock ∧ (s.booked c).nextBurstPred ≤ s.clock := by
    rintro rfl
    exact h.booked_le hc
  refine ⟨?_, ?_, ?_, ?_⟩
  · rw [dispatch_timeStarted]
    split
    · exact UInt64.le_refl _
    · exact h.started
  · rw [dispatch_nextBurstPred]
    split
    · rename_i hand
      exact (hbooked hand.1).2.2
    · exact h.pred
  · rw [hmeter, dispatch_lastBurstTime]
    split
    · rename_i hpc
      exact (hbooked hpc).1
    · exact UInt64.le_trans h.burst hle
  · rw [hmeter]
    by_cases hpc : p = c
    · subst p
      simpa [Sched.dispatch, Sched.rescheduled] using (hbooked rfl).2.1
    · simpa [Sched.dispatch, Sched.rescheduled, hpc] using UInt64.le_trans h.total hle

end TaskMetered

namespace Metered

variable {seed : TaskAddr} {s s' : Sched} {h : History} {action : Action}

theorem start (s : Sched) (seed : TaskAddr) : Metered seed (start s seed) where
  sound := Sound.start s seed
  tasks := by simp [Schedule.start, History.empty]
  linked := by
    intro c hc hne
    exact absurd (Option.some.inj hc).symm hne

theorem tasks_step (hm : Metered seed (s, h)) (he : Effect seed s h action s') :
    ∀ p ∈ (h.record s action s').forked, TaskMetered s' p := by
  intro p hp
  cases he with
  | fork q hq =>
      by_cases hpq : p = q
      · subst p
        exact .schedFork s q
      · have hold := hm.tasks p (by simpa [History.record, hpq] using hp)
        refine hold.keep (UInt64.le_refl _) rfl ?_ ?_ ?_ ?_ <;>
          simp [schedFork, Sched.modify_tasks, hpq]
  | insert action q next prev nrRunning haction hq hforked =>
      rw [record_insert haction] at hp
      refine (hm.tasks p hp).keep (UInt64.le_refl _) rfl ?_ ?_ ?_ ?_ <;>
        rw [Sched.count_tasks, stamp_relink_tasks]
  | remove q next prev nrRunning hq =>
      exact (hm.tasks p hp).keep (UInt64.le_refl _) rfl rfl rfl rfl rfl
  | tick now hnow => exact (hm.tasks p hp).keep hnow rfl rfl rfl rfl rfl
  | backToHead c hempty hc =>
      apply (hm.tasks p hp).backToHead
      rintro rfl
      exact hm.sound.seed_notForked hp
  | dispatch c curr goodness hcurr hc => exact (hm.tasks p hp).dispatch hc _ _ _

theorem linked_step (hm : Metered seed (s, h)) (he : Effect seed s h action s') :
    ∀ c, s'.current = some c → c ≠ seed →
      c ∈ (h.record s action s').queued ∨ c ∈ (h.record s action s').removed := by
  intro c hc hne
  cases he with
  | fork q hq => exact hm.linked c hc hne
  | insert action q next prev nrRunning haction hq hforked =>
      rw [record_insert haction]
      have hold : c ∈ h.queued ∨ c ∈ h.removed := hm.linked c hc hne
      by_cases hcq : c = q
      · exact Or.inl (by simp [History.insert, hcq])
      · simpa [History.insert, hcq] using hold
  | remove q next prev nrRunning hq =>
      have hold : c ∈ h.queued ∨ c ∈ h.removed := hm.linked c hc hne
      by_cases hcq : c = q
      · exact Or.inr (by simp [History.record, History.remove, hcq])
      · simpa [History.record, History.remove, hcq, List.mem_erase_of_ne hcq] using hold
  | tick now hnow => exact hm.linked c hc hne
  | backToHead q hempty hq => exact absurd (Option.some.inj hc).symm hne
  | dispatch q curr goodness hcurr hq =>
      obtain rfl : curr = c := Option.some.inj hc
      exact Or.inl hcurr

theorem step {w w' : Watched} (hm : Metered seed w) (hlegal : Legal seed w action)
    (hok : stepWatched w action = .ok w') : Metered seed w' := by
  obtain ⟨s, h⟩ := w
  obtain ⟨s', rfl, heffect, hsound⟩ := effect_of_ok hm.sound hlegal hok
  exact ⟨hsound, hm.tasks_step heffect, hm.linked_step heffect⟩

theorem run {actions : List Action} {w w' : Watched} (hm : Metered seed w)
    (hlegal : Along stepWatched (Legal seed) w actions)
    (hrun : run stepWatched w actions = .ok w') : Metered seed w' :=
  run_preserves (Metered seed) (fun _ _ _ hm hlegal hok => hm.step hlegal hok) hm hlegal hrun

end Metered

/-! ## Calls that keep the running task -/

/-- The calls between which `T` runs on: every `schedule` finds it queued and picks it again. -/
def Kept (T : TaskAddr) : Watched → Action → Prop
  | _, .schedFork p => p ≠ T
  | w, .schedule => w.1.current = some T ∧ T ∈ w.2.queued ∧
      ∀ s', schedule w.1 = .ok s' → s'.current = some T
  | _, _ => True

instance (T : TaskAddr) : ∀ w action, Decidable (Kept T w action)
  | _, .schedFork p => inferInstanceAs (Decidable (p ≠ T))
  | w, .schedule => inferInstanceAs (Decidable (w.1.current = some T ∧ T ∈ w.2.queued ∧
      ∀ s', schedule w.1 = .ok s' → s'.current = some T))
  | _, .wakeUpNewTask _ => .isTrue trivial
  | _, .activateTask _ => .isTrue trivial
  | _, .deactivateTask _ => .isTrue trivial
  | _, .tick _ => .isTrue trivial

def Action.Touches : Action → TaskAddr → Prop
  | .schedFork p, u => p = u
  | .wakeUpNewTask p, u => p = u
  | .activateTask p, u => p = u
  | _, _ => False

structure MovedOn (T : TaskAddr) (s s' : Sched) : Prop where
  pred : (s'.tasks T).nextBurstPred = (s.tasks T).nextBurstPred
  started : (s.tasks T).timeStarted ≤ (s'.tasks T).timeStarted
  burst : (s'.tasks T).lastBurstTime.toNat + (s.tasks T).timeStarted.toNat =
    (s.tasks T).lastBurstTime.toNat + (s'.tasks T).timeStarted.toNat
  total : (s'.tasks T).totalExecutionTime.toNat + (s.tasks T).timeStarted.toNat =
    (s.tasks T).totalExecutionTime.toNat + (s'.tasks T).timeStarted.toNat

structure Untouched (t t' : TaskStruct) : Prop where
  lastBurstTime : t'.lastBurstTime = t.lastBurstTime
  nextBurstPred : t'.nextBurstPred = t.nextBurstPred
  totalExecutionTime : t'.totalExecutionTime = t.totalExecutionTime
  timeStarted : t'.timeStarted = t.timeStarted
  lastRunOrInQueue : t'.lastRunOrInQueue = t.lastRunOrInQueue

namespace MovedOn

variable {T : TaskAddr} {s s' s'' : Sched}

theorem of_same (hburst : (s'.tasks T).lastBurstTime = (s.tasks T).lastBurstTime)
    (hpred : (s'.tasks T).nextBurstPred = (s.tasks T).nextBurstPred)
    (htotal : (s'.tasks T).totalExecutionTime = (s.tasks T).totalExecutionTime)
    (hstarted : (s'.tasks T).timeStarted = (s.tasks T).timeStarted) : MovedOn T s s' where
  pred := hpred
  started := by
    rw [hstarted]
    exact UInt64.le_refl _
  burst := by rw [hburst, hstarted]
  total := by rw [htotal, hstarted]

theorem trans (h : MovedOn T s s') (h' : MovedOn T s' s'') : MovedOn T s s'' where
  pred := h'.pred.trans h.pred
  started := UInt64.le_trans h.started h'.started
  burst := by
    have hfirst := h.burst
    have hsecond := h'.burst
    omega
  total := by
    have hfirst := h.total
    have hsecond := h'.total
    omega

end MovedOn

section

variable {seed T : TaskAddr} {s s' : Sched} {h : History}

theorem movedOn_dispatch (hm : Metered seed (s, h)) (hc : s.current = some T)
    (hT : T ∈ h.queued) (goodness : TaskAddr → UInt64) :
    MovedOn T s (s.dispatch h.queued T T goodness) := by
  have htask : TaskMetered s T := hm.tasks T (hm.sound.forked T hT)
  have hmeter : s.meter T = (s.tasks T).timeStarted := by rw [Sched.meter, if_pos hc]
  have hburst := hmeter ▸ htask.burst
  have htotal := hmeter ▸ htask.total
  have hbooked := booked_of_queued hm.sound.queued hc hT
  have hle := UInt64.le_iff_toNat_le.mp htask.started
  refine ⟨?_, ?_, ?_, ?_⟩
  · simp [dispatch_nextBurstPred]
  · rw [dispatch_timeStarted, if_pos rfl]
    exact htask.started
  · rw [dispatch_timeStarted, if_pos rfl, dispatch_lastBurstTime, if_pos rfl, hbooked]
    simp only [TaskStruct.charge]
    rw [toNat_charge hburst htask.started]
    omega
  · rw [dispatch_timeStarted, if_pos rfl]
    simp only [Sched.dispatch, Sched.rescheduled, if_true, hbooked, TaskStruct.charge]
    rw [toNat_charge htotal htask.started]
    omega

theorem dispatch_of_kept {w w' : Watched} (hm : Metered seed w) (hkept : Kept T w .schedule)
    (hok : stepWatched w .schedule = .ok w') :
    ∃ goodness, w'.1 = w.1.dispatch w.2.queued T T goodness := by
  obtain ⟨s, h⟩ := w
  obtain ⟨hc, hT, hagain⟩ := hkept
  have hlegal : Legal seed (s, h) .schedule := trivial
  obtain ⟨s', rfl, heffect, -⟩ := effect_of_ok hm.sound hlegal hok
  obtain ⟨s'', hschedule, hpair⟩ := watch_eq_ok.mp hok
  obtain rfl : s'' = s' := (Prod.mk.inj hpair).1
  have hcurrent : s''.current = some T := hagain s'' hschedule
  cases heffect with
  | insert action p next prev nrRunning haction hp hforked =>
      rcases haction with haction | haction <;> cases haction
  | backToHead c hempty hc' =>
      have hmem : T ∈ h.queued := hT
      simp [hempty] at hmem
  | dispatch c curr goodness hcurr hc' =>
      obtain rfl : curr = T := Option.some.inj hcurrent
      obtain rfl : c = curr := Option.some.inj (hc'.symm.trans hc)
      exact ⟨goodness, rfl⟩

theorem movedOn_step {w w' : Watched} {action : Action} (hm : Metered seed w)
    (hlegal : Legal seed w action) (hkept : Kept T w action)
    (hok : stepWatched w action = .ok w') : MovedOn T w.1 w'.1 := by
  by_cases hschedule : action = .schedule
  · subst action
    obtain ⟨goodness, hw'⟩ := dispatch_of_kept hm hkept hok
    rw [hw']
    exact movedOn_dispatch hm hkept.1 hkept.2.1 goodness
  · obtain ⟨s, h⟩ := w
    obtain ⟨s', rfl, heffect, -⟩ := effect_of_ok hm.sound hlegal hok
    cases heffect with
    | fork p hp =>
        have hne : T ≠ p := Ne.symm hkept
        refine MovedOn.of_same ?_ ?_ ?_ ?_ <;> simp [schedFork, Sched.modify_tasks, hne]
    | insert action p next prev nrRunning haction hp hforked =>
        refine MovedOn.of_same ?_ ?_ ?_ ?_ <;> rw [Sched.count_tasks, stamp_relink_tasks]
    | remove p next prev nrRunning hp => exact .of_same rfl rfl rfl rfl
    | tick now hnow => exact .of_same rfl rfl rfl rfl
    | backToHead c hempty hc => exact absurd rfl hschedule
    | dispatch c curr goodness hcurr hc => exact absurd rfl hschedule

theorem untouched_step {w w' : Watched} {action : Action} (hm : Metered seed w)
    (hlegal : Legal seed w action) (hkept : Kept T w action)
    (hok : stepWatched w action = .ok w') {u : TaskAddr} (hu : u ≠ T)
    (htouches : ¬ action.Touches u) : Untouched (w.1.tasks u) (w'.1.tasks u) := by
  by_cases hschedule : action = .schedule
  · subst action
    obtain ⟨goodness, hw'⟩ := dispatch_of_kept hm hkept hok
    obtain ⟨waiting, hfield⟩ := dispatch_other w.1 w.2.queued goodness hu hu
    rw [hw', hfield]
    exact ⟨rfl, rfl, rfl, rfl, rfl⟩
  · obtain ⟨s, h⟩ := w
    obtain ⟨s', rfl, heffect, -⟩ := effect_of_ok hm.sound hlegal hok
    cases heffect with
    | fork p hp =>
        have hne : u ≠ p := fun heq => htouches heq.symm
        constructor <;> simp [schedFork, Sched.modify_tasks, hne]
    | insert action p next prev nrRunning haction hp hforked =>
        have hne : u ≠ p := by
          rintro rfl
          rcases haction with rfl | rfl <;> exact htouches rfl
        constructor <;> simp [stamp_relink_tasks, hne]
    | remove p next prev nrRunning hp => exact ⟨rfl, rfl, rfl, rfl, rfl⟩
    | tick now hnow => exact ⟨rfl, rfl, rfl, rfl, rfl⟩
    | backToHead c hempty hc => exact absurd rfl hschedule
    | dispatch c curr goodness hcurr hc => exact absurd rfl hschedule

theorem Untouched.trans {t t' t'' : TaskStruct} (h : Untouched t t') (h' : Untouched t' t'') :
    Untouched t t'' where
  lastBurstTime := h'.lastBurstTime.trans h.lastBurstTime
  nextBurstPred := h'.nextBurstPred.trans h.nextBurstPred
  totalExecutionTime := h'.totalExecutionTime.trans h.totalExecutionTime
  timeStarted := h'.timeStarted.trans h.timeStarted
  lastRunOrInQueue := h'.lastRunOrInQueue.trans h.lastRunOrInQueue

theorem kept_run {w w' : Watched} {actions : List Action} (hm : Metered seed w)
    (hkept : Along stepWatched (fun w a => Legal seed w a ∧ Kept T w a) w actions)
    (hrun : run stepWatched w actions = .ok w') :
    Metered seed w' ∧ MovedOn T w.1 w'.1 ∧
      ∀ u ≠ T, (∀ action ∈ actions, ¬ action.Touches u) →
        Untouched (w.1.tasks u) (w'.1.tasks u) := by
  have hguard := hkept.and_mem
  refine run_preserves (fun x => Metered seed x ∧ MovedOn T w.1 x.1 ∧
    ∀ u ≠ T, (∀ action ∈ actions, ¬ action.Touches u) →
      Untouched (w.1.tasks u) (x.1.tasks u)) ?_ ?_ hguard hrun
  · rintro x action x' ⟨hx, hmoved, hothers⟩ ⟨⟨hlegal, hkeep⟩, hmem⟩ hok
    refine ⟨hx.step hlegal hok, hmoved.trans (movedOn_step hx hlegal hkeep hok), ?_⟩
    intro u hu huntouched
    exact (hothers u hu huntouched).trans
      (untouched_step hx hlegal hkeep hok hu (huntouched action hmem))
  · exact ⟨hm, .of_same rfl rfl rfl rfl, fun u _ _ => ⟨rfl, rfl, rfl, rfl, rfl⟩⟩

end

/--
However often `schedule` picks the running task again, its prediction stays and
its burst and its execution time have grown by the clock time since it got the
CPU.  Nothing is booked for a task that is neither forked nor inserted.
-/
theorem keptTicks_neutral (s₀ : Sched) (seed : TaskAddr) {T : TaskAddr}
    {before during : List Action} {w w' : Watched}
    (hlegal : Along stepWatched (Legal seed) (start s₀ seed) before)
    (hrun : run stepWatched (start s₀ seed) before = .ok w)
    (hkept : Along stepWatched (fun w a => Legal seed w a ∧ Kept T w a) w
      (during ++ [.schedule]))
    (hrun' : run stepWatched w (during ++ [.schedule]) = .ok w') :
    (w'.1.tasks T).nextBurstPred = (w.1.tasks T).nextBurstPred ∧
      (w.1.tasks T).timeStarted ≤ w'.1.clock ∧
      (w'.1.tasks T).lastBurstTime.toNat = (w.1.tasks T).lastBurstTime.toNat +
        (w'.1.clock.toNat - (w.1.tasks T).timeStarted.toNat) ∧
      (w'.1.tasks T).totalExecutionTime.toNat = (w.1.tasks T).totalExecutionTime.toNat +
        (w'.1.clock.toNat - (w.1.tasks T).timeStarted.toNat) ∧
      ∀ u ≠ T, (∀ action ∈ during, ¬ action.Touches u) →
        Untouched (w.1.tasks u) (w'.1.tasks u) := by
  have hm := (Metered.start s₀ seed).run hlegal hrun
  obtain ⟨-, hmoved, hothers⟩ := kept_run hm hkept hrun'
  -- the last call was at the clock that the run ends with
  have hstarted : (w'.1.tasks T).timeStarted = w'.1.clock := by
    obtain ⟨x, hrunx, hlast⟩ := run_concat_eq_ok.mp hrun'
    obtain ⟨hduring, hcall, -⟩ := (along_append hrunx).mp hkept
    obtain ⟨hx, -, -⟩ := kept_run hm hduring hrunx
    obtain ⟨goodness, hw'⟩ := dispatch_of_kept hx hcall.2 hlast
    rw [hw', dispatch_timeStarted, if_pos rfl]
    rfl
  have hle := UInt64.le_iff_toNat_le.mp hmoved.started
  have hburst := hmoved.burst
  have htotal := hmoved.total
  rw [hstarted] at hle hburst htotal
  refine ⟨hmoved.pred, hstarted ▸ hmoved.started, by omega, by omega, ?_⟩
  intro u hu huntouched
  apply hothers u hu
  intro action haction
  rcases List.mem_append.mp haction with haction | haction
  · exact huntouched action haction
  · obtain rfl := List.mem_singleton.mp haction
    exact id

def oneRunning : List Action := [.schedFork 1, .wakeUpNewTask 1, .tick 3, .schedule]

def visitor : List Action :=
  [.schedFork 2, .wakeUpNewTask 2, .schedule, .deactivateTask 2, .tick 6]

theorem keptTicks_neutral_visitor :
    ∃ w w', run stepWatched (start blank 0) oneRunning = .ok w ∧
      run stepWatched w (visitor ++ [.schedule]) = .ok w' ∧
      (w'.1.tasks 1).nextBurstPred = (w.1.tasks 1).nextBurstPred ∧
      (w.1.tasks 1).timeStarted ≤ w'.1.clock ∧
      (w'.1.tasks 1).lastBurstTime.toNat = (w.1.tasks 1).lastBurstTime.toNat +
        (w'.1.clock.toNat - (w.1.tasks 1).timeStarted.toNat) ∧
      (w'.1.tasks 1).totalExecutionTime.toNat = (w.1.tasks 1).totalExecutionTime.toNat +
        (w'.1.clock.toNat - (w.1.tasks 1).timeStarted.toNat) ∧
      ∀ u ≠ 1, (∀ action ∈ visitor, ¬ action.Touches u) →
        Untouched (w.1.tasks u) (w'.1.tasks u) :=
  have hlegal : Along stepWatched (Legal 0) (start blank 0) oneRunning := by decide
  ⟨_, _, rfl, rfl, keptTicks_neutral blank 0 hlegal rfl (by decide) rfl⟩

end Ece318.Schedule
