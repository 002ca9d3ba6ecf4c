import Ece318.Schedule.Metering

/-!
# A burst and its average

A burst may be preempted any number of times before the task leaves the queue.
Each loss of the CPU averages what the burst has taken so far into the prediction,
and the departure averages the whole burst in twice.  A ghost beside the run counts
the CPU time of the burst and notes its value at each preemption.
-/

namespace Ece318.Schedule

open Ece318.Foundation

def average (pred burst : Nat) : Nat := (2 * burst + pred) / 3

structure Burst where
  cpu : Nat
  preempted : List Nat

namespace Burst

def fresh : Burst := ⟨0, []⟩

def record (T : TaskAddr) (b : Burst) (w : Watched) (_ : Action) (w' : Watched) : Burst where
  cpu := if w.1.current = some T then b.cpu + (w'.1.clock.toNat - w.1.clock.toNat) else b.cpu
  preempted :=
    if w.1.current = some T ∧ w'.1.current ≠ some T then b.preempted ++ [b.cpu] else b.preempted

/-- The prediction that the preemptions have left. -/
def carried (b : Burst) (pred : Nat) : Nat := b.preempted.foldl average pred

end Burst

abbrev stepBurst (T : TaskAddr) : Watched × Burst → Action → Except Fault (Watched × Burst) :=
  watch stepWatched (Burst.record T)

/-- The calls of one burst of `T`: no `schedule` finds `T` running and off the queue. -/
def InBurst (T : TaskAddr) : Watched → Action → Prop
  | _, .schedFork p => p ≠ T
  | w, .schedule => w.1.current = some T → T ∈ w.2.queued
  | _, _ => True

instance (T : TaskAddr) : ∀ w action, Decidable (InBurst T w action)
  | _, .schedFork p => inferInstanceAs (Decidable (p ≠ T))
  | w, .schedule => inferInstanceAs (Decidable (w.1.current = some T → T ∈ w.2.queued))
  | _, .wakeUpNewTask _ => .isTrue trivial
  | _, .activateTask _ => .isTrue trivial
  | _, .deactivateTask _ => .isTrue trivial
  | _, .tick _ => .isTrue trivial

/-- What a task has used of its burst: the time booked and the time since it got the CPU. -/
def Sched.used (s : Sched) (T : TaskAddr) : Nat :=
  (s.tasks T).lastBurstTime.toNat +
    if s.current = some T then s.clock.toNat - (s.tasks T).timeStarted.toNat else 0

structure BurstState (seed T : TaskAddr) (pred : Nat) (x : Watched × Burst) : Prop where
  metered : Metered seed x.1
  forked : T ∈ x.1.2.forked
  cpu : x.1.1.used T = x.2.cpu
  pred : (x.1.1.tasks T).nextBurstPred.toNat = x.2.carried pred

/-! ## The average -/

theorem toNat_burstAverage_eq (burst pred : UInt64) :
    (burstAverage burst pred).toNat = average pred.toNat burst.toNat :=
  toNat_burstAverage burst pred

theorem average_average_eq_iff (burst pred pred₀ : Nat) :
    average (average pred burst) burst = average pred₀ burst ↔
      ((pred : Int) - burst) / 9 = ((pred₀ : Int) - burst) / 3 := by
  simp only [average]
  omega

theorem ediv_nine_eq_ediv_three_iff (burst pred : Nat) :
    ((pred : Int) - burst) / 9 = ((pred : Int) - burst) / 3 ↔
      burst ≤ pred + 3 ∧ pred ≤ burst + 2 := by
  omega

/-! ## What the calls of a burst keep -/

namespace BurstState

variable {seed T : TaskAddr} {pred : Nat} {s s' : Sched} {h h' : History} {b : Burst}
  {action : Action}

theorem ne_seed {x : Watched × Burst} (hb : BurstState seed T pred x) : T ≠ seed := by
  rintro rfl
  exact hb.metered.sound.seed_notForked hb.forked

theorem keep (hb : BurstState seed T pred ((s, h), b)) (hm : Metered seed (s', h'))
    (hforked : T ∈ h'.forked) (hclock : s.clock ≤ s'.clock) (hcurrent : s'.current = s.current)
    (hburst : (s'.tasks T).lastBurstTime = (s.tasks T).lastBurstTime)
    (hstarted : (s'.tasks T).timeStarted = (s.tasks T).timeStarted)
    (hpred : (s'.tasks T).nextBurstPred = (s.tasks T).nextBurstPred) :
    BurstState seed T pred ((s', h'), b.record T (s, h) action (s', h')) := by
  have hcpu : s.used T = b.cpu := hb.cpu
  have htask := hb.metered.tasks T hb.forked
  have hle := UInt64.le_iff_toNat_le.mp hclock
  have hle' : (s.tasks T).timeStarted.toNat ≤ s.clock.toNat :=
    UInt64.le_iff_toNat_le.mp htask.started
  refine ⟨hm, hforked, ?_, ?_⟩
  · by_cases hrun : s.current = some T
    · -- the clock has moved on under the running task
      simp only [Sched.used, Burst.record, hcurrent, hburst, hstarted, hrun, if_true] at hcpu ⊢
      omega
    · simp only [Sched.used, Burst.record, hcurrent, hburst, hrun, if_false] at hcpu ⊢
      exact hcpu
  · simpa [Burst.record, Burst.carried, hcurrent, hpred] using hb.pred

theorem dispatch_running (hb : BurstState seed T pred ((s, h), b)) (hc : s.current = some T)
    (hT : T ∈ h.queued) {curr : TaskAddr} (goodness : TaskAddr → UInt64)
    (hm : Metered seed (s.dispatch h.queued T curr goodness, h')) (hforked : T ∈ h'.forked) :
    BurstState seed T pred ((s.dispatch h.queued T curr goodness, h'),
      b.record T (s, h) action (s.dispatch h.queued T curr goodness, h')) := by
  have hcpu : s.used T = b.cpu := hb.cpu
  have hpred : (s.tasks T).nextBurstPred.toNat = b.carried pred := hb.pred
  have htask : TaskMetered s T := hb.metered.tasks T hb.forked
  have hburst := htask.burst
  rw [Sched.meter, if_pos hc] at hburst
  have hbooked := booked_of_queued hb.metered.sound.queued hc hT
  have hcharged := toNat_charge hburst htask.started
  rw [Sched.used, if_pos hc] at hcpu
  rw [hcpu] at hcharged
  have hlast : ((s.dispatch h.queued T curr goodness).tasks T).lastBurstTime.toNat = b.cpu := by
    rw [dispatch_lastBurstTime, if_pos rfl, hbooked]
    exact hcharged
  refine ⟨hm, hforked, ?_, ?_⟩
  · -- the clock stands still, and `T` has nothing more to be charged with
    have hsame : (s.dispatch h.queued T curr goodness).clock = s.clock := rfl
    simp only [Sched.used, hlast, Burst.record, hc, if_true, hsame, dispatch_timeStarted]
    by_cases hcurr : T = curr
    · simp [hcurr]
    · have hnot : ¬ (s.dispatch h.queued T curr goodness).current = some T :=
        fun heq => hcurr (Option.some.inj heq).symm
      simp [hnot]
  · rw [dispatch_nextBurstPred]
    by_cases hcurr : curr = T
    · subst curr
      have hrun : (s.dispatch h.queued T T goodness).current = some T := rfl
      simpa [Burst.record, Burst.carried, hrun] using hpred
    · have hnot : (s.dispatch h.queued T curr goodness).current ≠ some T :=
        fun heq => hcurr (Option.some.inj heq)
      have hadd : (b.record T (s, h) action (s.dispatch h.queued T curr goodness, h')).carried
          pred = average (b.carried pred) b.cpu := by
        simp [Burst.record, Burst.carried, hc, hnot]
      rw [hadd, if_pos ⟨rfl, hcurr⟩, hbooked, ← hpred, ← hcharged]
      exact toNat_burstAverage _ _

theorem lastBurstTime_of_waiting (hb : BurstState seed T pred ((s, h), b))
    (hnot : ¬ s.current = some T) : (s.tasks T).lastBurstTime.toNat = b.cpu := by
  have hcpu : s.used T = b.cpu := hb.cpu
  rwa [Sched.used, if_neg hnot, Nat.add_zero] at hcpu

theorem dispatch_waiting (hb : BurstState seed T pred ((s, h), b)) {c : TaskAddr}
    (hc : s.current = some c) (hcT : c ≠ T) {curr : TaskAddr} (goodness : TaskAddr → UInt64)
    (hm : Metered seed (s.dispatch h.queued c curr goodness, h')) (hforked : T ∈ h'.forked) :
    BurstState seed T pred ((s.dispatch h.queued c curr goodness, h'),
      b.record T (s, h) action (s.dispatch h.queued c curr goodness, h')) := by
  have hnot : ¬ s.current = some T := by
    rw [hc]
    exact fun heq => hcT (Option.some.inj heq)
  have hcpu := hb.lastBurstTime_of_waiting hnot
  refine ⟨hm, hforked, ?_, ?_⟩
  · have hsame : (s.dispatch h.queued c curr goodness).clock = s.clock := rfl
    simp only [Sched.used, Burst.record, if_neg hnot, dispatch_lastBurstTime,
      dispatch_timeStarted, if_neg (Ne.symm hcT), hsame, hcpu]
    by_cases hcurr : T = curr
    · simp [hcurr]
    · have hnot' : ¬ (s.dispatch h.queued c curr goodness).current = some T :=
        fun heq => hcurr (Option.some.inj heq).symm
      simp [hnot']
  · rw [dispatch_nextBurstPred, if_neg fun hand => hcT hand.1.symm]
    simpa [Burst.record, Burst.carried, hnot] using hb.pred

theorem backToHead (hb : BurstState seed T pred ((s, h), b)) {c : TaskAddr}
    (hc : s.current = some c) (hcT : c ≠ T) (hm : Metered seed (s.backToHead c seed, h'))
    (hforked : T ∈ h'.forked) :
    BurstState seed T pred ((s.backToHead c seed, h'),
      b.record T (s, h) action (s.backToHead c seed, h')) := by
  have hnot : ¬ s.current = some T := by
    rw [hc]
    exact fun heq => hcT (Option.some.inj heq)
  have hnot' : ¬ (s.backToHead c seed).current = some T :=
    fun heq => hb.ne_seed (Option.some.inj heq).symm
  have hcpu := hb.lastBurstTime_of_waiting hnot
  refine ⟨hm, hforked, ?_, ?_⟩
  · simp only [Sched.used, Burst.record, if_neg hnot, if_neg hnot', backToHead_tasks, hcpu,
      Nat.add_zero]
  · simpa [Burst.record, Burst.carried, hnot, backToHead_tasks] using hb.pred

theorem step {x x' : Watched × Burst} (hb : BurstState seed T pred x)
    (hlegal : Legal seed x.1 action) (hin : InBurst T x.1 action)
    (hok : stepBurst T x action = .ok x') : BurstState seed T pred x' := by
  obtain ⟨⟨s, h⟩, b⟩ := x
  obtain ⟨w', hstep, rfl⟩ := watch_eq_ok.mp hok
  obtain ⟨s', rfl, heffect, -⟩ := effect_of_ok hb.metered.sound hlegal hstep
  have hm := hb.metered.step hlegal hstep
  have hT : T ∈ h.forked := hb.forked
  cases heffect with
  | fork p hp =>
      have hne : T ≠ p := Ne.symm hin
      refine hb.keep hm (List.mem_cons_of_mem _ hT) (UInt64.le_refl _) rfl ?_ ?_ ?_ <;>
        simp [schedFork, Sched.modify_tasks, hne]
  | insert action p next prev nrRunning haction hp hforked =>
      rw [record_insert haction] at hm ⊢
      refine hb.keep hm hT (UInt64.le_refl _) rfl ?_ ?_ ?_ <;>
        rw [Sched.count_tasks, stamp_relink_tasks]
  | remove p next prev nrRunning hp =>
      exact hb.keep hm hT (UInt64.le_refl _) rfl rfl rfl rfl
  | tick now hnow => exact hb.keep hm hT hnow rfl rfl rfl rfl
  | backToHead c hempty hc =>
      have hcT : c ≠ T := by
        rintro rfl
        have hmem : c ∈ h.queued := hin hc
        simp [hempty] at hmem
      exact hb.backToHead hc hcT hm hT
  | dispatch c curr goodness hcurr hc =>
      by_cases hcT : c = T
      · subst c
        exact hb.dispatch_running hc (hin hc) goodness hm hT
      · exact hb.dispatch_waiting hc hcT goodness hm hT

theorem run {x x' : Watched × Burst} {actions : List Action} (hb : BurstState seed T pred x)
    (hguard : Along (stepBurst T) (fun x a => Legal seed x.1 a ∧ InBurst T x.1 a) x actions)
    (hrun : run (stepBurst T) x actions = .ok x') : BurstState seed T pred x' :=
  run_preserves (BurstState seed T pred) (fun _ _ _ hb hg hok => hb.step hg.1 hg.2 hok) hb hguard
    hrun

theorem departure (hb : BurstState seed T pred ((s, h), b)) (hc : s.current = some T)
    (hleft : T ∉ h.queued) {curr : TaskAddr} (hcurr : curr ∈ h.queued)
    (goodness : TaskAddr → UInt64) :
    ((s.dispatch h.queued T curr goodness).tasks T).nextBurstPred.toNat =
      average (average (b.carried pred) b.cpu) b.cpu := by
  have hne := hb.ne_seed
  have hsound := hb.metered.sound
  have hremoved : T ∈ h.removed := (hb.metered.linked T hc hne).resolve_left hleft
  obtain ⟨-, hnext, hprev⟩ := hsound.removed T hremoved
  have htask : TaskMetered s T := hb.metered.tasks T hb.forked
  have hburst := htask.burst
  rw [Sched.meter, if_pos hc] at hburst
  have hcpu : s.used T = b.cpu := hb.cpu
  rw [Sched.used, if_pos hc] at hcpu
  have hcharged := (toNat_charge hburst htask.started).trans hcpu
  have hpred : (s.tasks T).nextBurstPred.toNat = b.carried pred := hb.pred
  have hcT : curr ≠ T := fun heq => hleft (heq ▸ hcurr)
  rw [dispatch_nextBurstPred, if_pos ⟨rfl, hcT⟩,
    booked_of_removed hsound.queued hc hne hnext hprev]
  simp only [TaskStruct.close, TaskStruct.charge, toNat_burstAverage_eq, hcharged, hpred]

end BurstState

/--
A burst with `B = b.cpu` units of CPU time, preempted any number of times, ends
off the queue.  Its prediction is `(2 * B + pred) / 3` exactly when the averages
that the preemptions took in come out right; without one, when `pred` is within
3 below and 2 above `B`.
-/
theorem departed_average_iff (s₀ : Sched) (seed : TaskAddr) {T : TaskAddr}
    {before actions : List Action} {w w' : Watched} {b : Burst}
    (hlegal : Along stepWatched (Legal seed) (start s₀ seed) before)
    (hrun : run stepWatched (start s₀ seed) before = .ok w) (hforked : T ∈ w.2.forked)
    (hzero : (w.1.tasks T).lastBurstTime = 0)
    (hfresh : w.1.current = some T → (w.1.tasks T).timeStarted = w.1.clock)
    (hburst : Along (stepBurst T) (fun x a => Legal seed x.1 a ∧ InBurst T x.1 a) (w, .fresh)
      actions)
    (hrun' : run (stepBurst T) (w, .fresh) actions = .ok (w', b))
    (hcurrent : w'.1.current = some T) (hleft : T ∉ w'.2.queued) (hmany : w'.2.queued ≠ []) :
    (w'.1.clock < ULLONG_MAX → ∃ s', schedule w'.1 = .ok s') ∧
      ∀ s', schedule w'.1 = .ok s' →
        ((s'.tasks T).nextBurstPred.toNat =
            (2 * b.cpu + (w.1.tasks T).nextBurstPred.toNat) / 3 ↔
          ((b.carried (w.1.tasks T).nextBurstPred.toNat : Int) - b.cpu) / 9 =
            (((w.1.tasks T).nextBurstPred.toNat : Int) - b.cpu) / 3) ∧
        (b.preempted = [] →
          ((s'.tasks T).nextBurstPred.toNat =
              (2 * b.cpu + (w.1.tasks T).nextBurstPred.toNat) / 3 ↔
            b.cpu ≤ (w.1.tasks T).nextBurstPred.toNat + 3 ∧
              (w.1.tasks T).nextBurstPred.toNat ≤ b.cpu + 2)) := by
  have hm := (Metered.start s₀ seed).run hlegal hrun
  have hstart : BurstState seed T (w.1.tasks T).nextBurstPred.toNat (w, .fresh) := by
    refine ⟨hm, hforked, ?_, rfl⟩
    by_cases hc : w.1.current = some T
    · simp [Sched.used, hzero, hc, hfresh hc, Burst.fresh]
    · simp [Sched.used, hzero, hc, Burst.fresh]
  have hb := hstart.run hburst hrun'
  obtain ⟨s, h⟩ := w'
  obtain ⟨c, hc, -, ⟨hempty, -⟩ | ⟨-, curr, hcurr, goodness, hok⟩ | ⟨⟨u, hu, hfull⟩, herror⟩⟩ :=
    hb.metered.sound.schedule_cases
  · exact absurd hempty hmany
  · obtain rfl : c = T := Option.some.inj (hc.symm.trans hcurrent)
    refine ⟨fun _ => ⟨_, hok⟩, ?_⟩
    intro s' hok'
    obtain rfl := Except.ok.inj (hok.symm.trans hok')
    rw [hb.departure hc hleft hcurr, ← average, average_average_eq_iff]
    refine ⟨Iff.rfl, ?_⟩
    intro hnone
    rw [Burst.carried, hnone]
    exact ediv_nine_eq_ediv_three_iff _ _
  · constructor
    · intro hclock
      have hlt := hb.metered.sound.waited_lt hclock hu
      rw [hfull] at hlt
      exact absurd hlt (UInt64.lt_irrefl _)
    · intro s' hok
      rw [herror] at hok
      cases hok

def bothQueued : List Action :=
  [.schedFork 1, .wakeUpNewTask 1, .schedFork 2, .wakeUpNewTask 2]

def oneStretch : List Action := [.schedule, .tick 9, .deactivateTask 1]

theorem departed_average_iff_oneStretch :
    ∃ w w' b, run stepWatched (start blank 0) bothQueued = .ok w ∧
      run (stepBurst 1) (w, .fresh) oneStretch = .ok (w', b) ∧
      (w'.1.clock < ULLONG_MAX → ∃ s', schedule w'.1 = .ok s') ∧
      ∀ s', schedule w'.1 = .ok s' →
        ((s'.tasks 1).nextBurstPred.toNat =
            (2 * b.cpu + (w.1.tasks 1).nextBurstPred.toNat) / 3 ↔
          ((b.carried (w.1.tasks 1).nextBurstPred.toNat : Int) - b.cpu) / 9 =
            (((w.1.tasks 1).nextBurstPred.toNat : Int) - b.cpu) / 3) ∧
        (b.preempted = [] →
          ((s'.tasks 1).nextBurstPred.toNat =
              (2 * b.cpu + (w.1.tasks 1).nextBurstPred.toNat) / 3 ↔
            b.cpu ≤ (w.1.tasks 1).nextBurstPred.toNat + 3 ∧
              (w.1.tasks 1).nextBurstPred.toNat ≤ b.cpu + 2)) :=
  have hlegal : Along stepWatched (Legal 0) (start blank 0) bothQueued := by decide
  ⟨_, _, _, rfl, rfl, departed_average_iff blank 0 hlegal rfl (by decide) rfl (by decide)
    (by decide) (rfl : run (stepBurst 1) _ oneStretch = _) rfl (by decide) (by decide)⟩

/-- The prediction becomes 8, not `(2 * 9 + 0) / 3`. -/
theorem oneStretch_averaged_twice :
    Along stepWatched (Legal 0) (start blank 0) (bothQueued ++ oneStretch) ∧
      ∃ w w' b s', run stepWatched (start blank 0) bothQueued = .ok w ∧
        (w.1.tasks 1).lastBurstTime = 0 ∧ (w.1.tasks 1).nextBurstPred = 0 ∧
        run (stepBurst 1) (w, .fresh) oneStretch = .ok (w', b) ∧ b.cpu = 9 ∧
        w'.1.current = some 1 ∧ 1 ∉ w'.2.queued ∧ w'.2.queued ≠ [] ∧
        schedule w'.1 = .ok s' ∧ (s'.tasks 1).nextBurstPred = 8 :=
  ⟨by decide, _, _, _, _, rfl, rfl, rfl, rfl, rfl, rfl, by decide, by decide, rfl, by decide⟩

end Ece318.Schedule
