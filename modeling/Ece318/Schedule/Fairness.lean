import Ece318.Schedule.Goodness

/-!
# No task is passed over for ever

A queued task that has waited long for its prediction is passed over only for tasks
that were waiting beside it already, and for each of these once at most.
-/

namespace Ece318.Schedule

open Ece318.Foundation

/-! ## A long wait beats every burst quotient -/

theorem mul_div_lt_div {x a b p : Nat} (hb : 0 < b) (hle : b ≤ x) (ha : 2 * (p * b) ≤ a) :
    p * (x / a) < x / b := by
  have hone : 1 ≤ x / b := (Nat.one_le_div_iff hb).mpr hle
  have hdouble : 2 * (p * (x / a)) ≤ x / b := by
    rw [Nat.le_div_iff_mul_le hb]
    calc 2 * (p * (x / a)) * b = 2 * (p * b) * (x / a) := by ring
      _ ≤ a * (x / a) := Nat.mul_le_mul_right _ ha
      _ ≤ x := Nat.mul_div_le x a
  omega

section

variable {s : Sched} {seed : TaskAddr} {cells : List TaskAddr} {h : History} {M u : TaskAddr}

theorem truncatedGoodness_lt_of_wait (hu : u ∈ cells)
    (hwait : 2 * ((1 + (s.tasks M).nextBurstPred.toNat) * (1 + (s.tasks u).waitingInRQ.toNat)) ≤
      1 + (s.tasks M).waitingInRQ.toNat) :
    s.truncatedGoodness cells M < s.truncatedGoodness cells u := by
  have hlongest := le_longestWait (s := s) hu
  have hburst : s.burstQuotient cells M ≤ 1 + (s.tasks M).nextBurstPred.toNat :=
    Nat.div_le_self _ _
  calc s.truncatedGoodness cells M
      ≤ (1 + (s.tasks M).nextBurstPred.toNat) * s.waitQuotient cells M :=
        Nat.mul_le_mul_right _ hburst
    _ < s.waitQuotient cells u := mul_div_lt_div (by omega) (by omega) hwait
    _ ≤ s.truncatedGoodness cells u := Nat.le_mul_of_pos_left _ (one_le_burstQuotient hu)

theorem Sound.toNat_waited (hs : Sound seed (s, h)) (hu : u ∈ h.queued)
    (hidle : s.current ≠ some u) :
    (s.waited u).toNat = s.clock.toNat - (s.tasks u).lastRunOrInQueue.toNat := by
  have hstamp := hs.stamped u (hs.forked u hu)
  rw [Sched.waited, if_neg (Ne.symm hidle)]
  exact UInt64.toNat_sub_of_le _ _ (UInt64.le_iff_toNat_le.mpr hstamp)

theorem Metered.schedule_truncated (hm : Metered seed (s, h)) (hne : h.queued ≠ [])
    (hclock : s.clock < 0xffffffff) :
    ∃ c, s.current = some c ∧ ∃ curr ∈ h.queued, ∃ goodness,
      schedule s = .ok (s.dispatch h.queued c curr goodness) ∧
      ∀ u ∈ h.queued, (s.measured h.queued c).truncatedGoodness h.queued curr ≤
        (s.measured h.queued c).truncatedGoodness h.queued u := by
  have hs := hm.sound
  have hqueued : Queued s seed h.queued := hs.queued
  obtain ⟨c, hc, -⟩ := hs.current
  have hpred : ∀ u ∈ h.queued, (s.tasks u).nextBurstPred < ULLONG_MAX :=
    fun u hu => hs.pred u (hs.forked u hu)
  have hwait : ∀ u ∈ h.queued, s.waited u < ULLONG_MAX :=
    fun u hu => hs.waited_lt (UInt64.lt_trans hclock (by decide)) hu
  obtain ⟨m, hm', w, hw, curr, hcurr, hok, hextremes⟩ := schedule_long hqueued hne hc hpred hwait
  refine ⟨c, hc, curr, hcurr, _, hok, ?_⟩
  have hvalue : ∀ u ∈ h.queued, ((s.measured h.queued c).goodnessOf m w u).toNat =
      (s.measured h.queued c).truncatedGoodness h.queued u := by
    intro u hu
    rw [toNat_goodnessOf hm' hw (fun u hu => (hextremes u hu).1)
      (fun u hu => (hextremes u hu).2.1)
      (fun u hu => measured_nextBurstPred_lt c (hpred u hu))
      (fun u hu => by rw [measured_waitingInRQ s c hu]; exact hwait u hu) hu]
    exact Nat.mod_eq_of_lt
      (goodnessFits_of_clock_lt hm hclock c _ hc (updateWaitingInRQ_book hqueued c) u hu)
  intro u hu
  rw [← hvalue curr hcurr, ← hvalue u hu]
  exact UInt64.le_iff_toNat_le.mp (hextremes u hu).2.2

end

/-! ## The window -/

/-- For how long no later arrival is picked before a task that has waited. -/
def Sched.patience (s : Sched) (M : TaskAddr) : Nat :=
  (1 + (s.waited M).toNat) / (2 * (1 + (s.tasks M).nextBurstPred.toNat))

/-- The legal calls after `w`, in the time of the patience of `M`, that leave it queued. -/
def Within (seed M : TaskAddr) (w w' : Watched) (action : Action) : Prop :=
  Legal seed w' action ∧ action ≠ .deactivateTask M ∧
    action.clockAfter w'.1.clock < 0xffffffff ∧
    (action.clockAfter w'.1.clock).toNat < w.1.clock.toNat + w.1.patience M

instance (seed M : TaskAddr) (w w' : Watched) (action : Action) :
    Decidable (Within seed M w w' action) :=
  inferInstanceAs (Decidable (_ ∧ _))

/-- `M` has been queued, and not running, from `w` to `w'`. -/
structure Awaits (seed M : TaskAddr) (w w' : Watched) : Prop where
  metered : Metered seed w'
  queued : M ∈ w'.2.queued
  idle : w'.1.current ≠ some M
  stamp : (w'.1.tasks M).lastRunOrInQueue = (w.1.tasks M).lastRunOrInQueue
  pred : (w'.1.tasks M).nextBurstPred = (w.1.tasks M).nextBurstPred
  waited : (w.1.waited M).toNat = w.1.clock.toNat - (w.1.tasks M).lastRunOrInQueue.toNat
  clock : w.1.clock ≤ w'.1.clock

/-- How many tasks besides `M` have been waiting since before `since`. -/
def Sched.ahead (s : Sched) (queued : List TaskAddr) (M : TaskAddr) (since : UInt64) : Nat :=
  queued.countP fun u =>
    u ≠ M ∧ s.current ≠ some u ∧ (s.tasks u).lastRunOrInQueue < since

theorem ahead_mono {s s' : Sched} {queued : List TaskAddr} {M : TaskAddr} {since : UInt64}
    (hcurrent : s'.current = s.current)
    (hstamp : ∀ u ∈ queued,
      (s'.tasks u).lastRunOrInQueue = (s.tasks u).lastRunOrInQueue) :
    s'.ahead queued M since ≤ s.ahead queued M since := by
  refine List.countP_mono_left fun u hu => ?_
  simp only [decide_eq_true_eq, hcurrent, hstamp u hu]
  exact id

theorem ahead_lt_length {s : Sched} {queued : List TaskAddr} {M : TaskAddr} {since : UInt64}
    (hM : M ∈ queued) : s.ahead queued M since < queued.length :=
  List.countP_lt_length_iff.mpr ⟨M, hM, by simp⟩

theorem Legal.clock_le {seed : TaskAddr} {w : Watched} {action : Action}
    (hlegal : Legal seed w action) : w.1.clock ≤ action.clockAfter w.1.clock := by
  cases action with
  | tick now => exact hlegal
  | _ => exact UInt64.le_refl _

namespace Awaits

variable {seed M : TaskAddr} {w : Watched} {s s' : Sched} {h : History} {action : Action}

theorem patience_le (ha : Awaits seed M w (s, h))
    (hclock : s.clock.toNat < w.1.clock.toNat + w.1.patience M) :
    2 * ((1 + (s.tasks M).nextBurstPred.toNat) * (1 + (s.clock.toNat - w.1.clock.toNat))) ≤
      1 + (s.waited M).toNat := by
  have hnow : w.1.clock.toNat ≤ s.clock.toNat := UInt64.le_iff_toNat_le.mp ha.clock
  have hstamp : (s.tasks M).lastRunOrInQueue = (w.1.tasks M).lastRunOrInQueue := ha.stamp
  have hpred : (s.tasks M).nextBurstPred = (w.1.tasks M).nextBurstPred := ha.pred
  have hpatience : 1 + (s.clock.toNat - w.1.clock.toNat) ≤ w.1.patience M := by omega
  rw [Sched.patience, Nat.le_div_iff_mul_le (by omega)] at hpatience
  rw [ha.metered.sound.toNat_waited ha.queued ha.idle, hstamp, hpred]
  calc 2 * ((1 + (w.1.tasks M).nextBurstPred.toNat) * (1 + (s.clock.toNat - w.1.clock.toNat)))
      = (1 + (s.clock.toNat - w.1.clock.toNat)) *
          (2 * (1 + (w.1.tasks M).nextBurstPred.toNat)) := by ring
    _ ≤ 1 + (w.1.waited M).toNat := hpatience
    _ ≤ 1 + (s.clock.toNat - (w.1.tasks M).lastRunOrInQueue.toNat) := by
        rw [ha.waited]
        omega

theorem picks (ha : Awaits seed M w (s, h)) (hsmall : s.clock < 0xffffffff)
    (hclock : s.clock.toNat < w.1.clock.toNat + w.1.patience M) :
    ∃ c, s.current = some c ∧ ∃ curr ∈ h.queued, ∃ goodness,
      schedule s = .ok (s.dispatch h.queued c curr goodness) ∧
      (curr ≠ M → curr ≠ c ∧ (s.tasks curr).lastRunOrInQueue < w.1.clock) := by
  obtain ⟨c, hc, curr, hcurr, goodness, hok, hminimal⟩ :=
    ha.metered.schedule_truncated (List.ne_nil_of_mem ha.queued) hsmall
  refine ⟨c, hc, curr, hcurr, goodness, hok, fun _ => ?_⟩
  have hcM : M ≠ c := fun heq => ha.idle (heq ▸ hc)
  have hlong : s.clock.toNat - w.1.clock.toNat < (s.waited curr).toNat := by
    by_contra hshort
    -- then the goodness of `M` would be the smaller one
    refine absurd (hminimal M ha.queued) (Nat.not_le.mpr (truncatedGoodness_lt_of_wait hcurr ?_))
    rw [measured_waitingInRQ s c hcurr, measured_waitingInRQ s c ha.queued]
    have hpred : ((s.measured h.queued c).tasks M).nextBurstPred = (s.tasks M).nextBurstPred := by
      simp [Sched.measured, Sched.rewait, Sched.bookedState, Sched.modify, hcM]
    rw [hpred]
    refine Nat.le_trans ?_ (ha.patience_le hclock)
    exact Nat.mul_le_mul_left 2 (Nat.mul_le_mul_left _ (by omega))
  have hidle : s.current ≠ some curr := by
    intro heq
    simp [Sched.waited, heq] at hlong
  refine ⟨fun heq => hidle (heq ▸ hc), ?_⟩
  rw [ha.metered.sound.toNat_waited hcurr hidle] at hlong
  have hnow : w.1.clock.toNat ≤ s.clock.toNat := UInt64.le_iff_toNat_le.mp ha.clock
  rw [UInt64.lt_iff_toNat_lt]
  omega

theorem ahead_dispatch (ha : Awaits seed M w (s, h)) {c curr : TaskAddr} (hc : s.current = some c)
    (hcurr : curr ∈ h.queued) (hne : curr ≠ M) (hcc : curr ≠ c)
    (hstamp : (s.tasks curr).lastRunOrInQueue < w.1.clock) (goodness : TaskAddr → UInt64) :
    (s.dispatch h.queued c curr goodness).ahead h.queued M w.1.clock <
      s.ahead h.queued M w.1.clock := by
  have hidle : s.current ≠ some curr := fun heq => hcc (Option.some.inj (heq.symm.trans hc))
  have hnow : w.1.clock.toNat ≤ s.clock.toNat := UInt64.le_iff_toNat_le.mp ha.clock
  refine countP_lt_countP (fun u _ => ?_) hcurr ?_ ?_
  · simp only [decide_eq_true_eq, dispatch_lastRunOrInQueue]
    rintro ⟨huM, hucurr, hustamp⟩
    by_cases huc : u = c
    · -- the task that loses the CPU is stamped with the clock
      rw [if_pos ⟨huc, hcc⟩, UInt64.lt_iff_toNat_lt, toNat_refreshed] at hustamp
      omega
    · rw [if_neg fun hand => huc hand.1] at hustamp
      exact ⟨huM, fun heq => huc (Option.some.inj (heq.symm.trans hc)), hustamp⟩
  · simp [hne, hidle, hstamp]
  · simp [Sched.dispatch]

theorem effect (ha : Awaits seed M w (s, h)) (he : Effect seed s h action s')
    (hschedule : action ≠ .schedule) (hkeep : action ≠ .deactivateTask M)
    (hmetered : Metered seed (s', h.record s action s')) (hclock : s.clock ≤ s'.clock) :
    Awaits seed M w (s', h.record s action s') ∧
      s'.ahead (h.record s action s').queued M w.1.clock ≤ s.ahead h.queued M w.1.clock := by
  have hqueued : M ∈ h.queued := ha.queued
  have hnow : w.1.clock ≤ s.clock := ha.clock
  have hlater : w.1.clock ≤ s'.clock := UInt64.le_trans hnow hclock
  cases he with
  | fork p hp =>
      have hother : ∀ u ∈ h.queued, (schedFork s p).tasks u = s.tasks u := by
        intro u hu
        have hup : u ≠ p := fun heq => hp (heq ▸ List.mem_cons_of_mem _ hu)
        simp [schedFork, Sched.modify_tasks, hup]
      refine ⟨⟨hmetered, hqueued, ha.idle, ?_, ?_, ha.waited, hlater⟩,
        ahead_mono rfl fun u hu => by rw [hother u hu]⟩
      · rw [hother M hqueued]
        exact ha.stamp
      · rw [hother M hqueued]
        exact ha.pred
  | insert action p next prev nrRunning haction hp hforked =>
      rw [record_insert haction] at hmetered ⊢
      have hother : ∀ u ∈ h.queued,
          (((Schedule.stamp (s.relink next prev) p).count nrRunning).tasks u).lastRunOrInQueue =
            (s.tasks u).lastRunOrInQueue := by
        intro u hu
        have hup : u ≠ p := fun heq => hp (heq ▸ List.mem_cons_of_mem _ hu)
        rw [Sched.count_tasks, stamp_relink_tasks]
        simp [hup]
      refine ⟨⟨hmetered, List.mem_cons_of_mem _ hqueued, ha.idle, ?_, ?_, ha.waited, hlater⟩, ?_⟩
      · rw [hother M hqueued]
        exact ha.stamp
      · rw [Sched.count_tasks, stamp_relink_tasks]
        exact ha.pred
      · -- the new arrival has been waiting since now
        have hnew : ¬ (((Schedule.stamp (s.relink next prev) p).count nrRunning).tasks
            p).lastRunOrInQueue < w.1.clock := by
          rw [Sched.count_tasks, stamp_relink_tasks, UInt64.lt_iff_toNat_lt]
          simp only [if_true, toNat_refreshed]
          have hle := UInt64.le_iff_toNat_le.mp hnow
          omega
        rw [Sched.ahead, History.insert, List.countP_cons_of_neg
          fun hcounted => hnew (of_decide_eq_true hcounted).2.2]
        exact ahead_mono rfl hother
  | remove p next prev nrRunning hp =>
      have hMp : M ≠ p := fun heq => hkeep (heq ▸ rfl)
      exact ⟨⟨hmetered, (List.mem_erase_of_ne hMp).mpr hqueued, ha.idle, ha.stamp, ha.pred,
        ha.waited, hlater⟩, List.erase_sublist.countP_le⟩
  | tick now hnow =>
      exact ⟨⟨hmetered, hqueued, ha.idle, ha.stamp, ha.pred, ha.waited, hlater⟩, Nat.le_refl _⟩
  | backToHead c hempty hc => exact absurd rfl hschedule
  | dispatch c curr goodness hcurr hc => exact absurd rfl hschedule

theorem dispatch (ha : Awaits seed M w (s, h)) {c curr : TaskAddr} (hc : s.current = some c)
    (hne : curr ≠ M) (goodness : TaskAddr → UInt64)
    (hmetered : Metered seed (s.dispatch h.queued c curr goodness,
      h.record s .schedule (s.dispatch h.queued c curr goodness))) :
    Awaits seed M w (s.dispatch h.queued c curr goodness,
      h.record s .schedule (s.dispatch h.queued c curr goodness)) := by
  have hMc : ¬ M = c := fun heq => ha.idle (heq ▸ hc)
  refine ⟨hmetered, ha.queued, fun heq => hne (Option.some.inj heq), ?_, ?_, ha.waited, ha.clock⟩
  · rw [dispatch_lastRunOrInQueue, if_neg fun hand => hMc hand.1]
    exact ha.stamp
  · rw [dispatch_nextBurstPred, if_neg fun hand => hMc hand.1]
    exact ha.pred

theorem step {w' : Watched} (ha : Awaits seed M w w') (hwithin : Within seed M w w' action) :
    ∃ w'', stepWatched w' action = .ok w'' ∧
      ((action == .schedule ∧ w''.1.current = some M) ∨
        (Awaits seed M w w'' ∧ w''.1.ahead w''.2.queued M w.1.clock +
          (if action == .schedule then 1 else 0) ≤ w'.1.ahead w'.2.queued M w.1.clock)) := by
  obtain ⟨s, h⟩ := w'
  obtain ⟨hlegal, hkeep, hsmall, hclock⟩ := hwithin
  by_cases hschedule : action = .schedule
  · subst action
    obtain ⟨c, hc, curr, hcurr, goodness, hok, hpassed⟩ := ha.picks hsmall hclock
    have hstep : stepWatched (s, h) .schedule = .ok (s.dispatch h.queued c curr goodness,
        h.record s .schedule (s.dispatch h.queued c curr goodness)) :=
      watch_eq_ok.mpr ⟨_, hok, rfl⟩
    refine ⟨_, hstep, ?_⟩
    by_cases hne : curr = M
    · subst curr
      exact Or.inl ⟨rfl, rfl⟩
    · obtain ⟨hcc, hstamp⟩ := hpassed hne
      refine Or.inr ⟨ha.dispatch hc hne goodness (ha.metered.step hlegal hstep), ?_⟩
      exact ha.ahead_dispatch hc hcurr hne hcc hstamp goodness
  · have hnow : s.clock ≤ action.clockAfter s.clock := hlegal.clock_le
    rcases effect_or_error ha.metered.sound hlegal with
      ⟨s', hok, heffect, hsound⟩ | ⟨⟨u, hu, hfull⟩, -⟩
    · refine ⟨_, hok, Or.inr ?_⟩
      rw [if_neg (by simpa using hschedule)]
      exact ha.effect heffect hschedule hkeep (ha.metered.step hlegal hok) (heffect.clock ▸ hnow)
    · have hlt := ha.metered.sound.waited_lt
        (UInt64.lt_of_le_of_lt hnow (UInt64.lt_trans hsmall (by decide))) hu
      rw [hfull] at hlt
      exact absurd hlt (UInt64.lt_irrefl _)

end Awaits

def longWait : List Action :=
  [.schedFork 1, .wakeUpNewTask 1, .schedule, .schedFork 2, .tick 1, .wakeUpNewTask 2, .tick 9]

end Ece318.Schedule
