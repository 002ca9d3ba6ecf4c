import Ece318.Schedule.Metering
import Ece318.Schedule.Waiting

/-!
# The other mode of `schedule`

The comment of `schedule` names a line to switch: `curr = getMinExpBurst()` in
place of `curr = getMinGoodness()`.  In that mode nothing is divided, so no legal run
stops, and a call has the same effects on the run queue.  But a task that is never
the one of least prediction never runs.
-/

namespace Ece318.Schedule

open Ece318.Foundation

/-- `schedule` with the line that picks `curr` left open. -/
def scheduleBy (pick : Sched → Except Fault (Sched × Option TaskAddr)) (s : Sched) :
    Except Fault Sched := do
  let current ← deref s.current
  if s.rq.nrRunning = 1 then
    let s := s.modify current fun t => { t with needReschedule := 0 }
    return contextSwitch s s.rq.head
  else
    let (s, tempBurstPred) := book s current
    let s ← updateWaitingInRQ s
    let (s, curr) ← pick s
    let curr ← deref curr
    let s := s.modify curr fun t => { t with timeStarted := s.clock }
    let s ← settle s current curr tempBurstPred
    return contextSwitch s (some curr)

theorem schedule_eq_scheduleBy : schedule = scheduleBy getMinGoodness := rfl

/-- `schedule` with `curr = getMinExpBurst();`. -/
def scheduleMinExpBurst (s : Sched) : Except Fault Sched :=
  scheduleBy (fun s => (getMinExpBurst s).map fun curr => (s, curr)) s

def stepMinExpBurst (s : Sched) : Action → Except Fault Sched
  | .schedule => scheduleMinExpBurst s
  | action => step s action

abbrev stepWatchedMinExpBurst : Watched → Action → Except Fault Watched :=
  watch stepMinExpBurst History.record

/-! ## The task that is picked -/

theorem ranks_lt : Ranks fun new old : UInt64 => new < old where
  trans := fun _ _ _ => UInt64.lt_trans
  of_not_better := fun _ _ _ hbc hac => UInt64.lt_of_lt_of_le hac (UInt64.not_lt.mp hbc)

section

variable {s : Sched} {seed c : TaskAddr} {cells : List TaskAddr}

theorem getMinExpBurst_first (h : Queued s seed cells) (hne : cells ≠ [])
    (hpred : ∀ u ∈ cells, (s.tasks u).nextBurstPred < ULLONG_MAX) :
    ∃ front curr back, cells = front ++ curr :: back ∧ getMinExpBurst s = .ok (some curr) ∧
      (∀ u ∈ front, (s.tasks curr).nextBurstPred < (s.tasks u).nextBurstPred) ∧
      ∀ u ∈ back, (s.tasks curr).nextBurstPred ≤ (s.tasks u).nextBurstPred := by
  obtain ⟨first, hfirst⟩ := List.exists_mem_of_ne_nil cells hne
  rcases foldl_keepBest_split (fun u => (s.tasks u).nextBurstPred) ranks_lt (ULLONG_MAX, none)
    cells with ⟨-, hnone⟩ | ⟨front, curr, back, hcells, heq, -, hfront, hback⟩
  · exact absurd (hpred first hfirst) (hnone first hfirst)
  · refine ⟨front, curr, back, hcells, ?_, hfront, fun u hu => UInt64.not_lt.mp (hback u hu)⟩
    rw [getMinExpBurst, scanQueued_eq _ _ h, heq]

theorem scheduleBy_measured (pick : Sched → Except Fault (Sched × Option TaskAddr))
    (h : Queued s seed cells) (hne : cells ≠ []) (hc : s.current = some c) :
    scheduleBy pick s = pick (s.measured cells c) >>= fun (state, curr) => do
      let curr ← deref curr
      let state := state.modify curr fun t => { t with timeStarted := state.clock }
      let state ← settle state c curr
        (if some c ≠ s.rq.head then some (s.tasks c).nextBurstPred else none)
      return contextSwitch state (some curr) := by
  have hlong : ¬ s.rq.nrRunning = 1 := by
    rw [h.nrRunning]
    simpa using hne
  have hbooked : book s c = (s.bookedState c,
    if some c ≠ s.rq.head then some (s.tasks c).nextBurstPred else none) := hc ▸ book_eq s c
  simp only [scheduleBy, hc, deref, bind, Except.bind, hlong, if_false, hbooked,
    updateWaitingInRQ_bookedState h c]

theorem measured_pred (s : Sched) (cells : List TaskAddr) (c u : TaskAddr) :
    ((s.measured cells c).tasks u).nextBurstPred = ((book s c).1.tasks u).nextBurstPred := by
  rw [book_eq]
  rfl

theorem regrade_measured (s : Sched) (cells : List TaskAddr) (c : TaskAddr) :
    (s.measured cells c).regrade (fun u => (s.tasks u).goodness) = s.measured cells c := by
  have hgoodness : (fun u => (s.tasks u).goodness) =
      fun u => ((s.measured cells c).tasks u).goodness :=
    funext fun u => (measured_goodness s cells c u).symm
  rw [hgoodness]
  rfl

theorem scheduleMinExpBurst_long (h : Queued s seed cells) (hne : cells ≠ [])
    (hc : s.current = some c) (hpred : ∀ u ∈ cells, (s.tasks u).nextBurstPred < ULLONG_MAX) :
    ∃ front curr back, cells = front ++ curr :: back ∧
      scheduleMinExpBurst s =
        .ok (s.dispatch cells c curr fun u => (s.tasks u).goodness) ∧
      (∀ u ∈ front, ((book s c).1.tasks curr).nextBurstPred <
        ((book s c).1.tasks u).nextBurstPred) ∧
      ∀ u ∈ back, ((book s c).1.tasks curr).nextBurstPred ≤
        ((book s c).1.tasks u).nextBurstPred := by
  obtain ⟨front, curr, back, hcells, hok, hfront, hback⟩ :=
    getMinExpBurst_first (measured_queued h c) hne
      fun u hu => measured_nextBurstPred_lt c (hpred u hu)
  simp only [measured_pred] at hfront hback
  refine ⟨front, curr, back, hcells, ?_, hfront, hback⟩
  have hcurr : curr ∈ cells := by simp [hcells]
  have hsettle := settle_eq h hne hc hcurr (s.tasks c).nextBurstPred
    (s.started cells c curr fun u => (s.tasks u).goodness) rfl rfl
  rw [scheduleMinExpBurst, scheduleBy_measured _ h hne hc, hok]
  simp only [Sched.started, regrade_measured, Except.map, bind, Except.bind, deref] at hsettle ⊢
  rw [hsettle]
  have hfinal := contextSwitch_started s cells c curr fun u => (s.tasks u).goodness
  simp only [Sched.started, regrade_measured] at hfinal
  exact congrArg Except.ok hfinal

theorem scheduleMinExpBurst_single {head : TaskAddr} (hone : s.rq.nrRunning = 1)
    (hhead : s.rq.head = some head) (hc : s.current = some c) :
    scheduleMinExpBurst s = .ok (s.backToHead c head) := by
  rw [scheduleMinExpBurst, scheduleBy, hc, Sched.backToHead, ← hhead]
  exact if_pos hone

end

/-! ## Runs -/

section

variable {seed : TaskAddr} {s : Sched} {h : History} {action : Action}

theorem Sound.minExpBurst_cases (hs : Sound seed (s, h)) :
    ∃ c, s.current = some c ∧
      ((h.queued = [] ∧ scheduleMinExpBurst s = .ok (s.backToHead c seed)) ∨
        ∃ front curr back, h.queued = front ++ curr :: back ∧
          scheduleMinExpBurst s =
            .ok (s.dispatch h.queued c curr fun u => (s.tasks u).goodness) ∧
          (∀ u ∈ front, ((book s c).1.tasks curr).nextBurstPred <
            ((book s c).1.tasks u).nextBurstPred) ∧
          ∀ u ∈ back, ((book s c).1.tasks curr).nextBurstPred ≤
            ((book s c).1.tasks u).nextBurstPred) := by
  obtain ⟨c, hc, -⟩ := hs.current
  refine ⟨c, hc, ?_⟩
  have hqueued : Queued s seed h.queued := hs.queued
  by_cases hempty : h.queued = []
  · have hone : s.rq.nrRunning = 1 := by
      rw [hqueued.nrRunning]
      simp [hempty]
    exact Or.inl ⟨hempty, scheduleMinExpBurst_single hone hqueued.head hc⟩
  · exact Or.inr (scheduleMinExpBurst_long hqueued hempty hc
      fun u hu => hs.pred u (hs.forked u hu))

theorem minExpBurst_effect (hs : Sound seed (s, h)) (hlegal : Legal seed (s, h) action) :
    ∃ s', stepWatchedMinExpBurst (s, h) action = .ok (s', h.record s action s') ∧
      Effect seed s h action s' ∧ Sound seed (s', h.record s action s') := by
  cases action with
  | schedFork p => exact ⟨_, rfl, .fork p hlegal, hs.schedFork hlegal⟩
  | wakeUpNewTask p =>
      obtain ⟨next, prev, nrRunning, hok, hsound⟩ := hs.enqueue hlegal.1 hlegal.2
      exact ⟨_, watch_eq_ok.mpr ⟨_, hok, rfl⟩,
        .insert _ p next prev nrRunning (Or.inl rfl) hlegal.1 hlegal.2, hsound⟩
  | activateTask p =>
      obtain ⟨next, prev, nrRunning, hok, hsound⟩ := hs.enqueue hlegal.1 hlegal.2
      exact ⟨_, watch_eq_ok.mpr ⟨_, hok, rfl⟩,
        .insert _ p next prev nrRunning (Or.inr rfl) hlegal.1 hlegal.2, hsound⟩
  | deactivateTask p =>
      obtain ⟨next, prev, nrRunning, hok, hsound⟩ := hs.deactivateTask hlegal
      exact ⟨_, watch_eq_ok.mpr ⟨_, hok, rfl⟩, .remove p next prev nrRunning hlegal, hsound⟩
  | tick now => exact ⟨_, rfl, .tick now hlegal, hs.tick hlegal⟩
  | schedule =>
      obtain ⟨c, hc, ⟨hempty, hok⟩ | ⟨front, curr, back, hqueued, hok, -⟩⟩ :=
        hs.minExpBurst_cases
      · exact ⟨_, watch_eq_ok.mpr ⟨_, hok, rfl⟩, .backToHead c hempty hc, hs.backToHead c⟩
      · have hcurr : curr ∈ h.queued := by simp [hqueued]
        exact ⟨_, watch_eq_ok.mpr ⟨_, hok, rfl⟩, .dispatch c curr _ hcurr hc,
          hs.dispatch c hcurr _⟩

variable {M : TaskAddr} {w w' : Watched}

/-- A task nearer to the head has no greater prediction. -/
def Outranked (M : TaskAddr) (w : Watched) : Prop :=
  ∃ c front back, w.1.current = some c ∧ w.2.queued = front ++ M :: back ∧
    ∃ u ∈ front,
      ((book w.1 c).1.tasks u).nextBurstPred ≤ ((book w.1 c).1.tasks M).nextBurstPred

def Overtakes (seed M : TaskAddr) (w : Watched) (action : Action) : Prop :=
  Legal seed w action ∧ action ≠ .deactivateTask M ∧ (action = .schedule → Outranked M w)

theorem overtaken_step (hs : Sound seed w) (hM : M ∈ w.2.queued) (hidle : w.1.current ≠ some M)
    (hover : Overtakes seed M w action) (hok : stepWatchedMinExpBurst w action = .ok w') :
    Sound seed w' ∧ M ∈ w'.2.queued ∧ w'.1.current ≠ some M := by
  obtain ⟨s, h⟩ := w
  obtain ⟨hlegal, hkeep, houtranked⟩ := hover
  have hMh : M ∈ h.queued := hM
  obtain ⟨s', hok', heffect, hsound⟩ := minExpBurst_effect hs hlegal
  obtain rfl := Except.ok.inj (hok'.symm.trans hok)
  refine ⟨hsound, ?_⟩
  by_cases hschedule : action = .schedule
  · subst action
    refine ⟨hM, ?_⟩
    obtain ⟨c, front, back, hc, hsplit, u, hu, hle⟩ := houtranked rfl
    obtain ⟨c', hc', ⟨hempty, -⟩ | ⟨front', curr, back', hsplit', hpick, hfirst, -⟩⟩ :=
      hs.minExpBurst_cases
    · simp [hempty] at hMh
    · obtain rfl : c = c' := Option.some.inj (hc.symm.trans hc')
      obtain ⟨s'', hcall, hpair⟩ := watch_eq_ok.mp hok'
      obtain rfl := Except.ok.inj (hpick.symm.trans hcall)
      obtain rfl := (Prod.mk.inj hpair).1
      intro heq
      obtain rfl : curr = M := Option.some.inj heq
      -- the queue has no task twice, so `u` stands before the task that was picked
      have hnodup := (List.nodup_cons.mp hs.queued.ring.nodup).2
      have hboth : front ++ curr :: back = front' ++ curr :: back' := hsplit.symm.trans hsplit'
      have hnotin : curr ∉ front ∧ curr ∉ back := by
        have hcells : (front ++ curr :: back).Nodup := hsplit ▸ hnodup
        simp only [List.nodup_append, List.nodup_cons, List.mem_cons] at hcells
        exact ⟨fun hmem => hcells.2.2 curr hmem curr (Or.inl rfl) rfl, hcells.2.1.1⟩
      obtain ⟨rfl, -, -⟩ := (List.append_cons_inj_of_notMem hnotin.1 hnotin.2).mp hboth
      exact absurd (hfirst u hu) (UInt64.not_lt.mpr hle)
  · cases heffect with
    | insert action p next prev nrRunning haction hp hforked =>
        rw [record_insert haction]
        exact ⟨List.mem_cons_of_mem _ hMh, hidle⟩
    | remove p next prev nrRunning hp =>
        have hMp : M ≠ p := fun heq => hkeep (heq ▸ rfl)
        exact ⟨(List.mem_erase_of_ne hMp).mpr hMh, hidle⟩
    | backToHead c hempty hc => exact absurd rfl hschedule
    | dispatch c curr goodness hcurr hc => exact absurd rfl hschedule
    | _ => exact ⟨hM, hidle⟩

/-- A new task comes, gets the CPU at the given clock and goes. -/
def visit (arrival : TaskAddr × UInt64) : List Action :=
  [.schedFork arrival.1, .wakeUpNewTask arrival.1, .tick arrival.2, .schedule,
    .deactivateTask arrival.1]

theorem arrival_run {p : TaskAddr} {now : UInt64} (hs : Sound seed (s, h))
    (hp : p ∉ seed :: h.queued) (hnow : s.clock ≤ now) :
    Along stepWatchedMinExpBurst (Overtakes seed M) (s, h)
        [.schedFork p, .wakeUpNewTask p, .tick now] ∧
      ∃ w, run stepWatchedMinExpBurst (s, h) [.schedFork p, .wakeUpNewTask p, .tick now] = .ok w ∧
        Sound seed w ∧ w.2.queued = p :: h.queued ∧ (w.1.tasks p).nextBurstPred = 0 ∧
        w.1.current = s.current ∧ w.1.clock = now ∧ w.1.switches = s.switches := by
  have hfork : Legal seed (s, h) (.schedFork p) := hp
  obtain ⟨s₁, hok₁, heffect₁, hs₁⟩ := minExpBurst_effect hs hfork
  cases heffect₁ with
  | insert _ _ _ _ _ haction => simp at haction
  | fork =>
      have hwake : Legal seed (schedFork s p, h.record s (.schedFork p) (schedFork s p))
          (.wakeUpNewTask p) := ⟨hp, List.mem_cons_self⟩
      obtain ⟨s₂, hok₂, heffect₂, hs₂⟩ := minExpBurst_effect hs₁ hwake
      cases heffect₂ with
      | insert _ q next prev nrRunning haction =>
          obtain rfl : p = q := by simpa using haction
          refine ⟨?_, _, ?_, hs₂.tick hnow, rfl, ?_, rfl, rfl, rfl⟩
          · refine (along_cons hok₁).mpr ⟨⟨hfork, by simp, by simp⟩, (along_cons hok₂).mpr
              ⟨⟨hwake, by simp, by simp⟩, ⟨⟨hnow, by simp, by simp⟩, fun _ _ => trivial⟩⟩⟩
          · rw [run_cons _ hok₁, run_cons _ hok₂]
            rfl
          · simp [stamp_relink_tasks, schedFork, Sched.modify_tasks]

theorem newest_picked {p : TaskAddr} {rest : List TaskAddr} (hs : Sound seed (s, h))
    (hqueued : h.queued = p :: rest) (hidle : s.current ≠ some p)
    (hzero : (s.tasks p).nextBurstPred = 0) :
    ∃ s', stepWatchedMinExpBurst (s, h) .schedule = .ok (s', h.record s .schedule s') ∧
      Sound seed (s', h.record s .schedule s') ∧ s'.current = some p ∧ s'.clock = s.clock ∧
      s'.switches = s.switches ++ [some p] ∧ (M ∈ rest → Outranked M (s, h)) := by
  obtain ⟨c, hc, ⟨hempty, -⟩ | ⟨front, curr, back, hsplit, hok, hfirst, -⟩⟩ :=
    hs.minExpBurst_cases
  · simp [hempty] at hqueued
  · have hpc : p ≠ c := fun heq => hidle (heq ▸ hc)
    have hbooked : ((book s c).1.tasks p).nextBurstPred = 0 := by
      rw [book_eq, Sched.modify_tasks, if_neg hpc, hzero]
    have hcurr : curr = p := by
      rw [hqueued] at hsplit
      cases front with
      | nil => exact (List.cons.inj hsplit).1.symm
      | cons u front =>
          obtain rfl : p = u := (List.cons.inj hsplit).1
          have hlt := hfirst p List.mem_cons_self
          rw [hbooked] at hlt
          exact absurd hlt (UInt64.not_lt.mpr UInt64.zero_le)
    subst curr
    have hmem : p ∈ h.queued := by simp [hqueued]
    refine ⟨_, watch_eq_ok.mpr ⟨_, hok, rfl⟩, hs.dispatch c hmem _, rfl, rfl, rfl, ?_⟩
    intro hM
    obtain ⟨front, back, rfl⟩ := List.append_of_mem hM
    refine ⟨c, p :: front, back, hc, hqueued, p, List.mem_cons_self, ?_⟩
    rw [hbooked]
    exact UInt64.zero_le

theorem visit_run {p : TaskAddr} {now : UInt64} (hs : Sound seed w) (hM : M ∈ w.2.queued)
    (hp : p ∉ seed :: w.2.queued) (hidle : w.1.current ≠ some p) (hnow : w.1.clock ≤ now) :
    Along stepWatchedMinExpBurst (Overtakes seed M) w (visit (p, now)) ∧
      ∃ w', run stepWatchedMinExpBurst w (visit (p, now)) = .ok w' ∧ Sound seed w' ∧
        w'.2.queued = w.2.queued ∧ w'.1.current = some p ∧ w'.1.clock = now ∧
        w'.1.switches = w.1.switches ++ [some p] := by
  obtain ⟨harrival, ⟨s₁, h₁⟩, hrun, hs₁, hqueued, hzero, hcurrent, hclock, hswitches⟩ :=
    arrival_run (M := M) hs hp hnow
  obtain ⟨s₂, hok, hs₂, hcurrent₂, hclock₂, hswitches₂, houtranked⟩ :=
    newest_picked (M := M) hs₁ hqueued (hcurrent ▸ hidle) hzero
  have hmem : p ∈ (h₁.record s₁ .schedule s₂).queued := by
    change p ∈ h₁.queued
    simp [show h₁.queued = p :: w.2.queued from hqueued]
  have hleave : Legal seed (s₂, h₁.record s₁ .schedule s₂) (.deactivateTask p) := hmem
  obtain ⟨s₃, hok₃, heffect, hs₃⟩ := minExpBurst_effect hs₂ hleave
  have hMp : p ≠ M := fun heq => hp (heq ▸ List.mem_cons_of_mem _ hM)
  cases heffect with
  | insert _ _ _ _ _ haction => simp at haction
  | remove _ next prev nrRunning =>
      constructor
      · have hlast : Along stepWatchedMinExpBurst (Overtakes seed M) (s₁, h₁)
            [.schedule, .deactivateTask p] :=
          (along_cons hok).mpr ⟨⟨trivial, by simp, fun _ => houtranked hM⟩,
            (along_cons hok₃).mpr ⟨⟨hleave, by simpa using hMp, by simp⟩, trivial⟩⟩
        exact (along_append hrun).mpr ⟨harrival, hlast⟩
      · refine ⟨_, ?_, hs₃, ?_, hcurrent₂, hclock₂.trans hclock, hswitches₂.trans ?_⟩
        · refine (run_append [.schedule, .deactivateTask p] hrun).trans ?_
          rw [run_cons _ hok, run_cons _ hok₃]
          rfl
        · change h₁.queued.erase p = w.2.queued
          rw [show h₁.queued = p :: w.2.queued from hqueued, List.erase_cons_head]
        · rw [hswitches]

def Arrives (seed : TaskAddr) (w : Watched) (arrivals : List (TaskAddr × UInt64)) : Prop :=
  (∀ arrival ∈ arrivals, arrival.1 ∉ seed :: w.2.queued) ∧
    List.IsChain (· ≠ ·) (w.1.current :: arrivals.map fun arrival => some arrival.1) ∧
    List.IsChain (· ≤ ·) (w.1.clock :: arrivals.map Prod.snd)

theorem visits_run {arrivals : List (TaskAddr × UInt64)} (hs : Sound seed w)
    (hM : M ∈ w.2.queued) (harrives : Arrives seed w arrivals) :
    Along stepWatchedMinExpBurst (Overtakes seed M) w (arrivals.flatMap visit) ∧
      ∃ w', run stepWatchedMinExpBurst w (arrivals.flatMap visit) = .ok w' ∧
        w'.1.switches = w.1.switches ++ arrivals.map fun arrival => some arrival.1 := by
  induction arrivals generalizing w with
  | nil => exact ⟨trivial, w, rfl, by simp⟩
  | cons arrival arrivals ih =>
      obtain ⟨p, now⟩ := arrival
      obtain ⟨hnew, hother, htime⟩ := harrives
      rw [List.map_cons, List.isChain_cons_cons] at hother htime
      obtain ⟨halong, w₁, hrun, hs₁, hqueued, hcurrent, hclock, hswitches⟩ :=
        visit_run hs hM (hnew _ List.mem_cons_self) hother.1 htime.1
      have harrives₁ : Arrives seed w₁ arrivals := by
        refine ⟨?_, ?_, ?_⟩
        · rw [hqueued]
          exact fun arrival harrival => hnew arrival (List.mem_cons_of_mem _ harrival)
        · rw [hcurrent]
          exact hother.2
        · rw [hclock]
          exact htime.2
      obtain ⟨halong', w', hrun', hswitches'⟩ := ih hs₁ (hqueued ▸ hM) harrives₁
      refine ⟨(along_append hrun).mpr ⟨halong, halong'⟩, w', ?_, ?_⟩
      · rw [List.flatMap_cons, run_append _ hrun, hrun']
      · rw [hswitches', hswitches, List.append_assoc]
        rfl

/--
In this mode nothing bounds a wait: however many new tasks come one after the other
and at whatever times, each is given the CPU when it comes, and a task that was
queued before them never is.
-/
theorem minExpBurst_starves (s₀ : Sched) (seed : TaskAddr) {M : TaskAddr}
    {before : List Action} {w : Watched} {arrivals : List (TaskAddr × UInt64)}
    (hlegal : Along stepWatchedMinExpBurst (Legal seed) (start s₀ seed) before)
    (hrun : run stepWatchedMinExpBurst (start s₀ seed) before = .ok w)
    (hqueued : M ∈ w.2.queued) (hidle : w.1.current ≠ some M)
    (harrives : Arrives seed w arrivals) :
    (∃ w', run stepWatchedMinExpBurst w (arrivals.flatMap visit) = .ok w' ∧
        w'.1.switches = w.1.switches ++ arrivals.map fun arrival => some arrival.1) ∧
      ∀ first second, arrivals.flatMap visit = first ++ second →
        ∃ w', run stepWatchedMinExpBurst w first = .ok w' ∧ M ∈ w'.2.queued ∧
          w'.1.current ≠ some M := by
  have hs : Sound seed w := by
    refine run_preserves (Sound seed) ?_ (Sound.start s₀ seed) hlegal hrun
    rintro ⟨s, h⟩ action w' hs hlegal hok
    obtain ⟨s', hok', -, hsound⟩ := minExpBurst_effect hs hlegal
    obtain rfl := Except.ok.inj (hok'.symm.trans hok)
    exact hsound
  obtain ⟨halong, hvisits⟩ := visits_run hs hqueued harrives
  refine ⟨hvisits, ?_⟩
  intro first second heq
  rw [heq] at halong
  obtain ⟨w', hrun', -, hM', hidle'⟩ := run_invariant
    (fun w => Sound seed w ∧ M ∈ w.2.queued ∧ w.1.current ≠ some M)
    (fun w action hw hover => by
      obtain ⟨s', hok, -, -⟩ := minExpBurst_effect hw.1 hover.1
      exact ⟨_, hok, overtaken_step hw.1 hw.2.1 hw.2.2 hover hok⟩)
    ⟨hs, hqueued, hidle⟩ halong.of_append
  exact ⟨w', hrun', hM', hidle'⟩

end

def oneWaiting : List Action :=
  [.schedFork 2, .wakeUpNewTask 2, .schedFork 1, .wakeUpNewTask 1, .schedule]

theorem minExpBurst_starves_oneWaiting :
    ∃ w, run stepWatchedMinExpBurst (start blank 0) oneWaiting = .ok w ∧
      (∃ w', run stepWatchedMinExpBurst w ([(3, 5), (4, 9)].flatMap visit) = .ok w' ∧
        w'.1.switches = w.1.switches ++ [some 3, some 4]) ∧
      ∀ first second, [(3, 5), (4, 9)].flatMap visit = first ++ second →
        ∃ w', run stepWatchedMinExpBurst w first = .ok w' ∧ 2 ∈ w'.2.queued ∧
          w'.1.current ≠ some 2 :=
  have hlegal : Along stepWatchedMinExpBurst (Legal 0) (start blank 0) oneWaiting := by decide
  ⟨_, rfl, minExpBurst_starves blank 0 hlegal rfl (by decide) (by decide)
    ⟨by decide, by decide, by decide⟩⟩

end Ece318.Schedule
