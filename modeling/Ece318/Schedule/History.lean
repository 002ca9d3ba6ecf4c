import Ece318.Schedule.Dispatch

/-!
# Histories of the scheduler

The virtual machine calls the scheduler in any order that links only tasks that
are not queued and unlinks only queued ones.  Beside the state runs a history of
what was called when.  `Sound` is what every such run keeps.
-/

namespace Ece318.Schedule

open Ece318.Foundation

inductive Action where
  | schedFork (p : TaskAddr)
  | wakeUpNewTask (p : TaskAddr)
  | activateTask (p : TaskAddr)
  | deactivateTask (p : TaskAddr)
  | tick (now : UInt64)
  | schedule
  deriving DecidableEq, Repr

def step (s : Sched) : Action → Except Fault Sched
  | .schedFork p => .ok (schedFork s p)
  | .wakeUpNewTask p => wakeUpNewTask s p
  | .activateTask p => activateTask s p
  | .deactivateTask p => deactivateTask s p
  | .tick now => .ok { s with clock := now }
  | .schedule => schedule s

/-- What was called, and when.  The seed is queued from the start and not listed. -/
structure History where
  queued : List TaskAddr
  removed : List TaskAddr
  forked : List TaskAddr
  forkedAt : TaskAddr → UInt64
  insertedAt : TaskAddr → UInt64
  lostCpuAt : TaskAddr → UInt64

namespace History

def empty : History :=
  { queued := [], removed := [], forked := [],
    forkedAt := fun _ => 0, insertedAt := fun _ => 0, lostCpuAt := fun _ => 0 }

def insert (h : History) (p : TaskAddr) (now : UInt64) : History :=
  { h with
    queued := p :: h.queued
    removed := h.removed.filter (· ≠ p)
    insertedAt := Function.update h.insertedAt p now }

def remove (h : History) (p : TaskAddr) : History :=
  { h with queued := h.queued.erase p, removed := p :: h.removed }

def record (h : History) (s : Sched) : Action → Sched → History
  | .schedFork p, _ =>
      { h with forked := p :: h.forked, forkedAt := Function.update h.forkedAt p s.clock }
  | .wakeUpNewTask p, _ => h.insert p s.clock
  | .activateTask p, _ => h.insert p s.clock
  | .deactivateTask p, _ => h.remove p
  | .tick _, _ => h
  | .schedule, s' =>
      { h with
        lostCpuAt := fun p =>
          if s.current = some p ∧ s'.current ≠ some p then s.clock else h.lostCpuAt p }

end History

abbrev Watched := Sched × History

abbrev stepWatched : Watched → Action → Except Fault Watched := watch step History.record

/-- The start: `initschedule` on a zeroed run queue. -/
def start (s : Sched) (seed : TaskAddr) : Watched := (boot s seed, History.empty)

def blank : Sched where
  tasks := fun _ =>
    { timeSlice := 0, needReschedule := 0, prev := none, next := none, lastBurstTime := 0,
      nextBurstPred := 0, lastRunOrInQueue := 0, waitingInRQ := 0, timeStarted := 0,
      goodness := 0, totalProcessingTime := 0, totalWaitingTime := 0, totalExecutionTime := 0 }
  rq := { nrRunning := 0, head := none }
  current := none
  clock := 0
  switches := []

def twoTasks : List Action :=
  [.schedFork 1, .wakeUpNewTask 1, .schedFork 2, .tick 3, .wakeUpNewTask 2, .tick 5, .schedule,
    .tick 9, .deactivateTask 1]

/-- Which calls the virtual machine may make. -/
def Legal (seed : TaskAddr) : Watched → Action → Prop
  | (_, h), .schedFork p => p ∉ seed :: h.queued
  | (_, h), .wakeUpNewTask p => p ∉ seed :: h.queued ∧ p ∈ h.forked
  | (_, h), .activateTask p => p ∉ seed :: h.queued ∧ p ∈ h.forked
  | (_, h), .deactivateTask p => p ∈ h.queued
  | (s, _), .tick now => s.clock ≤ now
  | _, .schedule => True

instance (seed : TaskAddr) : ∀ w action, Decidable (Legal seed w action)
  | (_, h), .schedFork p => inferInstanceAs (Decidable (p ∉ seed :: h.queued))
  | (_, h), .wakeUpNewTask p => inferInstanceAs (Decidable (p ∉ seed :: h.queued ∧ p ∈ h.forked))
  | (_, h), .activateTask p => inferInstanceAs (Decidable (p ∉ seed :: h.queued ∧ p ∈ h.forked))
  | (_, h), .deactivateTask p => inferInstanceAs (Decidable (p ∈ h.queued))
  | (s, _), .tick now => inferInstanceAs (Decidable (s.clock ≤ now))
  | _, .schedule => .isTrue trivial

/-! ## What every run keeps -/

/-- The ring of the queued tasks, and nothing left in the links of a removed one. -/
structure Unlinked (seed : TaskAddr) (w : Watched) : Prop where
  queued : Queued w.1 seed w.2.queued
  removed : ∀ p ∈ w.2.removed,
    p ∉ seed :: w.2.queued ∧ w.1.next p = none ∧ w.1.prev p = none

namespace Unlinked

variable {seed : TaskAddr} {s s' : Sched} {h h' : History}

theorem start (s : Sched) (seed : TaskAddr) : Unlinked seed (start s seed) :=
  ⟨Queued.boot s seed, by simp [Schedule.start, History.empty]⟩

theorem congr (hu : Unlinked seed (s, h)) (hrq : s'.rq = s.rq) (hnext : s'.next = s.next)
    (hprev : s'.prev = s.prev) (hqueued : h'.queued = h.queued)
    (hremoved : h'.removed = h.removed) : Unlinked seed (s', h') where
  queued := by
    rw [hqueued]
    exact hu.queued.congr hrq hnext hprev
  removed := by
    simp only [hqueued, hremoved, hnext, hprev]
    exact hu.removed

theorem enqueue (hu : Unlinked seed (s, h)) {p : TaskAddr} (hp : p ∉ seed :: h.queued) :
    ∃ next prev nrRunning,
      enqueue s p = .ok ((stamp (s.relink next prev) p).count nrRunning) ∧
      Unlinked seed ((stamp (s.relink next prev) p).count nrRunning, h.insert p s.clock) := by
  obtain ⟨next, prev, hok, hqueued, hframe⟩ := hu.queued.enqueue hp
  refine ⟨next, prev, _, hok, hqueued, ?_⟩
  intro q hq
  obtain ⟨hq, hqp⟩ : q ∈ h.removed ∧ q ≠ p := by simpa [History.insert] using hq
  obtain ⟨hnotin, hnext, hprev⟩ := hu.removed q hq
  have hnotin' : q ∉ seed :: p :: h.queued := by simp_all
  obtain ⟨hnext', hprev'⟩ := hframe q hnotin'
  refine ⟨by simpa [History.insert] using hnotin', ?_, ?_⟩
  · simp [hnext', hnext]
  · simp [hprev', hprev]

theorem deactivateTask (hu : Unlinked seed (s, h)) {p : TaskAddr} (hp : p ∈ h.queued) :
    ∃ next prev nrRunning,
      deactivateTask s p = .ok ((s.relink next prev).count nrRunning) ∧
      Unlinked seed ((s.relink next prev).count nrRunning, h.remove p) := by
  obtain ⟨next, prev, hok, hqueued, hlinks, hframe⟩ := hu.queued.deactivateTask hp
  refine ⟨next, prev, _, hok, hqueued, ?_⟩
  intro q hq
  obtain ⟨hseed, hnodup⟩ := List.nodup_cons.mp hu.queued.ring.nodup
  rcases List.mem_cons.mp hq with rfl | hq
  · refine ⟨?_, hlinks⟩
    have hne : q ≠ seed := fun heq => hseed (heq ▸ hp)
    simpa [History.remove, hne] using hnodup.not_mem_erase
  · obtain ⟨hnotin, hnext, hprev⟩ := hu.removed q hq
    obtain ⟨hnext', hprev'⟩ := hframe q hnotin
    refine ⟨?_, hnext'.trans hnext, hprev'.trans hprev⟩
    intro hmem
    apply hnotin
    rcases List.mem_cons.mp hmem with rfl | hmem
    · exact List.mem_cons_self
    · exact List.mem_cons_of_mem _ (List.mem_of_mem_erase hmem)

end Unlinked

structure Sound (seed : TaskAddr) (w : Watched) : Prop extends Unlinked seed w where
  forked : ∀ p ∈ w.2.queued, p ∈ w.2.forked
  seed_notForked : seed ∉ w.2.forked
  current : ∃ c, w.1.current = some c ∧ c ∈ seed :: w.2.forked
  pred : ∀ p ∈ w.2.forked, (w.1.tasks p).nextBurstPred < ULLONG_MAX
  stamped : ∀ p ∈ w.2.forked, (w.1.tasks p).lastRunOrInQueue.toNat ≤ w.1.clock.toNat

namespace Sound

variable {seed : TaskAddr} {s s' : Sched} {h : History}

theorem start (s : Sched) (seed : TaskAddr) : Sound seed (start s seed) where
  toUnlinked := Unlinked.start s seed
  forked := by simp [Schedule.start, History.empty]
  seed_notForked := by simp [Schedule.start, History.empty]
  current := ⟨seed, rfl, List.mem_cons_self⟩
  pred := by simp [Schedule.start, History.empty]
  stamped := by simp [Schedule.start, History.empty]

theorem schedFork (hs : Sound seed (s, h)) {p : TaskAddr} (hp : p ∉ seed :: h.queued) :
    Sound seed (schedFork s p, h.record s (.schedFork p) (schedFork s p)) where
  toUnlinked := hs.toUnlinked.congr rfl (schedFork_next s p) (schedFork_prev s p) rfl rfl
  forked := fun q hq => List.mem_cons_of_mem _ (hs.forked q hq)
  seed_notForked := by
    have hne : seed ≠ p := fun heq => hp (by simp [heq])
    simp [History.record, hne, hs.seed_notForked]
  current := by
    obtain ⟨c, hc, hmem⟩ := hs.current
    refine ⟨c, hc, ?_⟩
    rcases List.mem_cons.mp hmem with rfl | hmem
    · exact List.mem_cons_self
    · exact List.mem_cons_of_mem _ (List.mem_cons_of_mem _ hmem)
  pred := by
    intro q hq
    by_cases hqp : q = p
    · simp [Schedule.schedFork, Sched.modify_tasks, hqp]
      decide
    · have hold := hs.pred q (by simpa [History.record, hqp] using hq)
      simpa [Schedule.schedFork, Sched.modify_tasks, hqp] using hold
  stamped := by
    intro q hq
    by_cases hqp : q = p
    · simp [Schedule.schedFork, Sched.modify_tasks, hqp]
    · have hold := hs.stamped q (by simpa [History.record, hqp] using hq)
      simpa [Schedule.schedFork, Sched.modify_tasks, hqp] using hold

theorem enqueue (hs : Sound seed (s, h)) {p : TaskAddr} (hp : p ∉ seed :: h.queued)
    (hforked : p ∈ h.forked) :
    ∃ next prev nrRunning,
      enqueue s p = .ok ((stamp (s.relink next prev) p).count nrRunning) ∧
      Sound seed ((stamp (s.relink next prev) p).count nrRunning, h.insert p s.clock) := by
  obtain ⟨next, prev, nrRunning, hok, hunlinked⟩ := hs.toUnlinked.enqueue hp
  refine ⟨next, prev, nrRunning, hok, hunlinked, ?_, hs.seed_notForked, hs.current, ?_, ?_⟩
  · intro q hq
    rcases List.mem_cons.mp hq with rfl | hq
    · exact hforked
    · exact hs.forked q hq
  · intro q hq
    rw [Sched.count_tasks, stamp_relink_tasks]
    exact hs.pred q hq
  · intro q hq
    have hold := hs.stamped q hq
    rw [Sched.count_tasks, stamp_relink_tasks]
    by_cases hqp : q = p
    · subst q
      simp only [if_true, toNat_refreshed]
      exact Nat.max_le.mpr ⟨Nat.le_refl _, hold⟩
    · simpa [hqp, stamp] using hold

theorem deactivateTask (hs : Sound seed (s, h)) {p : TaskAddr} (hp : p ∈ h.queued) :
    ∃ next prev nrRunning,
      deactivateTask s p = .ok ((s.relink next prev).count nrRunning) ∧
      Sound seed ((s.relink next prev).count nrRunning, h.remove p) := by
  obtain ⟨next, prev, nrRunning, hok, hunlinked⟩ := hs.toUnlinked.deactivateTask hp
  refine ⟨next, prev, nrRunning, hok, hunlinked, ?_, hs.seed_notForked, hs.current, hs.pred,
    hs.stamped⟩
  intro q hq
  exact hs.forked q (List.mem_of_mem_erase hq)

theorem tick (hs : Sound seed (s, h)) {now : UInt64} (hnow : s.clock ≤ now) :
    Sound seed ({ s with clock := now }, h) where
  toUnlinked := hs.toUnlinked.congr rfl rfl rfl rfl rfl
  forked := hs.forked
  seed_notForked := hs.seed_notForked
  current := hs.current
  pred := hs.pred
  stamped := fun q hq => Nat.le_trans (hs.stamped q hq) (UInt64.le_iff_toNat_le.mp hnow)

/-! ### `schedule` -/

theorem waited_lt (hs : Sound seed (s, h)) (hclock : s.clock < ULLONG_MAX) {u : TaskAddr}
    (hu : u ∈ h.queued) : s.waited u < ULLONG_MAX := by
  have hstamp : (s.tasks u).lastRunOrInQueue.toNat ≤ s.clock.toNat :=
    hs.stamped u (hs.forked u hu)
  rw [Sched.waited]
  split
  · decide
  · rw [UInt64.lt_iff_toNat_lt] at hclock ⊢
    rw [UInt64.toNat_sub_of_le _ _ (UInt64.le_iff_toNat_le.mpr hstamp)]
    omega

theorem schedule_cases (hs : Sound seed (s, h)) :
    ∃ c, s.current = some c ∧ c ∈ seed :: h.forked ∧
      ((h.queued = [] ∧ schedule s = .ok (s.backToHead c seed)) ∨
        ((∀ u ∈ h.queued, s.waited u < ULLONG_MAX) ∧ ∃ curr ∈ h.queued, ∃ goodness,
          schedule s = .ok (s.dispatch h.queued c curr goodness)) ∨
        ((∃ u ∈ h.queued, s.waited u = ULLONG_MAX) ∧ schedule s = .error .divByZero)) := by
  obtain ⟨c, hc, hmem⟩ := hs.current
  refine ⟨c, hc, hmem, ?_⟩
  have hpred : ∀ u ∈ h.queued, (s.tasks u).nextBurstPred < ULLONG_MAX :=
    fun u hu => hs.pred u (hs.forked u hu)
  by_cases hempty : h.queued = []
  · left
    have hone : s.rq.nrRunning = 1 := by
      rw [hs.queued.nrRunning]
      simp [hempty]
    exact ⟨hempty, schedule_single hone hs.queued.head hc⟩
  · right
    by_cases hwait : ∀ u ∈ h.queued, s.waited u < ULLONG_MAX
    · left
      obtain ⟨m, -, w, -, curr, hcurr, hok, -⟩ := schedule_long hs.queued hempty hc hpred hwait
      exact ⟨hwait, curr, hcurr, _, hok⟩
    · right
      push Not at hwait
      obtain ⟨u, hu, hfull⟩ := hwait
      have hmax : s.waited u = ULLONG_MAX := 
        UInt64.le_antisymm (le_ULLONG_MAX _) (UInt64.not_lt.mp hfull)
      exact ⟨⟨u, hu, hmax⟩, schedule_error hs.queued hc hpred ⟨u, hu, hmax⟩⟩

theorem backToHead (hs : Sound seed (s, h)) (c : TaskAddr) :
    Sound seed (s.backToHead c seed, h.record s .schedule s') where
  toUnlinked := hs.toUnlinked.congr rfl (backToHead_next ..) (backToHead_prev ..) rfl rfl
  forked := hs.forked
  seed_notForked := hs.seed_notForked
  current := ⟨seed, rfl, List.mem_cons_self⟩
  pred := by
    intro p hp
    rw [backToHead_tasks]
    exact hs.pred p hp
  stamped := by
    intro p hp
    rw [backToHead_tasks]
    exact hs.stamped p hp

theorem dispatch (hs : Sound seed (s, h)) (c : TaskAddr) {curr : TaskAddr}
    (hcurr : curr ∈ h.queued) (goodness : TaskAddr → UInt64) :
    Sound seed (s.dispatch h.queued c curr goodness, h.record s .schedule s') where
  toUnlinked := hs.toUnlinked.congr rfl (dispatch_next ..) (dispatch_prev ..) rfl rfl
  forked := hs.forked
  seed_notForked := hs.seed_notForked
  current := ⟨curr, rfl, List.mem_cons_of_mem _ (hs.forked curr hcurr)⟩
  pred := fun p hp => dispatch_nextBurstPred_lt _ _ _ _ _ _ (hs.pred p hp)
  stamped := by
    intro p hp
    have hold : (s.tasks p).lastRunOrInQueue.toNat ≤ s.clock.toNat := hs.stamped p hp
    rw [dispatch_lastRunOrInQueue]
    split
    · rw [toNat_refreshed]
      exact Nat.max_le.mpr ⟨Nat.le_refl _, hold⟩
    · exact hold

end Sound

/-! ### Steps and runs -/

/-- Everything a successful call can do to a sound state. -/
inductive Effect (seed : TaskAddr) (s : Sched) (h : History) : Action → Sched → Prop where
  | fork (p : TaskAddr) (hp : p ∉ seed :: h.queued) : Effect seed s h (.schedFork p) (schedFork s p)
  | insert (action : Action) (p : TaskAddr) (next prev : TaskAddr → Option TaskAddr)
      (nrRunning : Nat) (haction : action = .wakeUpNewTask p ∨ action = .activateTask p)
      (hp : p ∉ seed :: h.queued) (hforked : p ∈ h.forked) :
      Effect seed s h action ((stamp (s.relink next prev) p).count nrRunning)
  | remove (p : TaskAddr) (next prev : TaskAddr → Option TaskAddr) (nrRunning : Nat)
      (hp : p ∈ h.queued) :
      Effect seed s h (.deactivateTask p) ((s.relink next prev).count nrRunning)
  | tick (now : UInt64) (hnow : s.clock ≤ now) :
      Effect seed s h (.tick now) { s with clock := now }
  | backToHead (c : TaskAddr) (hempty : h.queued = []) (hc : s.current = some c) :
      Effect seed s h .schedule (s.backToHead c seed)
  | dispatch (c curr : TaskAddr) (goodness : TaskAddr → UInt64) (hcurr : curr ∈ h.queued)
      (hc : s.current = some c) : Effect seed s h .schedule (s.dispatch h.queued c curr goodness)

section

variable {seed : TaskAddr} {s s' : Sched} {h : History} {action : Action}

theorem record_insert {p : TaskAddr}
    (haction : action = .wakeUpNewTask p ∨ action = .activateTask p) :
    h.record s action s' = h.insert p s.clock := by
  rcases haction with rfl | rfl <;> rfl

def Action.clockAfter (action : Action) (clock : UInt64) : UInt64 :=
  match action with
  | .tick now => now
  | _ => clock

theorem Effect.clock (he : Effect seed s h action s') :
    s'.clock = action.clockAfter s.clock := by
  cases he with
  | insert action p next prev nrRunning haction =>
      rcases haction with rfl | rfl <;> rfl
  | _ => rfl

/-- A legal call has its effect and keeps the state sound, unless a wait is at `ULLONG_MAX`. -/
theorem effect_or_error (hs : Sound seed (s, h)) (hlegal : Legal seed (s, h) action) :
    (∃ s', stepWatched (s, h) action = .ok (s', h.record s action s') ∧
        Effect seed s h action s' ∧ Sound seed (s', h.record s action s')) ∨
      ((∃ u ∈ h.queued, s.waited u = ULLONG_MAX) ∧
        stepWatched (s, h) action = .error .divByZero) := by
  cases action with
  | schedFork p =>
      exact Or.inl ⟨_, rfl, .fork p hlegal, hs.schedFork hlegal⟩
  | wakeUpNewTask p =>
      obtain ⟨next, prev, nrRunning, hok, hsound⟩ := hs.enqueue hlegal.1 hlegal.2
      exact Or.inl ⟨_, watch_eq_ok.mpr ⟨_, hok, rfl⟩,
        .insert _ p next prev nrRunning (Or.inl rfl) hlegal.1 hlegal.2, hsound⟩
  | activateTask p =>
      obtain ⟨next, prev, nrRunning, hok, hsound⟩ := hs.enqueue hlegal.1 hlegal.2
      exact Or.inl ⟨_, watch_eq_ok.mpr ⟨_, hok, rfl⟩,
        .insert _ p next prev nrRunning (Or.inr rfl) hlegal.1 hlegal.2, hsound⟩
  | deactivateTask p =>
      obtain ⟨next, prev, nrRunning, hok, hsound⟩ := hs.deactivateTask hlegal
      exact Or.inl ⟨_, watch_eq_ok.mpr ⟨_, hok, rfl⟩,
        .remove p next prev nrRunning hlegal, hsound⟩
  | tick now =>
      exact Or.inl ⟨_, rfl, .tick now hlegal, hs.tick hlegal⟩
  | schedule =>
      obtain ⟨c, hc, -, ⟨hempty, hok⟩ | ⟨-, curr, hcurr, goodness, hok⟩ | ⟨hwait, hok⟩⟩ :=
        hs.schedule_cases
      · exact Or.inl ⟨_, watch_eq_ok.mpr ⟨_, hok, rfl⟩, .backToHead c hempty hc,
          hs.backToHead c⟩
      · exact Or.inl ⟨_, watch_eq_ok.mpr ⟨_, hok, rfl⟩, .dispatch c curr goodness hcurr hc,
          hs.dispatch c hcurr goodness⟩
      · refine Or.inr ⟨hwait, ?_⟩
        simp [watch, step, hok, Except.map]

theorem effect_of_ok {w : Watched} (hs : Sound seed (s, h)) (hlegal : Legal seed (s, h) action)
    (hok : stepWatched (s, h) action = .ok w) :
    ∃ s', w = (s', h.record s action s') ∧ Effect seed s h action s' ∧ Sound seed w := by
  rcases effect_or_error hs hlegal with ⟨next, hnext, heffect, hsound⟩ | ⟨-, herror⟩
  · obtain rfl := Except.ok.inj (hnext.symm.trans hok)
    exact ⟨next, rfl, heffect, hsound⟩
  · rw [herror] at hok
    cases hok

theorem sound_run {actions : List Action} {w w' : Watched} (hs : Sound seed w)
    (hlegal : Along stepWatched (Legal seed) w actions)
    (hrun : run stepWatched w actions = .ok w') : Sound seed w' := by
  refine run_preserves (Sound seed) ?_ hs hlegal hrun
  rintro ⟨s, h⟩ action w' hs hlegal hok
  obtain ⟨-, -, -, hsound⟩ := effect_of_ok hs hlegal hok
  exact hsound

end

end Ece318.Schedule
