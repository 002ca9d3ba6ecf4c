import Ece318.Foundation.Best
import Ece318.Foundation.Runs
import Ece318.Schedule.RunQueue

/-!
# The loops over the run queue

Four functions walk from `rq->head->next` until they are back at the head.  On a
ring each is a fold over the queued tasks other than the seed.
-/

namespace Ece318.Schedule

open Ece318.Foundation

def ULLONG_MAX : UInt64 := 0xffffffffffffffff

def divide (a b : UInt64) : Except Fault UInt64 :=
  if b = 0 then .error .divByZero else .ok (a / b)

/-- The loop header that the four functions share, around the body of each. -/
def eachQueued {β : Type} (body : Sched × β → TaskAddr → Except Fault (Sched × β)) (s : Sched)
    (locals : β) : Except Fault (Sched × β) := do
  let head ← deref s.rq.head
  visit (fun state => state.1.next) (fun state => state.1.rq.head) .nullDeref body
    s.rq.nrRunning (s.next head) (s, locals)

/-- One turn of the loop of `updateWaitingInRQ`. -/
def remeasure (state : Sched × Unit) (tempTask : TaskAddr) : Except Fault (Sched × Unit) :=
  let (s, locals) := state
  if some tempTask = s.current then
    .ok (s.modify tempTask fun t => { t with waitingInRQ := 0 }, locals)
  else
    .ok (s.modify tempTask fun t =>
      { t with waitingInRQ := s.clock - t.lastRunOrInQueue }, locals)

def updateWaitingInRQ (s : Sched) : Except Fault Sched := do
  let (s, _) ← eachQueued remeasure s ()
  return s

section

variable (better : UInt64 → UInt64 → Prop) [∀ new old, Decidable (better new old)]
  (key : TaskStruct → UInt64)

/-- One turn of a loop that keeps the task with the best `key`. -/
def select (state : Sched × UInt64 × Option TaskAddr) (tempTask : TaskAddr) :
    Except Fault (Sched × UInt64 × Option TaskAddr) :=
  .ok (state.1, keepBest better (fun task => key (state.1.tasks task)) state.2 tempTask)

def scanQueued (init : UInt64) (s : Sched) : Except Fault (Option TaskAddr) := do
  let (_, _, curr) ← eachQueued (select better key) s (init, none)
  return curr

end

def getMinExpBurst (s : Sched) : Except Fault (Option TaskAddr) :=
  scanQueued (· < ·) TaskStruct.nextBurstPred ULLONG_MAX s

def getMaxWaitingInRQ (s : Sched) : Except Fault (Option TaskAddr) :=
  scanQueued (· ≥ ·) TaskStruct.waitingInRQ 0 s

/-- One turn of the loop of `getMinGoodness`. -/
def weigh (state : Sched × UInt64 × Option TaskAddr) (tempTask : TaskAddr) :
    Except Fault (Sched × UInt64 × Option TaskAddr) := do
  let (s, best) := state
  let minBurstTask ← getMinExpBurst s
  let maxWaitingInRQTask ← getMaxWaitingInRQ s
  let minBurst ← deref minBurstTask
  let burst ← divide (1 + (s.tasks tempTask).nextBurstPred) (1 + (s.tasks minBurst).nextBurstPred)
  let maxWaiting ← deref maxWaitingInRQTask
  let waiting ← divide (1 + (s.tasks maxWaiting).waitingInRQ) (1 + (s.tasks tempTask).waitingInRQ)
  let tempGoodness := burst * waiting
  let s := s.modify tempTask fun t => { t with goodness := tempGoodness }
  return (s, keepBest (· ≤ ·) (fun _ => tempGoodness) best tempTask)

def getMinGoodness (s : Sched) : Except Fault (Sched × Option TaskAddr) := do
  let (s, _, curr) ← eachQueued weigh s (ULLONG_MAX, none)
  return (s, curr)

/-! ## The loops on a ring -/

section

variable {β : Type} {s : Sched} {seed : TaskAddr} {cells : List TaskAddr}

theorem eachQueued_eq (h : Queued s seed cells)
    {body : Sched × β → TaskAddr → Except Fault (Sched × β)}
    (hbody : ∀ state task state', body state task = .ok state' →
      state'.1.next = state.1.next ∧ state'.1.rq.head = state.1.rq.head) (locals : β) :
    eachQueued body s locals = cells.foldlM body (s, locals) := by
  have hlength : cells.length ≤ s.rq.nrRunning := by
    rw [h.nrRunning]
    omega
  rw [eachQueued, h.head]
  exact visit_linked hbody rfl h.ring.linked h.head h.seed_notMem hlength

theorem foldlM_update {σ : Type} {body : σ → TaskAddr → Except Fault σ}
    (build : (TaskAddr → UInt64) → β → σ) (value : TaskAddr → UInt64)
    (next : β → TaskAddr → β) (field : TaskAddr → UInt64) (locals : β)
    (hbody : ∀ field locals, ∀ task ∈ cells, body (build field locals) task =
      .ok (build (Function.update field task (value task)) (next locals task))) :
    cells.foldlM body (build field locals) =
      .ok (build (fun u => if u ∈ cells then value u else field u)
        (cells.foldl next locals)) := by
  induction cells generalizing field locals with
  | nil => simp [pure, Except.pure]
  | cons task cells ih =>
      rw [List.foldlM_cons, hbody _ _ task List.mem_cons_self]
      refine (ih _ _ fun f l t ht => hbody f l t (List.mem_cons_of_mem _ ht)).trans ?_
      rw [List.foldl_cons]
      congr 2
      funext u
      by_cases hu : u = task
      · subst u
        simp
      · simp [hu]

end

namespace Sched

def rewait (s : Sched) (waiting : TaskAddr → UInt64) : Sched :=
  { s with tasks := fun u => { s.tasks u with waitingInRQ := waiting u } }

def regrade (s : Sched) (goodness : TaskAddr → UInt64) : Sched :=
  { s with tasks := fun u => { s.tasks u with goodness := goodness u } }

/-- What `updateWaitingInRQ` stores in a queued task. -/
def waited (s : Sched) (task : TaskAddr) : UInt64 :=
  if some task = s.current then 0 else s.clock - (s.tasks task).lastRunOrInQueue

/-- The goodness of a task beside the tasks of least prediction and longest wait. -/
def goodnessOf (s : Sched) (minBurst maxWaiting task : TaskAddr) : UInt64 :=
  (1 + (s.tasks task).nextBurstPred) / (1 + (s.tasks minBurst).nextBurstPred) *
    ((1 + (s.tasks maxWaiting).waitingInRQ) / (1 + (s.tasks task).waitingInRQ))

theorem modify_waiting (s : Sched) (task : TaskAddr) (waiting : TaskStruct → UInt64) :
    (s.modify task fun t => { t with waitingInRQ := waiting t }) =
      s.rewait (Function.update (fun u => (s.tasks u).waitingInRQ) task
        (waiting (s.tasks task))) := by
  simp only [rewait, modify, Sched.mk.injEq, and_true]
  funext u
  by_cases hu : u = task
  · subst u
    simp
  · simp [hu]

theorem modify_goodness (s : Sched) (task : TaskAddr) (goodness : UInt64) :
    (s.modify task fun t => { t with goodness := goodness }) =
      s.regrade (Function.update (fun u => (s.tasks u).goodness) task goodness) := by
  simp only [regrade, modify, Sched.mk.injEq, and_true]
  funext u
  by_cases hu : u = task
  · subst u
    simp
  · simp [hu]

end Sched

theorem improves_lt : Improves (fun new old : UInt64 => new < old) (· ≤ ·) where
  refl := UInt64.le_refl
  trans := fun _ _ _ => UInt64.le_trans
  le_of_better := fun _ _ => UInt64.le_of_lt
  le_of_not_better := fun _ _ => UInt64.not_lt.mp

theorem improves_le : Improves (fun new old : UInt64 => new ≤ old) (· ≤ ·) where
  refl := UInt64.le_refl
  trans := fun _ _ _ => UInt64.le_trans
  le_of_better := fun _ _ => id
  le_of_not_better := fun _ _ h => (UInt64.le_total _ _).resolve_left h

theorem improves_ge : Improves (fun new old : UInt64 => new ≥ old) (· ≥ ·) where
  refl := UInt64.le_refl
  trans := fun _ _ _ h h' => UInt64.le_trans h' h
  le_of_better := fun _ _ => id
  le_of_not_better := fun _ _ h => (UInt64.le_total _ _).resolve_right h

theorem le_ULLONG_MAX (a : UInt64) : a ≤ ULLONG_MAX := by
  have hlt := a.toNat_lt
  rw [UInt64.le_iff_toNat_le]
  simp [ULLONG_MAX]
  omega

theorem one_add_ne_zero {a : UInt64} (h : a < ULLONG_MAX) : 1 + a ≠ 0 := by
  intro heq
  have hlt := UInt64.lt_iff_toNat_lt.mp h
  have hzero : (1 + a).toNat = 0 := by rw [heq]; rfl
  rw [UInt64.toNat_add] at hzero
  simp [ULLONG_MAX] at hlt hzero
  omega

section

variable {s : Sched} {seed : TaskAddr} {cells : List TaskAddr}

theorem remeasure_eq (waiting : TaskAddr → UInt64) (locals : Unit) (task : TaskAddr) :
    remeasure (s.rewait waiting, locals) task =
      .ok (s.rewait (Function.update waiting task (s.waited task)), locals) := by
  by_cases hcurrent : some task = s.current
  · have hread : some task = (s.rewait waiting).current := hcurrent
    rw [remeasure, if_pos hread, Sched.modify_waiting, Sched.waited, if_pos hcurrent]
    rfl
  · have hread : ¬ some task = (s.rewait waiting).current := hcurrent
    rw [remeasure, if_neg hread, Sched.modify_waiting, Sched.waited, if_neg hcurrent]
    rfl

theorem updateWaitingInRQ_eq (h : Queued s seed cells) :
    updateWaitingInRQ s = .ok (s.rewait fun u =>
      if u ∈ cells then s.waited u else (s.tasks u).waitingInRQ) := by
  have hfold : cells.foldlM remeasure (s, ()) = .ok (s.rewait fun u =>
      if u ∈ cells then s.waited u else (s.tasks u).waitingInRQ, ()) :=
    foldlM_update (fun waiting locals => (s.rewait waiting, locals)) s.waited
      (fun locals _ => locals) (fun u => (s.tasks u).waitingInRQ) ()
      (fun waiting locals task _ => remeasure_eq waiting locals task)
  rw [updateWaitingInRQ, eachQueued_eq h]
  · rw [hfold]
    rfl
  · rintro ⟨state, locals⟩ task state' hok
    rw [remeasure] at hok
    split at hok <;> cases hok <;> simp [Sched.next_modify]

theorem scanQueued_eq {better : UInt64 → UInt64 → Prop}
    [∀ new old, Decidable (better new old)] (key : TaskStruct → UInt64) (init : UInt64)
    (h : Queued s seed cells) :
    scanQueued better key init s =
      .ok (cells.foldl (keepBest better fun task => key (s.tasks task)) (init, none)).2 := by
  rw [scanQueued, eachQueued_eq h]
  · rw [foldlM_update (fun _ best => (s, best)) (fun _ => 0)
      (keepBest better fun task => key (s.tasks task)) (fun _ => 0) (init, none)
      (fun _ _ _ _ => rfl)]
    rfl
  · rintro state task state' ⟨⟩
    exact ⟨rfl, rfl⟩

theorem getMinExpBurst_eq_some (h : Queued s seed cells) (hne : cells ≠ [])
    (hbound : ∀ task ∈ cells, (s.tasks task).nextBurstPred < ULLONG_MAX) :
    ∃ m ∈ cells, getMinExpBurst s = .ok (some m) ∧
      ∀ task ∈ cells, (s.tasks m).nextBurstPred ≤ (s.tasks task).nextBurstPred := by
  obtain ⟨first, hfirst⟩ := List.exists_mem_of_ne_nil cells hne
  have hbetter : (s.tasks first).nextBurstPred <
      ((ULLONG_MAX, none) : UInt64 × Option TaskAddr).1 := hbound first hfirst
  obtain ⟨m, hm, heq, hleast⟩ := foldl_keepBest_eq_some
    (fun task => (s.tasks task).nextBurstPred) improves_lt hfirst hbetter
  refine ⟨m, hm, ?_, hleast⟩
  rw [getMinExpBurst, scanQueued_eq _ _ h, heq]

theorem getMaxWaitingInRQ_eq_some (h : Queued s seed cells) (hne : cells ≠ []) :
    ∃ w ∈ cells, getMaxWaitingInRQ s = .ok (some w) ∧
      ∀ task ∈ cells, (s.tasks w).waitingInRQ ≥ (s.tasks task).waitingInRQ := by
  obtain ⟨first, hfirst⟩ := List.exists_mem_of_ne_nil cells hne
  have hbetter : (s.tasks first).waitingInRQ ≥ ((0, none) : UInt64 × Option TaskAddr).1 :=
    UInt64.zero_le
  obtain ⟨w, hw, heq, hgreatest⟩ := foldl_keepBest_eq_some
    (fun task => (s.tasks task).waitingInRQ) improves_ge hfirst hbetter
  refine ⟨w, hw, ?_, hgreatest⟩
  rw [getMaxWaitingInRQ, scanQueued_eq _ _ h, heq]

theorem getMinExpBurst_regrade (h : Queued s seed cells) (goodness : TaskAddr → UInt64) :
    getMinExpBurst (s.regrade goodness) = getMinExpBurst s := by
  have hgraded : Queued (s.regrade goodness) seed cells := h.congr rfl rfl rfl
  rw [getMinExpBurst, getMinExpBurst, scanQueued_eq _ _ h, scanQueued_eq _ _ hgraded]
  rfl

theorem getMaxWaitingInRQ_regrade (h : Queued s seed cells) (goodness : TaskAddr → UInt64) :
    getMaxWaitingInRQ (s.regrade goodness) = getMaxWaitingInRQ s := by
  have hgraded : Queued (s.regrade goodness) seed cells := h.congr rfl rfl rfl
  rw [getMaxWaitingInRQ, getMaxWaitingInRQ, scanQueued_eq _ _ h, scanQueued_eq _ _ hgraded]
  rfl

theorem weigh_eq (h : Queued s seed cells) {m w task : TaskAddr}
    (hm : getMinExpBurst s = .ok (some m)) (hw : getMaxWaitingInRQ s = .ok (some w))
    (hpred : (s.tasks m).nextBurstPred < ULLONG_MAX)
    (hwait : (s.tasks task).waitingInRQ < ULLONG_MAX)
    (goodness : TaskAddr → UInt64) (best : UInt64 × Option TaskAddr) :
    weigh (s.regrade goodness, best) task =
      .ok (s.regrade (Function.update goodness task (s.goodnessOf m w task)),
        keepBest (· ≤ ·) (s.goodnessOf m w) best task) := by
  have hm' := (getMinExpBurst_regrade h goodness).trans hm
  have hw' := (getMaxWaitingInRQ_regrade h goodness).trans hw
  have hburst : 1 + ((s.regrade goodness).tasks m).nextBurstPred ≠ 0 := one_add_ne_zero hpred
  have hwaiting : 1 + ((s.regrade goodness).tasks task).waitingInRQ ≠ 0 := one_add_ne_zero hwait
  simp only [weigh, hm', hw', deref, divide, if_neg hburst, if_neg hwaiting, bind, Except.bind,
    Sched.modify_goodness]
  rfl

theorem weigh_error (h : Queued s seed cells) {m w task : TaskAddr}
    (hm : getMinExpBurst s = .ok (some m)) (hw : getMaxWaitingInRQ s = .ok (some w))
    (hpred : (s.tasks m).nextBurstPred < ULLONG_MAX)
    (hwait : (s.tasks task).waitingInRQ = ULLONG_MAX)
    (goodness : TaskAddr → UInt64) (best : UInt64 × Option TaskAddr) :
    weigh (s.regrade goodness, best) task = .error .divByZero := by
  have hm' := (getMinExpBurst_regrade h goodness).trans hm
  have hw' := (getMaxWaitingInRQ_regrade h goodness).trans hw
  have hburst : 1 + ((s.regrade goodness).tasks m).nextBurstPred ≠ 0 := one_add_ne_zero hpred
  have hwaiting : 1 + ((s.regrade goodness).tasks task).waitingInRQ = 0 := by
    change 1 + (s.tasks task).waitingInRQ = 0
    rw [hwait]
    rfl
  simp only [weigh, hm', hw', deref, divide, if_neg hburst, if_pos hwaiting, bind, Except.bind]

theorem foldlM_weigh_error (h : Queued s seed cells) {m w : TaskAddr}
    (hm : getMinExpBurst s = .ok (some m)) (hw : getMaxWaitingInRQ s = .ok (some w))
    (hpred : (s.tasks m).nextBurstPred < ULLONG_MAX) {items : List TaskAddr}
    (hwait : ∃ task ∈ items, (s.tasks task).waitingInRQ = ULLONG_MAX)
    (goodness : TaskAddr → UInt64) (best : UInt64 × Option TaskAddr) :
    items.foldlM weigh (s.regrade goodness, best) = .error .divByZero := by
  induction items generalizing goodness best with
  | nil => simp at hwait
  | cons task items ih =>
      rw [List.foldlM_cons]
      by_cases hfull : (s.tasks task).waitingInRQ = ULLONG_MAX
      · rw [weigh_error h hm hw hpred hfull]
        rfl
      · have hlt : (s.tasks task).waitingInRQ < ULLONG_MAX :=
          UInt64.lt_of_le_of_ne (le_ULLONG_MAX _) hfull
        rw [weigh_eq h hm hw hpred hlt]
        apply ih
        simpa [hfull] using hwait

theorem weigh_links {state state' : Sched × UInt64 × Option TaskAddr} {task : TaskAddr}
    (hok : weigh state task = .ok state') :
    state'.1.next = state.1.next ∧ state'.1.rq.head = state.1.rq.head := by
  simp only [weigh, bind_eq_ok] at hok
  obtain ⟨_, -, _, -, _, -, _, -, _, -, _, -, hok⟩ := hok
  cases hok
  refine ⟨?_, rfl⟩
  rw [Sched.modify_goodness]
  rfl

/-- The task that `getMinGoodness` returns has the least goodness of the queued tasks. -/
theorem getMinGoodness_eq_some (h : Queued s seed cells) (hne : cells ≠ [])
    (hpred : ∀ task ∈ cells, (s.tasks task).nextBurstPred < ULLONG_MAX)
    (hwait : ∀ task ∈ cells, (s.tasks task).waitingInRQ < ULLONG_MAX) :
    ∃ m ∈ cells, ∃ w ∈ cells, ∃ curr ∈ cells,
      (∀ task ∈ cells, (s.tasks m).nextBurstPred ≤ (s.tasks task).nextBurstPred) ∧
      (∀ task ∈ cells, (s.tasks w).waitingInRQ ≥ (s.tasks task).waitingInRQ) ∧
      getMinGoodness s = .ok (s.regrade fun u =>
        if u ∈ cells then s.goodnessOf m w u else (s.tasks u).goodness, some curr) ∧
      ∀ task ∈ cells, s.goodnessOf m w curr ≤ s.goodnessOf m w task := by
  obtain ⟨m, hm, hmin, hleast⟩ := getMinExpBurst_eq_some h hne hpred
  obtain ⟨w, hw, hmax, hgreatest⟩ := getMaxWaitingInRQ_eq_some h hne
  obtain ⟨first, hfirst⟩ := List.exists_mem_of_ne_nil cells hne
  have hbetter : s.goodnessOf m w first ≤ ((ULLONG_MAX, none) : UInt64 × Option TaskAddr).1 :=
    le_ULLONG_MAX _
  obtain ⟨curr, hcurr, hbest, hminimal⟩ :=
    foldl_keepBest_eq_some (s.goodnessOf m w) improves_le hfirst hbetter
  refine ⟨m, hm, w, hw, curr, hcurr, hleast, hgreatest, ?_, hminimal⟩
  have hfold : cells.foldlM weigh (s, ULLONG_MAX, none) = .ok (s.regrade fun u =>
      if u ∈ cells then s.goodnessOf m w u else (s.tasks u).goodness,
      cells.foldl (keepBest (· ≤ ·) (s.goodnessOf m w)) (ULLONG_MAX, none)) :=
    foldlM_update (fun goodness best => (s.regrade goodness, best)) (s.goodnessOf m w)
      (keepBest (· ≤ ·) (s.goodnessOf m w)) (fun u => (s.tasks u).goodness) (ULLONG_MAX, none)
      (fun goodness best task htask =>
        weigh_eq h hmin hmax (hpred m hm) (hwait task htask) goodness best)
  rw [getMinGoodness, eachQueued_eq h fun _ _ _ => weigh_links, hfold, hbest]
  rfl

theorem getMinGoodness_error (h : Queued s seed cells)
    (hpred : ∀ task ∈ cells, (s.tasks task).nextBurstPred < ULLONG_MAX)
    (hwait : ∃ task ∈ cells, (s.tasks task).waitingInRQ = ULLONG_MAX) :
    getMinGoodness s = .error .divByZero := by
  have hne : cells ≠ [] := by
    rintro rfl
    simp at hwait
  obtain ⟨m, hm, hmin, -⟩ := getMinExpBurst_eq_some h hne hpred
  obtain ⟨w, -, hmax, -⟩ := getMaxWaitingInRQ_eq_some h hne
  have hfold : cells.foldlM weigh (s, ULLONG_MAX, none) = .error .divByZero :=
    foldlM_weigh_error h hmin hmax (hpred m hm) hwait (fun u => (s.tasks u).goodness) _
  rw [getMinGoodness, eachQueued_eq h fun _ _ _ => weigh_links, hfold]
  rfl

end

end Ece318.Schedule
