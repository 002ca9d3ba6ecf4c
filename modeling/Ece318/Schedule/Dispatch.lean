import Ece318.Schedule.Scans

/-!
# `schedule`

With one task in the queue `schedule` goes back to the head.  Otherwise it books
the burst of the running task, measures the waits, picks the task of least
goodness and lets it run.  `Dispatched` lists what such a call does to every field.
-/

namespace Ece318.Schedule

open Ece318.Foundation

/--
`(lastBurstTime + 0.5*nextBurstPred) / (1+0.5)`, truncated; the doubles of the source
are exact enough for that below `2^50`.
-/
def burstAverage (lastBurstTime nextBurstPred : UInt64) : UInt64 :=
  UInt64.ofNat ((2 * lastBurstTime.toNat + nextBurstPred.toNat) / 3)

namespace TaskStruct

/-- The running task is charged with the time since it got the CPU. -/
def charge (t : TaskStruct) (clock : UInt64) : TaskStruct :=
  let lastBurstTime := t.lastBurstTime + (clock - t.timeStarted)
  { t with
    lastBurstTime := lastBurstTime
    totalExecutionTime := t.totalExecutionTime + (clock - t.timeStarted)
    nextBurstPred := burstAverage lastBurstTime t.nextBurstPred }

/-- The burst of a task that has left the queue ends. -/
def close (t : TaskStruct) : TaskStruct :=
  { t with
    nextBurstPred := burstAverage t.lastBurstTime t.nextBurstPred
    lastBurstTime := 0 }

end TaskStruct

def contextSwitch (s : Sched) (next : Option TaskAddr) : Sched :=
  { s with current := next, switches := s.switches ++ [next] }

/-- What `schedule` takes for a task that has been removed from the queue. -/
def Sched.Removed (s : Sched) (current : TaskAddr) : Prop :=
  (s.next current = none ∧ s.prev current = none) ∧ s.current ≠ s.rq.head

instance (s : Sched) (current : TaskAddr) : Decidable (s.Removed current) :=
  inferInstanceAs (Decidable (_ ∧ _))

/-- The bookkeeping of the running task, with the local `tempBurstPred`. -/
def book (s : Sched) (current : TaskAddr) : Sched × Option UInt64 :=
  let (s, tempBurstPred) :=
    if s.current ≠ s.rq.head then
      (s.modify current fun t => t.charge s.clock, some (s.tasks current).nextBurstPred)
    else (s, none)
  let s := if s.Removed current then s.modify current TaskStruct.close else s
  (s.modify current fun t => { t with needReschedule := 0 }, tempBurstPred)

/-- The end of `schedule`: the stamp of a task that loses the CPU, or its old prediction. -/
def settle (s : Sched) (current curr : TaskAddr) (tempBurstPred : Option UInt64) :
    Except Fault Sched :=
  if some curr ≠ s.current then .ok (stamp s current)
  else if s.rq.nrRunning ≠ 1 then
    match tempBurstPred with
    | none => .error .uninitialised
    | some pred => .ok (s.modify current fun t => { t with nextBurstPred := pred })
  else .ok s

def schedule (s : Sched) : Except Fault Sched := do
  let current ← deref s.current
  if s.rq.nrRunning = 1 then
    let s := s.modify current fun t => { t with needReschedule := 0 }
    return contextSwitch s s.rq.head
  else
    let (s, tempBurstPred) := book s current
    let s ← updateWaitingInRQ s
    let (s, curr) ← getMinGoodness s
    let curr ← deref curr
    let s := s.modify curr fun t => { t with timeStarted := s.clock }
    let s ← settle s current curr tempBurstPred
    return contextSwitch s (some curr)

/-! ## Predictions -/

theorem toNat_burstAverage (burst pred : UInt64) :
    (burstAverage burst pred).toNat = (2 * burst.toNat + pred.toNat) / 3 := by
  have hburst := burst.toNat_lt
  have hpred := pred.toNat_lt
  rw [burstAverage, UInt64.toNat_ofNat_of_lt']
  simp only [UInt64.size]
  omega

theorem burstAverage_lt {pred : UInt64} (hpred : pred < ULLONG_MAX) (burst : UInt64) :
    burstAverage burst pred < ULLONG_MAX := by
  have hburst := burst.toNat_lt
  rw [UInt64.lt_iff_toNat_lt] at *
  rw [toNat_burstAverage]
  simp only [ULLONG_MAX, UInt64.reduceToNat] at *
  omega

/-! ## The bookkeeping -/

def Sched.booked (s : Sched) (current : TaskAddr) : TaskStruct :=
  let t := s.tasks current
  let t := if s.current ≠ s.rq.head then t.charge s.clock else t
  let t := if s.Removed current then t.close else t
  { t with needReschedule := 0 }

section

variable {s : Sched} {seed c : TaskAddr} {cells : List TaskAddr}

theorem removed_modify {f : TaskStruct → TaskStruct} (hnext : ∀ t, (f t).next = t.next)
    (hprev : ∀ t, (f t).prev = t.prev) : (s.modify c f).Removed c ↔ s.Removed c := by
  simp [Sched.Removed, Sched.next_modify _ _ _ hnext, Sched.prev_modify _ _ _ hprev]

theorem book_eq (s : Sched) (c : TaskAddr) :
    book s c = (s.modify c fun _ => s.booked c,
      if s.current ≠ s.rq.head then some (s.tasks c).nextBurstPred else none) := by
  have hcharge : (s.modify c fun t => t.charge s.clock).Removed c ↔ s.Removed c :=
    removed_modify (fun _ => rfl) (fun _ => rfl)
  by_cases hhead : s.current = s.rq.head <;> by_cases hremoved : s.Removed c <;>
    simp [book, Sched.booked, hhead, hremoved, hcharge, Sched.modify_modify] <;> rfl

/-- What a call of `schedule` that picks `curr` leaves in a task. -/
def Sched.rescheduled (s : Sched) (cells : List TaskAddr) (c curr : TaskAddr)
    (goodness : TaskAddr → UInt64) (u : TaskAddr) : TaskStruct :=
  let t := if u = c then s.booked c else s.tasks u
  { t with
    waitingInRQ := if u ∈ cells then s.waited u else t.waitingInRQ
    goodness := goodness u
    timeStarted := if u = curr then s.clock else t.timeStarted
    lastRunOrInQueue :=
      if u = c ∧ curr ≠ c then refreshed s.clock t.lastRunOrInQueue else t.lastRunOrInQueue
    nextBurstPred := if u = c ∧ curr = c then (s.tasks c).nextBurstPred else t.nextBurstPred }

def Sched.dispatch (s : Sched) (cells : List TaskAddr) (c curr : TaskAddr)
    (goodness : TaskAddr → UInt64) : Sched :=
  { s with
    tasks := s.rescheduled cells c curr goodness
    current := some curr
    switches := s.switches ++ [some curr] }

theorem booked_eq (s : Sched) (c : TaskAddr) :
    s.booked c = { s.tasks c with
      needReschedule := 0
      lastBurstTime := (s.booked c).lastBurstTime
      nextBurstPred := (s.booked c).nextBurstPred
      totalExecutionTime := (s.booked c).totalExecutionTime } := by
  by_cases hhead : s.current ≠ s.rq.head <;> by_cases hremoved : s.Removed c <;>
    simp [Sched.booked, hhead, hremoved, TaskStruct.charge, TaskStruct.close]

theorem booked_nextBurstPred_lt (h : (s.tasks c).nextBurstPred < ULLONG_MAX) :
    (s.booked c).nextBurstPred < ULLONG_MAX := by
  simp only [Sched.booked, TaskStruct.charge, TaskStruct.close]
  split <;> split
  · exact burstAverage_lt (burstAverage_lt h _) _
  · exact burstAverage_lt h _
  · exact burstAverage_lt h _
  · exact h

def Sched.backToHead (s : Sched) (c head : TaskAddr) : Sched :=
  contextSwitch (s.modify c fun t => { t with needReschedule := 0 }) (some head)

theorem backToHead_tasks (s : Sched) (c head u : TaskAddr) :
    (s.backToHead c head).tasks u = { s.tasks u with
      needReschedule := if u = c then 0 else (s.tasks u).needReschedule } := by
  by_cases hu : u = c <;> simp [Sched.backToHead, contextSwitch, Sched.modify_tasks, hu]

theorem backToHead_next (s : Sched) (c head : TaskAddr) : (s.backToHead c head).next = s.next := by
  funext u
  rw [Sched.next, backToHead_tasks]
  rfl

theorem backToHead_prev (s : Sched) (c head : TaskAddr) : (s.backToHead c head).prev = s.prev := by
  funext u
  rw [Sched.prev, backToHead_tasks]
  rfl

theorem schedule_single {head : TaskAddr} (hone : s.rq.nrRunning = 1)
    (hhead : s.rq.head = some head) (hc : s.current = some c) :
    schedule s = .ok (s.backToHead c head) := by
  rw [schedule, hc, Sched.backToHead, ← hhead]
  exact if_pos hone

def Sched.bookedState (s : Sched) (c : TaskAddr) : Sched := s.modify c fun _ => s.booked c

theorem bookedState_queued (h : Queued s seed cells) (c : TaskAddr) :
    Queued (s.bookedState c) seed cells := by
  refine h.congr rfl ?_ ?_
  · funext u
    by_cases hu : u = c
    · subst u
      simpa [Sched.next, Sched.bookedState, Sched.modify] using
        congrArg TaskStruct.next (booked_eq s c)
    · simp [Sched.next, Sched.bookedState, Sched.modify, hu]
  · funext u
    by_cases hu : u = c
    · subst u
      simpa [Sched.prev, Sched.bookedState, Sched.modify] using
        congrArg TaskStruct.prev (booked_eq s c)
    · simp [Sched.prev, Sched.bookedState, Sched.modify, hu]

theorem bookedState_waited (s : Sched) (c u : TaskAddr) :
    (s.bookedState c).waited u = s.waited u := by
  by_cases hu : u = c
  · subst u
    have hstamp := congrArg TaskStruct.lastRunOrInQueue (booked_eq s c)
    simp only [Sched.waited, Sched.bookedState, Sched.modify, Function.update_self] at hstamp ⊢
    rw [hstamp]
  · simp [Sched.waited, Sched.bookedState, Sched.modify, hu]

/-- The state in which `schedule` looks for the least goodness. -/
def Sched.measured (s : Sched) (cells : List TaskAddr) (c : TaskAddr) : Sched :=
  (s.bookedState c).rewait fun u =>
    if u ∈ cells then s.waited u else ((s.bookedState c).tasks u).waitingInRQ

theorem updateWaitingInRQ_bookedState (h : Queued s seed cells) (c : TaskAddr) :
    updateWaitingInRQ (s.bookedState c) = .ok (s.measured cells c) := by
  rw [updateWaitingInRQ_eq (bookedState_queued h c), Sched.measured]
  simp only [bookedState_waited]

theorem measured_goodness (s : Sched) (cells : List TaskAddr) (c u : TaskAddr) :
    ((s.measured cells c).tasks u).goodness = (s.tasks u).goodness := by
  by_cases hu : u = c
  · subst u
    simpa [Sched.measured, Sched.rewait, Sched.bookedState, Sched.modify] using
      congrArg TaskStruct.goodness (booked_eq s c)
  · simp [Sched.measured, Sched.rewait, Sched.bookedState, Sched.modify, hu]

theorem settle_eq (h : Queued s seed cells) (hne : cells ≠ []) (hc : s.current = some c)
    {curr : TaskAddr} (hcurr : curr ∈ cells) (pred : UInt64) (state : Sched)
    (hrq : state.rq = s.rq) (hcurrent : state.current = s.current) :
    settle state c curr (if some c ≠ s.rq.head then some pred else none) =
      .ok (if curr = c then state.modify c fun t => { t with nextBurstPred := pred }
        else stamp state c) := by
  have hlong : s.rq.nrRunning ≠ 1 := by
    rw [h.nrRunning]
    simpa using hne
  by_cases heq : curr = c
  · -- a queued task runs on, so it is not the seed and its prediction was kept
    have hseed : some c ≠ s.rq.head := by
      rw [h.head]
      intro hcs
      exact h.seed_notMem (Option.some.inj hcs ▸ heq ▸ hcurr)
    simp [settle, hcurrent, hc, heq, hrq, hlong, hseed]
  · simp [settle, hcurrent, hc, heq]

def Sched.started (s : Sched) (cells : List TaskAddr) (c curr : TaskAddr)
    (goodness : TaskAddr → UInt64) : Sched :=
  let s := (s.measured cells c).regrade goodness
  s.modify curr fun t => { t with timeStarted := s.clock }

theorem started_tasks (s : Sched) (cells : List TaskAddr) (c curr : TaskAddr)
    (goodness : TaskAddr → UInt64) (u : TaskAddr) :
    (s.started cells c curr goodness).tasks u =
      let t := if u = c then s.booked c else s.tasks u
      { t with
        waitingInRQ := if u ∈ cells then s.waited u else t.waitingInRQ
        goodness := goodness u
        timeStarted := if u = curr then s.clock else t.timeStarted } := by
  have hbooked : (s.bookedState c).tasks u = if u = c then s.booked c else s.tasks u := by
    by_cases hu : u = c <;> simp [Sched.bookedState, Sched.modify_tasks, hu]
  simp only [Sched.started, Sched.modify_tasks, Sched.measured, Sched.rewait, Sched.regrade,
    hbooked]
  by_cases hcurr : u = curr
  · simp only [hcurr, if_true]
    rfl
  · simp only [hcurr, if_false]

theorem contextSwitch_started (s : Sched) (cells : List TaskAddr) (c curr : TaskAddr)
    (goodness : TaskAddr → UInt64) :
    contextSwitch (if curr = c then (s.started cells c curr goodness).modify c fun t =>
        { t with nextBurstPred := (s.tasks c).nextBurstPred }
      else stamp (s.started cells c curr goodness) c) (some curr) =
      s.dispatch cells c curr goodness := by
  have htasks : (if curr = c then (s.started cells c curr goodness).modify c fun t =>
        { t with nextBurstPred := (s.tasks c).nextBurstPred }
      else stamp (s.started cells c curr goodness) c).tasks =
      s.rescheduled cells c curr goodness := by
    funext u
    by_cases hcc : curr = c
    · by_cases hu : u = c <;>
        simp [hcc, hu, Sched.modify_tasks, started_tasks, Sched.rescheduled]
    · by_cases hu : u = c
      · simp [hcc, hu, stamp, Sched.modify_tasks, started_tasks, Sched.rescheduled]
        rfl
      · simp [hcc, hu, stamp, Sched.modify_tasks, started_tasks, Sched.rescheduled]
  by_cases hcc : curr = c
  · rw [if_pos hcc] at htasks ⊢
    simp only [contextSwitch, htasks]
    rfl
  · rw [if_neg hcc] at htasks ⊢
    simp only [contextSwitch, htasks]
    rfl

theorem measured_queued (h : Queued s seed cells) (c : TaskAddr) :
    Queued (s.measured cells c) seed cells :=
  (bookedState_queued h c).congr rfl rfl rfl

theorem measured_nextBurstPred_lt {task : TaskAddr} (c : TaskAddr)
    (hpred : (s.tasks task).nextBurstPred < ULLONG_MAX) :
    ((s.measured cells c).tasks task).nextBurstPred < ULLONG_MAX := by
  by_cases hu : task = c
  · subst task
    simpa [Sched.measured, Sched.rewait, Sched.bookedState, Sched.modify] using
      booked_nextBurstPred_lt hpred
  · simpa [Sched.measured, Sched.rewait, Sched.bookedState, Sched.modify, hu] using hpred

theorem measured_waitingInRQ (s : Sched) (c : TaskAddr) {task : TaskAddr} (htask : task ∈ cells) :
    ((s.measured cells c).tasks task).waitingInRQ = s.waited task :=
  if_pos htask

theorem schedule_measured (h : Queued s seed cells) (hne : cells ≠ []) (hc : s.current = some c) :
    schedule s = getMinGoodness (s.measured cells c) >>= fun (state, curr) => do
      let curr ← deref curr
      let state := state.modify curr fun t => { t with timeStarted := state.clock }
      let state ← settle state c curr
        (if some c ≠ s.rq.head then some (s.tasks c).nextBurstPred else none)
      return contextSwitch state (some curr) := by
  have hlong : ¬ s.rq.nrRunning = 1 := by
    rw [h.nrRunning]
    simpa using hne
  have hbooked : book s c = (s.bookedState c,
    if some c ≠ s.rq.head then some (s.tasks c).nextBurstPred else none) := hc ▸ book_eq s c
  simp only [schedule, hc, deref, bind, Except.bind, hlong, if_false, hbooked,
    updateWaitingInRQ_bookedState h c]

/-- With more than the seed queued, `schedule` picks a queued task of least goodness. -/
theorem schedule_long (h : Queued s seed cells) (hne : cells ≠ []) (hc : s.current = some c)
    (hpred : ∀ task ∈ cells, (s.tasks task).nextBurstPred < ULLONG_MAX)
    (hwait : ∀ task ∈ cells, s.waited task < ULLONG_MAX) :
    ∃ m ∈ cells, ∃ w ∈ cells, ∃ curr ∈ cells,
      schedule s = .ok (s.dispatch cells c curr fun u =>
        if u ∈ cells then (s.measured cells c).goodnessOf m w u else (s.tasks u).goodness) ∧
      ∀ task ∈ cells,
        ((s.measured cells c).tasks m).nextBurstPred ≤
          ((s.measured cells c).tasks task).nextBurstPred ∧
        ((s.measured cells c).tasks w).waitingInRQ ≥
          ((s.measured cells c).tasks task).waitingInRQ ∧
        (s.measured cells c).goodnessOf m w curr ≤ (s.measured cells c).goodnessOf m w task := by
  obtain ⟨m, hm, w, hw, curr, hcurr, hleast, hgreatest, hgoodness, hminimal⟩ :=
    getMinGoodness_eq_some (measured_queued h c) hne
      (fun task htask => measured_nextBurstPred_lt c (hpred task htask))
      (fun task htask => by rw [measured_waitingInRQ s c htask]; exact hwait task htask)
  refine ⟨m, hm, w, hw, curr, hcurr, ?_, fun task htask =>
    ⟨hleast task htask, hgreatest task htask, hminimal task htask⟩⟩
  have hsettle := settle_eq h hne hc hcurr (s.tasks c).nextBurstPred
    (s.started cells c curr fun u =>
      if u ∈ cells then (s.measured cells c).goodnessOf m w u else (s.tasks u).goodness) rfl rfl
  rw [schedule_measured h hne hc, hgoodness]
  simp only [measured_goodness, Sched.started, bind, Except.bind, deref] at hsettle ⊢
  rw [hsettle]
  exact congrArg Except.ok (contextSwitch_started s cells c curr _)

theorem schedule_error (h : Queued s seed cells) (hc : s.current = some c)
    (hpred : ∀ task ∈ cells, (s.tasks task).nextBurstPred < ULLONG_MAX)
    (hwait : ∃ task ∈ cells, s.waited task = ULLONG_MAX) :
    schedule s = .error .divByZero := by
  obtain ⟨task, htask, hfull⟩ := hwait
  have hne : cells ≠ [] := List.ne_nil_of_mem htask
  have hwaiting : ((s.measured cells c).tasks task).waitingInRQ = ULLONG_MAX :=
    (measured_waitingInRQ s c htask).trans hfull
  rw [schedule_measured h hne hc, getMinGoodness_error (measured_queued h c)
    (fun task htask => measured_nextBurstPred_lt c (hpred task htask)) ⟨task, htask, hwaiting⟩]
  rfl

/-! ## What a dispatch leaves -/

variable (s cells c) (curr : TaskAddr) (goodness : TaskAddr → UInt64) (u : TaskAddr)

theorem dispatch_next : (s.dispatch cells c curr goodness).next = s.next := by
  funext u
  have hbooked := congrArg TaskStruct.next (booked_eq s c)
  by_cases hu : u = c
  · subst u
    simpa [Sched.next, Sched.dispatch, Sched.rescheduled] using hbooked
  · simp [Sched.next, Sched.dispatch, Sched.rescheduled, hu]

theorem dispatch_prev : (s.dispatch cells c curr goodness).prev = s.prev := by
  funext u
  have hbooked := congrArg TaskStruct.prev (booked_eq s c)
  by_cases hu : u = c
  · subst u
    simpa [Sched.prev, Sched.dispatch, Sched.rescheduled] using hbooked
  · simp [Sched.prev, Sched.dispatch, Sched.rescheduled, hu]

theorem dispatch_nextBurstPred_lt (h : (s.tasks u).nextBurstPred < ULLONG_MAX) :
    ((s.dispatch cells c curr goodness).tasks u).nextBurstPred < ULLONG_MAX := by
  by_cases hu : u = c
  · subst u
    by_cases hcurr : curr = c
    · simpa [Sched.dispatch, Sched.rescheduled, hcurr] using h
    · simpa [Sched.dispatch, Sched.rescheduled, hcurr] using booked_nextBurstPred_lt h
  · simpa [Sched.dispatch, Sched.rescheduled, hu] using h

theorem dispatch_lastRunOrInQueue :
    ((s.dispatch cells c curr goodness).tasks u).lastRunOrInQueue =
      if u = c ∧ curr ≠ c then refreshed s.clock (s.tasks u).lastRunOrInQueue
      else (s.tasks u).lastRunOrInQueue := by
  have hbooked := congrArg TaskStruct.lastRunOrInQueue (booked_eq s c)
  by_cases hu : u = c
  · subst u
    simp only [Sched.dispatch, Sched.rescheduled, if_true, hbooked]
  · simp [Sched.dispatch, Sched.rescheduled, hu]

end

end Ece318.Schedule
