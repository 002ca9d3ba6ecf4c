import Ece318.Foundation.Ring

/-!
# The run queue

The tasks of the scheduler live at addresses, and the run queue is the ring that
their `next` and `prev` fields form.  This module holds the data of
`schedule.h` and the functions of `schedule.c` that link and unlink a task.
-/

namespace Ece318.Schedule

open Ece318.Foundation

/-- The address of a `task_struct`.  A pointer is an `Option`, and `NULL` is `none`. -/
abbrev TaskAddr := Nat

inductive Fault where
  | nullDeref
  | divByZero
  | uninitialised
  deriving DecidableEq, Repr

structure TaskStruct where
  timeSlice : UInt32
  needReschedule : Int
  prev : Option TaskAddr
  next : Option TaskAddr
  lastBurstTime : UInt64
  nextBurstPred : UInt64
  lastRunOrInQueue : UInt64
  waitingInRQ : UInt64
  timeStarted : UInt64
  goodness : UInt64
  totalProcessingTime : UInt64
  totalWaitingTime : UInt64
  totalExecutionTime : UInt64

structure RunQueue where
  nrRunning : Nat
  head : Option TaskAddr

/--
The globals of `schedule.c`, with the task memory and the part of the virtual
machine that the scheduler calls: what `sched_clock` returns, and the arguments
that `context_switch` was called with, the latest last.
-/
structure Sched where
  tasks : TaskAddr → TaskStruct
  rq : RunQueue
  current : Option TaskAddr
  clock : UInt64
  switches : List (Option TaskAddr)

def deref : Option TaskAddr → Except Fault TaskAddr
  | none => .error .nullDeref
  | some task => .ok task

namespace Sched

def next (s : Sched) (task : TaskAddr) : Option TaskAddr := (s.tasks task).next

def prev (s : Sched) (task : TaskAddr) : Option TaskAddr := (s.tasks task).prev

def count (s : Sched) (nrRunning : Nat) : Sched :=
  { s with rq := { s.rq with nrRunning := nrRunning } }

def modify (s : Sched) (task : TaskAddr) (f : TaskStruct → TaskStruct) : Sched :=
  { s with tasks := Function.update s.tasks task (f (s.tasks task)) }

section

variable (s : Sched) (task other : TaskAddr) (f : TaskStruct → TaskStruct)

@[simp] theorem next_count (nrRunning : Nat) : (s.count nrRunning).next = s.next := rfl

@[simp] theorem prev_count (nrRunning : Nat) : (s.count nrRunning).prev = s.prev := rfl

@[simp] theorem count_tasks (nrRunning : Nat) : (s.count nrRunning).tasks = s.tasks := rfl

@[simp] theorem count_clock (nrRunning : Nat) : (s.count nrRunning).clock = s.clock := rfl

@[simp] theorem count_current (nrRunning : Nat) : (s.count nrRunning).current = s.current := rfl

@[simp] theorem modify_rq : (s.modify task f).rq = s.rq := rfl

@[simp] theorem modify_current : (s.modify task f).current = s.current := rfl

@[simp] theorem modify_clock : (s.modify task f).clock = s.clock := rfl

@[simp] theorem modify_switches : (s.modify task f).switches = s.switches := rfl

theorem modify_tasks : (s.modify task f).tasks other =
    if other = task then f (s.tasks other) else s.tasks other := by
  by_cases h : other = task <;> simp [modify, h]

theorem modify_modify (g : TaskStruct → TaskStruct) :
    (s.modify task f).modify task g = s.modify task fun t => g (f t) := by
  simp [modify]

theorem next_modify (h : ∀ t, (f t).next = t.next) : (s.modify task f).next = s.next := by
  funext u
  by_cases hu : u = task <;> simp [next, modify_tasks, hu, h]

theorem prev_modify (h : ∀ t, (f t).prev = t.prev) : (s.modify task f).prev = s.prev := by
  funext u
  by_cases hu : u = task <;> simp [prev, modify_tasks, hu, h]

end

def setNext (s : Sched) (task : TaskAddr) (p : Option TaskAddr) : Sched :=
  s.modify task fun t => { t with next := p }

def setPrev (s : Sched) (task : TaskAddr) (p : Option TaskAddr) : Sched :=
  s.modify task fun t => { t with prev := p }

def relink (s : Sched) (next prev : TaskAddr → Option TaskAddr) : Sched :=
  { s with tasks := fun u => { s.tasks u with next := next u, prev := prev u } }

section

variable (s : Sched) (next prev : TaskAddr → Option TaskAddr) (task : TaskAddr)
  (p : Option TaskAddr)

@[simp] theorem next_relink : (s.relink next prev).next = next := rfl

@[simp] theorem prev_relink : (s.relink next prev).prev = prev := rfl

@[simp] theorem rq_relink : (s.relink next prev).rq = s.rq := rfl

@[simp] theorem clock_relink : (s.relink next prev).clock = s.clock := rfl

@[simp] theorem relink_relink (next' prev' : TaskAddr → Option TaskAddr) :
    (s.relink next prev).relink next' prev' = s.relink next' prev' := rfl

theorem setNext_eq :
    s.setNext task p = s.relink (Function.update s.next task p) s.prev := by
  simp only [setNext, relink, modify, Sched.mk.injEq, and_true]
  funext u
  by_cases hu : u = task
  · subst u
    simp [prev]
  · simp [hu, next, prev]

theorem setPrev_eq :
    s.setPrev task p = s.relink s.next (Function.update s.prev task p) := by
  simp only [setPrev, relink, modify, Sched.mk.injEq, and_true]
  funext u
  by_cases hu : u = task
  · subst u
    simp [next]
  · simp [hu, next, prev]

end

end Sched

/-- `if (sched_clock() > stamp) stamp = sched_clock();` -/
def refreshed (clock stamp : UInt64) : UInt64 := if clock > stamp then clock else stamp

theorem toNat_refreshed (clock stamp : UInt64) :
    (refreshed clock stamp).toNat = max clock.toNat stamp.toNat := by
  by_cases h : clock > stamp
  · have hlt := UInt64.lt_iff_toNat_lt.mp h
    rw [refreshed, if_pos h]
    omega
  · have hle : ¬ stamp.toNat < clock.toNat := fun hlt => h (UInt64.lt_iff_toNat_lt.mpr hlt)
    rw [refreshed, if_neg h]
    omega

/-! ## The operations -/

def initschedule (s : Sched) (seedTask : TaskAddr) : Sched :=
  let s := (s.setPrev seedTask (some seedTask)).setNext seedTask (some seedTask)
  { s with rq := { nrRunning := s.rq.nrRunning + 1, head := some seedTask } }

/-- What `initschedule` meets: a zeroed run queue, and the seed about to run. -/
def boot (s : Sched) (seedTask : TaskAddr) : Sched :=
  initschedule { s with rq := { nrRunning := 0, head := none }, current := some seedTask } seedTask

def stamp (s : Sched) (p : TaskAddr) : Sched :=
  s.modify p fun t => { t with lastRunOrInQueue := refreshed s.clock t.lastRunOrInQueue }

@[simp] theorem clock_stamp (s : Sched) (p : TaskAddr) : (stamp s p).clock = s.clock := rfl

@[simp] theorem next_stamp (s : Sched) (p : TaskAddr) : (stamp s p).next = s.next :=
  s.next_modify p _ fun _ => rfl

@[simp] theorem prev_stamp (s : Sched) (p : TaskAddr) : (stamp s p).prev = s.prev :=
  s.prev_modify p _ fun _ => rfl

def enqueue (s : Sched) (p : TaskAddr) : Except Fault Sched := do
  let head ← deref s.rq.head
  let s := s.setNext p (s.next head)
  let s := s.setPrev p s.rq.head
  let after ← deref (s.next p)
  let s := s.setPrev after (some p)
  let before ← deref (s.prev p)
  let s := s.setNext before (some p)
  return (stamp s p).count (s.rq.nrRunning + 1)

def wakeUpNewTask (s : Sched) (p : TaskAddr) : Except Fault Sched := enqueue s p

def activateTask (s : Sched) (p : TaskAddr) : Except Fault Sched := enqueue s p

def deactivateTask (s : Sched) (p : TaskAddr) : Except Fault Sched := do
  let before ← deref (s.prev p)
  let s := s.setNext before (s.next p)
  let after ← deref (s.next p)
  let s := s.setPrev after (s.prev p)
  let s := (s.setPrev p none).setNext p none
  return s.count (s.rq.nrRunning - 1)

def schedFork (s : Sched) (p : TaskAddr) : Sched :=
  s.modify p fun t =>
    { t with
      timeSlice := 100
      lastBurstTime := 0
      lastRunOrInQueue := 0
      nextBurstPred := 0
      timeStarted := 0
      goodness := 0
      waitingInRQ := 0
      totalProcessingTime := s.clock
      totalExecutionTime := 0
      totalWaitingTime := 0 }

/-! ## What the operations leave -/

theorem schedFork_next (s : Sched) (p : TaskAddr) : (schedFork s p).next = s.next :=
  s.next_modify p _ fun _ => rfl

theorem schedFork_prev (s : Sched) (p : TaskAddr) : (schedFork s p).prev = s.prev :=
  s.prev_modify p _ fun _ => rfl

theorem initschedule_eq (s : Sched) (seedTask : TaskAddr) :
    initschedule s seedTask =
      { s.relink (Function.update s.next seedTask (some seedTask))
          (Function.update s.prev seedTask (some seedTask)) with
        rq := { nrRunning := s.rq.nrRunning + 1, head := some seedTask } } := by
  simp [initschedule, Sched.setPrev_eq, Sched.setNext_eq]

theorem enqueue_eq {s : Sched} {p head n : TaskAddr} (hhead : s.rq.head = some head)
    (hn : s.next head = some n) (hpn : p ≠ n) :
    enqueue s p = .ok ((stamp (s.relink
      (Function.update (Function.update s.next p (some n)) head (some p))
      (Function.update (Function.update s.prev p (some head)) n (some p))) p).count
        (s.rq.nrRunning + 1)) := by
  simp [enqueue, deref, bind, Except.bind, pure, Except.pure, Sched.setNext_eq,
    Sched.setPrev_eq, hhead, hn, hpn, stamp]

theorem stamp_relink_tasks (s : Sched) (next prev : TaskAddr → Option TaskAddr)
    (p u : TaskAddr) :
    (stamp (s.relink next prev) p).tasks u =
      { s.tasks u with
        next := next u
        prev := prev u
        lastRunOrInQueue :=
          if u = p then refreshed s.clock (s.tasks u).lastRunOrInQueue
          else (s.tasks u).lastRunOrInQueue } := by
  by_cases hu : u = p <;> simp [stamp, Sched.modify_tasks, Sched.relink, hu]

theorem deactivateTask_eq {s : Sched} {p l r : TaskAddr} (hl : s.prev p = some l)
    (hr : s.next p = some r) :
    deactivateTask s p = .ok ((s.relink
      (Function.update (Function.update s.next l (some r)) p none)
      (Function.update (Function.update s.prev r (some l)) p none)).count
        (s.rq.nrRunning - 1)) := by
  have hread : Function.update s.next l (some r) p = some r := by
    by_cases hpl : p = l <;> simp [hpl, hr]
  simp [deactivateTask, deref, bind, Except.bind, pure, Except.pure, Sched.setNext_eq,
    Sched.setPrev_eq, hl, hr, hread]

/-! ## The ring -/

/-- The run queue is a ring of `nr_running` tasks, the seed and then `cells`. -/
structure Queued (s : Sched) (seed : TaskAddr) (cells : List TaskAddr) : Prop where
  head : s.rq.head = some seed
  nrRunning : s.rq.nrRunning = cells.length + 1
  ring : Ring s.next s.prev seed cells

namespace Queued

variable {s s' : Sched} {seed p : TaskAddr} {cells : List TaskAddr}

theorem congr (h : Queued s seed cells) (hrq : s'.rq = s.rq) (hnext : s'.next = s.next)
    (hprev : s'.prev = s.prev) : Queued s' seed cells where
  head := by rw [hrq, h.head]
  nrRunning := by rw [hrq, h.nrRunning]
  ring := by rw [hnext, hprev]; exact h.ring

theorem seed_notMem (h : Queued s seed cells) : seed ∉ cells :=
  (List.nodup_cons.mp h.ring.nodup).1

theorem boot (s : Sched) (seed : TaskAddr) : Queued (boot s seed) seed [] where
  head := rfl
  nrRunning := rfl
  ring := by
    rw [Schedule.boot, initschedule_eq]
    exact ring_single (by simp [Sched.next, Sched.relink]) (by simp [Sched.prev, Sched.relink])

theorem enqueue (h : Queued s seed cells) (hp : p ∉ seed :: cells) :
    ∃ next prev,
      enqueue s p = .ok ((stamp (s.relink next prev) p).count (s.rq.nrRunning + 1)) ∧
      Queued ((stamp (s.relink next prev) p).count (s.rq.nrRunning + 1)) seed (p :: cells) ∧
      ∀ u, u ∉ seed :: p :: cells → next u = s.next u ∧ prev u = s.prev u := by
  obtain ⟨n, hn, hnext, -⟩ := h.ring.next_of_mem (List.mem_cons_self : seed ∈ seed :: cells)
  have hpn : p ≠ n := fun heq => hp (heq ▸ hn)
  refine ⟨_, _, enqueue_eq h.head hnext hpn, ⟨h.head, ?_, ?_⟩, ?_⟩
  · simp [Sched.count, h.nrRunning]
  · simpa using h.ring.insert hp hnext
  · intro u hu
    have hun : u ≠ n := fun heq => hu (by simp_all)
    simp only [List.mem_cons, not_or] at hu
    simp [hu.1, hu.2.1, hun]

theorem deactivateTask (h : Queued s seed cells) (hp : p ∈ cells) :
    ∃ next prev,
      deactivateTask s p = .ok ((s.relink next prev).count (s.rq.nrRunning - 1)) ∧
      Queued ((s.relink next prev).count (s.rq.nrRunning - 1)) seed (cells.erase p) ∧
      (next p = none ∧ prev p = none) ∧
      ∀ u, u ∉ seed :: cells → next u = s.next u ∧ prev u = s.prev u := by
  have hmem : p ∈ seed :: cells := List.mem_cons_of_mem _ hp
  obtain ⟨l, hl, hprev, hnextl⟩ := h.ring.prev_of_mem hmem
  obtain ⟨r, hr, hnext, -⟩ := h.ring.next_of_mem hmem
  refine ⟨_, _, deactivateTask_eq hprev hnext, ⟨h.head, ?_, ?_⟩, by simp, ?_⟩
  · have hpos := List.length_pos_of_mem hp
    simp [Sched.count, h.nrRunning, List.length_erase_of_mem hp]
    omega
  · simpa using h.ring.remove hp hprev hnext
  · intro u hu
    have hul : u ≠ l := fun heq => hu (heq ▸ hl)
    have hur : u ≠ r := fun heq => hu (heq ▸ hr)
    have hup : u ≠ p := fun heq => hu (heq ▸ hmem)
    simp [hul, hur, hup]

end Queued

end Ece318.Schedule
