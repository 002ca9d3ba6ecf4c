import Ece318.Schedule.History

/-!
# The run queue as a ring

Any order of insertions and removals, on tasks with any contents, leaves a ring:
`next` leads from the head over every queued task and back in `nr_running`
steps, `prev` leads the other way, and a removed task is linked to nothing.
-/

namespace Ece318.Schedule

open Ece318.Foundation

/-- The pointer that `count` steps along `next` lead to from `rq->head`. -/
def Sched.walk (s : Sched) (count : Nat) : Option TaskAddr :=
  s.rq.head.bind fun head => follow s.next head count

def Sched.visited (s : Sched) : List (Option TaskAddr) :=
  (List.range s.rq.nrRunning).map s.walk

/-- The run queue of a state with a given history. -/
structure RingOf (seed : TaskAddr) (w : Watched) : Prop where
  head : w.1.rq.head = some seed
  nodup : w.1.visited.Nodup
  notNull : none ∉ w.1.visited
  mem_iff : ∀ p, some p ∈ w.1.visited ↔ p = seed ∨ p ∈ w.2.queued
  back : w.1.walk w.1.rq.nrRunning = w.1.rq.head
  prev_next : ∀ p, some p ∈ w.1.visited → ∃ n, w.1.next p = some n ∧ w.1.prev n = some p
  next_prev : ∀ p, some p ∈ w.1.visited → ∃ q, w.1.prev p = some q ∧ w.1.next q = some p
  removed : ∀ p ∈ w.2.removed, w.1.next p = none ∧ w.1.prev p = none

/-- Insertions of tasks that are not queued and removals of queued ones, at any time. -/
def QueueOp (seed : TaskAddr) : Watched → Action → Prop
  | (_, h), .wakeUpNewTask p => p ∉ seed :: h.queued
  | (_, h), .activateTask p => p ∉ seed :: h.queued
  | (_, h), .deactivateTask p => p ∈ h.queued
  | _, .tick _ => True
  | _, .schedFork _ => False
  | _, .schedule => False

instance (seed : TaskAddr) : ∀ w action, Decidable (QueueOp seed w action)
  | (_, h), .wakeUpNewTask p => inferInstanceAs (Decidable (p ∉ seed :: h.queued))
  | (_, h), .activateTask p => inferInstanceAs (Decidable (p ∉ seed :: h.queued))
  | (_, h), .deactivateTask p => inferInstanceAs (Decidable (p ∈ h.queued))
  | _, .tick _ => .isTrue trivial
  | _, .schedFork _ => .isFalse id
  | _, .schedule => .isFalse id

section

variable {s : Sched} {h : History} {seed : TaskAddr} {cells : List TaskAddr}

theorem visited_eq (hq : Queued s seed cells) : s.visited = (seed :: cells).map some := by
  apply List.ext_getElem?
  intro i
  rw [Sched.visited, hq.nrRunning, List.getElem?_map, List.getElem?_map]
  by_cases hi : i < cells.length + 1
  · have hwalk : s.walk i = (seed :: cells)[i]? := by
      rw [Sched.walk, hq.head]
      exact hq.ring.linked.follow_eq (by omega)
    have hget : (seed :: cells)[i]? = some ((seed :: cells)[i]) :=
      List.getElem?_eq_getElem (by simpa using hi)
    rw [List.getElem?_range hi, Option.map_some, hwalk, hget, Option.map_some]
  · have hrange : (List.range (cells.length + 1))[i]? = none :=
      List.getElem?_eq_none (by simpa using Nat.le_of_not_lt hi)
    have hcells : (seed :: cells)[i]? = none :=
      List.getElem?_eq_none (by simpa using Nat.le_of_not_lt hi)
    rw [hrange, hcells]
    rfl

theorem mem_visited (hq : Queued s seed cells) {p : TaskAddr} :
    some p ∈ s.visited ↔ p ∈ seed :: cells := by
  rw [visited_eq hq]
  simp

theorem Unlinked.ringOf (hu : Unlinked seed (s, h)) : RingOf seed (s, h) where
  head := hu.queued.head
  nodup := by
    rw [visited_eq hu.queued]
    exact hu.queued.ring.nodup.map fun _ _ => Option.some.inj
  notNull := by
    rw [visited_eq hu.queued]
    simp
  mem_iff := by
    intro p
    rw [mem_visited hu.queued, List.mem_cons]
  back := by
    have hhead : s.rq.head = some seed := hu.queued.head
    have hcount : s.rq.nrRunning = h.queued.length + 1 := hu.queued.nrRunning
    rw [Sched.walk, hhead, hcount]
    exact hu.queued.ring.linked.follow_end
  prev_next := by
    intro p hp
    obtain ⟨n, -, hlinks⟩ := hu.queued.ring.next_of_mem ((mem_visited hu.queued).mp hp)
    exact ⟨n, hlinks⟩
  next_prev := by
    intro p hp
    obtain ⟨q, -, hlinks⟩ := hu.queued.ring.prev_of_mem ((mem_visited hu.queued).mp hp)
    exact ⟨q, hlinks⟩
  removed := fun p hp => (hu.removed p hp).2

theorem unlinked_step {w : Watched} {action : Action} (hu : Unlinked seed w)
    (hop : QueueOp seed w action) :
    ∃ w', stepWatched w action = .ok w' ∧ Unlinked seed w' := by
  obtain ⟨s, h⟩ := w
  cases action with
  | schedFork p => exact absurd hop id
  | wakeUpNewTask p =>
      obtain ⟨next, prev, nrRunning, hok, hu'⟩ := hu.enqueue hop
      exact ⟨_, watch_eq_ok.mpr ⟨_, hok, rfl⟩, hu'⟩
  | activateTask p =>
      obtain ⟨next, prev, nrRunning, hok, hu'⟩ := hu.enqueue hop
      exact ⟨_, watch_eq_ok.mpr ⟨_, hok, rfl⟩, hu'⟩
  | deactivateTask p =>
      obtain ⟨next, prev, nrRunning, hok, hu'⟩ := hu.deactivateTask hop
      exact ⟨_, watch_eq_ok.mpr ⟨_, hok, rfl⟩, hu'⟩
  | tick now =>
      exact ⟨_, watch_eq_ok.mpr ⟨_, rfl, rfl⟩, hu.congr rfl rfl rfl rfl rfl⟩
  | schedule => exact absurd hop id

end

/-- After any insertions and removals the run queue is the ring of what is queued. -/
theorem ringOf_run (s : Sched) (seed : TaskAddr) {actions : List Action}
    (hops : Along stepWatched (QueueOp seed) (start s seed) actions) :
    ∃ w, run stepWatched (start s seed) actions = .ok w ∧ RingOf seed w := by
  obtain ⟨w, hrun, hw⟩ := run_invariant (Unlinked seed)
    (fun _ _ hu hop => unlinked_step hu hop) (Unlinked.start s seed) hops
  exact ⟨w, hrun, hw.ringOf⟩

theorem ringOf_run_blank :
    ∃ w, run stepWatched (start blank 0) [.wakeUpNewTask 1, .activateTask 2, .tick 7,
      .deactivateTask 1, .wakeUpNewTask 3, .activateTask 1, .deactivateTask 2] = .ok w ∧
      RingOf 0 w :=
  ringOf_run blank 0 (by decide)

end Ece318.Schedule
