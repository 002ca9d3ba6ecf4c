import Mathlib.Data.List.Nodup
import Mathlib.Logic.Function.Basic

/-!
# Circular doubly linked lists

Cells hold nullable links to the next and to the previous cell.  A ring is a
head and the list of the other cells in the order of the `next` links.  The
library inserts a cell behind the head, takes a cell out, and shows that a loop
that follows `next` until it is back at the head visits the list.
-/

namespace Ece318.Foundation

section

variable {ν : Type} (next prev : ν → Option ν)

/-- The links lead from `a` over `cells` to `b`, and back. -/
def Linked : ν → List ν → ν → Prop
  | a, [], b => next a = some b ∧ prev b = some a
  | a, c :: cells, b => next a = some c ∧ prev c = some a ∧ Linked c cells b

structure Ring (head : ν) (cells : List ν) : Prop where
  nodup : (head :: cells).Nodup
  linked : Linked next prev head cells head

def follow : ν → Nat → Option ν
  | a, 0 => some a
  | a, count + 1 => (next a).bind fun b => follow b count

variable {next prev} {next' prev' : ν → Option ν} {a b c head : ν} {cells : List ν}

theorem linked_append {before after : List ν} :
    Linked next prev a (before ++ c :: after) b ↔
      Linked next prev a before c ∧ Linked next prev c after b := by
  induction before generalizing a with
  | nil => simp [Linked, and_assoc]
  | cons d before ih => simp [Linked, ih, and_assoc]

theorem Linked.congr (h : Linked next prev a cells b)
    (hnext : ∀ u ∈ a :: cells, next' u = next u)
    (hprev : ∀ u ∈ cells ++ [b], prev' u = prev u) : Linked next' prev' a cells b := by
  induction cells generalizing a with
  | nil =>
      rw [Linked, hnext a (by simp), hprev b (by simp)]
      exact h
  | cons c cells ih =>
      rw [Linked, hnext a (by simp), hprev c (by simp)]
      refine ⟨h.1, h.2.1, ih h.2.2 ?_ ?_⟩
      · intro u hu
        exact hnext u (List.mem_cons_of_mem _ hu)
      · intro u hu
        exact hprev u (List.mem_cons_of_mem _ hu)

theorem Linked.first (h : Linked next prev a cells b) :
    ∃ u ∈ cells ++ [b], next a = some u ∧ prev u = some a := by
  cases cells with
  | nil => exact ⟨b, by simp, h⟩
  | cons c cells => exact ⟨c, by simp, h.1, h.2.1⟩

theorem Linked.last (h : Linked next prev a cells b) :
    ∃ u ∈ a :: cells, next u = some b ∧ prev b = some u := by
  induction cells generalizing a with
  | nil => exact ⟨a, by simp, h⟩
  | cons c cells ih =>
      obtain ⟨u, hu, hlinks⟩ := ih h.2.2
      exact ⟨u, List.mem_cons_of_mem _ hu, hlinks⟩

theorem Linked.next_of_mem (h : Linked next prev a cells b) {u : ν} (hu : u ∈ a :: cells) :
    ∃ v ∈ cells ++ [b], next u = some v ∧ prev v = some u := by
  induction cells generalizing a with
  | nil =>
      obtain rfl : u = a := by simpa using hu
      exact h.first
  | cons c cells ih =>
      rcases List.mem_cons.mp hu with rfl | hu
      · exact h.first
      · obtain ⟨v, hv, hlinks⟩ := ih h.2.2 hu
        exact ⟨v, List.mem_cons_of_mem _ hv, hlinks⟩

theorem Linked.prev_of_mem (h : Linked next prev a cells b) {u : ν} (hu : u ∈ cells ++ [b]) :
    ∃ v ∈ a :: cells, prev u = some v ∧ next v = some u := by
  induction cells generalizing a with
  | nil =>
      obtain rfl : u = b := by simpa using hu
      exact ⟨a, by simp, h.2, h.1⟩
  | cons c cells ih =>
      rcases List.mem_cons.mp hu with rfl | hu
      · exact ⟨a, by simp, h.2.1, h.1⟩
      · obtain ⟨v, hv, hlinks⟩ := ih h.2.2 hu
        exact ⟨v, List.mem_cons_of_mem _ hv, hlinks⟩

theorem Linked.follow_eq (h : Linked next prev a cells b) {count : Nat}
    (hcount : count ≤ cells.length) : follow next a count = (a :: cells)[count]? := by
  induction cells generalizing a count with
  | nil =>
      obtain rfl : count = 0 := by simpa using hcount
      rfl
  | cons c cells ih =>
      cases count with
      | zero => rfl
      | succ count =>
          rw [follow, h.1, Option.bind_some, ih h.2.2 (by simpa using hcount)]
          rfl

theorem Linked.follow_end (h : Linked next prev a cells b) :
    follow next a (cells.length + 1) = some b := by
  induction cells generalizing a with
  | nil => simp [follow, h.1]
  | cons c cells ih =>
      rw [List.length_cons, follow, h.1, Option.bind_some, ih h.2.2]

namespace Ring

theorem next_of_mem (h : Ring next prev head cells) {u : ν} (hu : u ∈ head :: cells) :
    ∃ v ∈ head :: cells, next u = some v ∧ prev v = some u := by
  obtain ⟨v, hv, hlinks⟩ := h.linked.next_of_mem hu
  exact ⟨v, by simpa [or_comm] using hv, hlinks⟩

theorem prev_of_mem (h : Ring next prev head cells) {u : ν} (hu : u ∈ head :: cells) :
    ∃ v ∈ head :: cells, prev u = some v ∧ next v = some u :=
  h.linked.prev_of_mem (by simpa [or_comm] using hu)

end Ring

theorem ring_single (hnext : next head = some head) (hprev : prev head = some head) :
    Ring next prev head [] :=
  ⟨by simp, hnext, hprev⟩

/-! ## Insertion and removal -/

variable [DecidableEq ν]

theorem Ring.insert (h : Ring next prev head cells) {p n : ν} (hp : p ∉ head :: cells)
    (hn : next head = some n) :
    Ring (Function.update (Function.update next p (some n)) head (some p))
      (Function.update (Function.update prev p (some head)) n (some p)) head (p :: cells) := by
  obtain ⟨hhead, hcells⟩ : p ≠ head ∧ p ∉ cells := by simpa using hp
  have hnodup := h.nodup
  refine ⟨?_, ?_⟩
  · simp_all [Ne.symm hhead]
  cases cells with
  | nil =>
      -- the head is its own neighbour
      obtain rfl : n = head := by simpa [hn] using h.linked.1
      simp [Linked, hhead]
  | cons c cells =>
      obtain rfl : n = c := by simpa [hn] using h.linked.1
      have hpn : p ≠ n := fun heq => hcells (by simp [heq])
      refine ⟨by simp, by simp [hpn], by simp [hhead], by simp, ?_⟩
      have hrest := h.linked.2.2
      simp only [List.nodup_cons, List.mem_cons, not_or] at hnodup hcells
      refine hrest.congr (fun u hu => ?_) (fun u hu => ?_)
      · have hup : u ≠ p := by rintro rfl; simp_all
        have huh : u ≠ head := by rintro rfl; simp_all
        simp [hup, huh]
      · have hup : u ≠ p := by rintro rfl; simp_all
        have hun : u ≠ n := by rintro rfl; simp_all
        simp [hup, hun]

theorem Linked.unlink {before after : List ν} {p l r : ν}
    (hbefore : Linked next prev a before p) (hafter : Linked next prev p after b)
    (hnodup : (a :: before ++ p :: after).Nodup) (hb : b ∉ before ++ p :: after)
    (hl : prev p = some l) (hr : next p = some r) :
    Linked (Function.update (Function.update next l (some r)) p none)
      (Function.update (Function.update prev r (some l)) p none) a (before ++ after) b := by
  induction before generalizing a with
  | nil =>
      obtain rfl : l = a := by simpa [hl] using hbefore.2
      have hlp : l ≠ p := by rintro rfl; simp at hnodup
      cases after with
      | nil =>
          obtain rfl : r = b := by simpa [hr] using hafter.1
          have hrp : r ≠ p := by rintro rfl; simp at hb
          simp [Linked, hlp, hrp]
      | cons c after =>
          obtain rfl : r = c := by simpa [hr] using hafter.1
          have hrp : r ≠ p := by rintro rfl; simp at hnodup
          refine ⟨by simp [hlp], by simp [hrp], hafter.2.2.congr ?_ ?_⟩
          · intro u hu
            have hul : u ≠ l := by rintro rfl; simp_all
            have hup : u ≠ p := by rintro rfl; simp_all
            simp [hul, hup]
          · intro u hu
            have hur : u ≠ r := by rintro rfl; simp_all
            have hup : u ≠ p := by rintro rfl; simp_all
            simp [hur, hup]
  | cons c before ih =>
      obtain ⟨hnext, hprev, hbefore⟩ := hbefore
      have htail := ih hbefore (List.nodup_cons.mp hnodup).2
        (fun h => hb (List.mem_cons_of_mem _ h))
      -- the neighbours of `p` lie behind `a` and are not `c`
      obtain ⟨l', hl', -, hprevp⟩ := hbefore.last
      obtain rfl : l' = l := by simpa [hl] using hprevp.symm
      obtain ⟨r', hr', hnextp, -⟩ := hafter.first
      obtain rfl : r' = r := by simpa [hr] using hnextp.symm
      have hal : a ≠ l' := by rintro rfl; simp_all
      have hap : a ≠ p := by rintro rfl; simp at hnodup
      have hcp : c ≠ p := by rintro rfl; simp at hnodup
      have hcr : c ≠ r' := by rintro rfl; simp_all
      exact ⟨by simp [hal, hap, hnext], by simp [hcr, hcp, hprev], htail⟩

theorem Ring.remove (h : Ring next prev head cells) {p l r : ν} (hp : p ∈ cells)
    (hl : prev p = some l) (hr : next p = some r) :
    Ring (Function.update (Function.update next l (some r)) p none)
      (Function.update (Function.update prev r (some l)) p none) head (cells.erase p) := by
  obtain ⟨before, after, hnotin, rfl, herase⟩ := List.exists_erase_eq hp
  obtain ⟨hbefore, hafter⟩ := linked_append.mp h.linked
  rw [herase]
  refine ⟨?_, hbefore.unlink hafter h.nodup ?_ hl hr⟩
  · have hsub : (head :: (before ++ after)).Sublist (head :: (before ++ p :: after)) :=
      ((List.sublist_cons_self p after).append_left before).cons_cons head
    exact h.nodup.sublist hsub
  · exact (List.nodup_cons.mp h.nodup).1

end

/-! ## The loop over a ring -/

section

variable {ν σ ε : Type} [DecidableEq ν] (next : σ → ν → Option ν) (head : σ → Option ν)
  (null : ε) (body : σ → ν → Except ε σ)

/--
`while (i < count && cell != head) { body; cell = cell->next; i++; }`, where
the links are read in the state that the body has left.
-/
def visit : Nat → Option ν → σ → Except ε σ
  | 0, _, state => .ok state
  | remaining + 1, cell, state =>
      if cell = head state then .ok state
      else match cell with
        | none => .error null
        | some cell =>
            match body state cell with
            | .error fault => .error fault
            | .ok state' => visit remaining (next state' cell) state'

variable {next head null body}

theorem visit_linked (hbody : ∀ state cell state', body state cell = .ok state' →
      next state' = next state ∧ head state' = head state)
    {state : σ} {prev : ν → Option ν} {a b : ν} {cell : Option ν} {cells : List ν}
    {remaining : Nat} (hcell : next state a = cell)
    (hlinked : Linked (next state) prev a cells b) (hhead : head state = some b)
    (hb : b ∉ cells) (hremaining : cells.length ≤ remaining) :
    visit next head null body remaining cell state = cells.foldlM body state := by
  subst cell
  induction cells generalizing state a remaining with
  | nil =>
      rw [hlinked.1]
      cases remaining with
      | zero => rfl
      | succ remaining => simp [visit, hhead, pure, Except.pure]
  | cons c cells ih =>
      obtain ⟨remaining, rfl⟩ : ∃ m, remaining = m + 1 :=
        ⟨remaining - 1, by simp at hremaining; omega⟩
      have hcb : ¬ some c = head state := by
        rw [hhead]
        rintro heq
        exact hb (by simp [Option.some.inj heq])
      rw [hlinked.1, List.foldlM_cons, visit, if_neg hcb]
      cases hok : body state c with
      | error fault => rfl
      | ok state' =>
          obtain ⟨hnext, hhead'⟩ := hbody _ _ _ hok
          have htail : Linked (next state') prev c cells b := by
            rw [hnext]
            exact hlinked.2.2
          exact ih htail (by rw [hhead', hhead]) (fun h => hb (List.mem_cons_of_mem _ h))
            (by simpa using hremaining)

end

end Ece318.Foundation
