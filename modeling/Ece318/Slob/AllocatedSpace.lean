import Mathlib.Algebra.BigOperators.Group.List.Basic
import Ece318.Slob.FreeSpace

/-!
# The reported allocated space

`slob_new_pages` and `slob_free_pages` add and take away the size of a pointer
for a group of pages of any order.
-/

namespace Ece318.Slob

open Ece318.Foundation

/-- `slob_new_pages(gfp, order, node)` with what it is answered, and `slob_free_pages(b, order)`. -/
inductive PagesCall where
  | newPages (order : Nat) (page : Option Nat)
  | freePages (b order : Nat)
  deriving DecidableEq, Repr

structure PageGroup where
  b : Nat
  order : Nat
  deriving DecidableEq, Repr

section

variable {Mem : Type}

def servePages (st : Allocator Mem) : PagesCall → Except Fault (Allocator Mem)
  | .newPages order page => .ok (slobNewPages st order page).2
  | .freePages b order => .ok (slobFreePages st b order)

def recordGroup (groups : List PageGroup) (st : Allocator Mem) (call : PagesCall)
    (_ : Allocator Mem) : List PageGroup :=
  match call with
  | .newPages order page =>
      match (slobNewPages st order page).1 with
      | none => groups
      | some b => ⟨b, order⟩ :: groups
  | .freePages b order => groups.erase ⟨b, order⟩

/-- The allocator beside the groups that it holds. -/
def stepPages : Allocator Mem × List PageGroup → PagesCall →
    Except Fault (Allocator Mem × List PageGroup) :=
  watch servePages recordGroup

def Matched (state : Allocator Mem × List PageGroup) : PagesCall → Prop
  | .newPages _ _ => True
  | .freePages b order => ⟨b, order⟩ ∈ state.2

instance (state : Allocator Mem × List PageGroup) (call : PagesCall) :
    Decidable (Matched state call) :=
  match call with
  | .newPages _ _ => .isTrue trivial
  | .freePages b order => inferInstanceAs (Decidable (⟨b, order⟩ ∈ state.2))

def bytesHeld (groups : List PageGroup) : Int :=
  (groups.map fun group => ((PAGE_SIZE <<< group.order : Nat) : Int)).sum

/-- What the counter is for, over one run from boot. -/
structure ReportsPages (mem : Mem) (page : Nat → Page) (calls : List PagesCall) : Prop where
  current : ∀ first second, calls = first ++ second →
    ∃ state, run stepPages (boot mem page, []) first = .ok state ∧
      returnAllocatedSpace state.1 = bytesHeld state.2
  nonneg : ∀ first second, calls = first ++ second →
    ∃ state, run stepPages (boot mem page, []) first = .ok state ∧
      0 ≤ returnAllocatedSpace state.1
  returns : ∀ first middle second, calls = first ++ middle ++ second →
    ∃ before after, run stepPages (boot mem page, []) first = .ok before ∧
      run stepPages (boot mem page, []) (first ++ middle) = .ok after ∧
      (after.2.Perm before.2 → returnAllocatedSpace after.1 = returnAllocatedSpace before.1)

/-! ## What the counter counts -/

def CountsGroups (state : Allocator Mem × List PageGroup) : Prop :=
  returnAllocatedSpace state.1 = sizeofPointer * state.2.length

theorem stepPages_ok (state : Allocator Mem × List PageGroup) (call : PagesCall) :
    ∃ state', stepPages state call = .ok state' := by
  cases call <;> exact ⟨_, rfl⟩

theorem stepPages_counts (state : Allocator Mem × List PageGroup) (call : PagesCall)
    (hcounts : CountsGroups state) (hmatched : Matched state call) :
    ∃ state', stepPages state call = .ok state' ∧ CountsGroups state' := by
  cases call with
  | newPages order page =>
      cases page with
      | none => exact ⟨_, rfl, hcounts⟩
      | some page =>
          refine ⟨_, rfl, ?_⟩
          unfold CountsGroups returnAllocatedSpace sizeofPointer at hcounts ⊢
          simp only [slobNewPages, sizeofPointer, recordGroup, List.length_cons]
          push_cast
          omega
  | freePages b order =>
      have hmem : ⟨b, order⟩ ∈ state.2 := hmatched
      have hlength := List.length_erase_of_mem hmem
      have hpos := List.length_pos_of_mem hmem
      refine ⟨_, rfl, ?_⟩
      unfold CountsGroups returnAllocatedSpace sizeofPointer at hcounts ⊢
      simp only [slobFreePages, sizeofPointer, recordGroup, hlength]
      omega

theorem run_counts (mem : Mem) (page : Nat → Page) {calls : List PagesCall}
    (hmatched : Along stepPages Matched (boot mem page, []) calls) :
    ∃ state, run stepPages (boot mem page, []) calls = .ok state ∧ CountsGroups state :=
  run_invariant CountsGroups stepPages_counts rfl hmatched

theorem allocatedSpace_nonneg {state : Allocator Mem × List PageGroup}
    (h : CountsGroups state) : 0 ≤ returnAllocatedSpace state.1 := by
  rw [h]
  exact mul_nonneg (by decide) (Int.natCast_nonneg _)

theorem allocatedSpace_of_perm {before after : Allocator Mem × List PageGroup}
    (hbefore : CountsGroups before) (hafter : CountsGroups after)
    (hperm : after.2.Perm before.2) :
    returnAllocatedSpace after.1 = returnAllocatedSpace before.1 := by
  rw [hafter, hbefore, hperm.length_eq]

/-! ## Against the bytes held -/

theorem length_lt_bytesHeld {groups : List PageGroup} (h : groups ≠ []) :
    sizeofPointer * groups.length < bytesHeld groups := by
  have hgroup : ∀ group : PageGroup, (PAGE_SIZE : Int) ≤ (PAGE_SIZE <<< group.order : Nat) := by
    intro group
    rw [Nat.shiftLeft_eq]
    exact_mod_cast Nat.le_mul_of_pos_right PAGE_SIZE (Nat.two_pow_pos group.order)
  have hle : ∀ groups : List PageGroup, (PAGE_SIZE : Int) * groups.length ≤ bytesHeld groups := by
    intro groups
    induction groups with
    | nil => decide
    | cons group groups ih =>
        have hone := hgroup group
        simp only [bytesHeld, List.map_cons, List.sum_cons, List.length_cons] at ih ⊢
        push_cast at hone ih ⊢
        omega
  have hpos := List.length_pos_of_ne_nil h
  have hbytes : 4096 * (groups.length : Int) ≤ bytesHeld groups := hle groups
  show 8 * (groups.length : Int) < bytesHeld groups
  omega

theorem current_iff {state : Allocator Mem × List PageGroup} (h : CountsGroups state) :
    returnAllocatedSpace state.1 = bytesHeld state.2 ↔ state.2 = [] := by
  rw [h]
  constructor
  · intro heq
    by_contra hne
    have hlt := length_lt_bytesHeld hne
    omega
  · intro hnil
    rw [hnil]
    rfl

def Fails (call : PagesCall) : Prop := ∀ order page, call ≠ .newPages order (some page)

theorem stepPages_current (state : Allocator Mem × List PageGroup) (call : PagesCall)
    (hcounts : CountsGroups state) (hcurrent : returnAllocatedSpace state.1 = bytesHeld state.2)
    (hmatched : Matched state call) :
    ∃ state', stepPages state call = .ok state' ∧ CountsGroups state' ∧
      (returnAllocatedSpace state'.1 = bytesHeld state'.2 ↔ Fails call) := by
  rcases stepPages_counts state call hcounts hmatched with ⟨state', hstep, hcounts'⟩
  refine ⟨state', hstep, hcounts', ?_⟩
  rw [current_iff hcounts] at hcurrent
  rw [current_iff hcounts']
  cases call with
  | newPages order page =>
      cases page with
      | none =>
          cases hstep
          exact iff_of_true hcurrent (by simp [Fails])
      | some page =>
          cases hstep
          exact iff_of_false (by simp [recordGroup, slobNewPages]) fun h => h order page rfl
  | freePages b order =>
      rw [Matched, hcurrent] at hmatched
      cases hmatched

end

section

variable {Mem : Type}

/--
From boot, the counter is what it is for exactly if no pages are ever taken: any
group of pages makes it report 8 bytes.
-/
theorem reportsPages_iff (mem : Mem) (page : Nat → Page) (calls : List PagesCall)
    (hmatched : Along stepPages Matched (boot mem page, []) calls) :
    ReportsPages mem page calls ↔ ∀ call ∈ calls, Fails call := by
  have hboot : CountsGroups (boot mem page, []) := rfl
  have hcurrent := forall_prefix_iff_along CountsGroups
    (fun state => returnAllocatedSpace state.1 = bytesHeld state.2) stepPages_current hboot rfl
    hmatched
  rw [along_iff_forall_mem stepPages_ok] at hcurrent
  rw [← hcurrent]
  refine ⟨ReportsPages.current, fun h => ⟨h, ?_, ?_⟩⟩
  · rintro first second rfl
    rcases run_counts mem page hmatched.of_append with ⟨state, hrun, hcounts⟩
    exact ⟨state, hrun, allocatedSpace_nonneg hcounts⟩
  · rintro first middle second rfl
    have hmiddle := hmatched.of_append
    rcases run_counts mem page hmiddle with ⟨after, hafter, hcounts⟩
    rcases run_counts mem page hmiddle.of_append with ⟨before, hbefore, hcounts'⟩
    exact ⟨before, after, hbefore, hafter, allocatedSpace_of_perm hcounts' hcounts⟩

end

/-- Two requests that the page allocator turns down. -/
theorem reportsPages_iff_fails :
    ReportsPages (fun _ : Nat => (0 : Int)) samplePage [.newPages 0 none, .newPages 3 none] :=
  (reportsPages_iff (fun _ : Nat => (0 : Int)) samplePage [.newPages 0 none, .newPages 3 none]
    (by decide)).mpr (by simp [Fails])

/-- One page is taken. -/
theorem newPages_reports_pointer :
    Along stepPages Matched (boot (fun _ : Nat => (0 : Int)) samplePage, [])
        [.newPages 0 (some 1)] ∧
      ∃ state, run stepPages (boot (fun _ : Nat => (0 : Int)) samplePage, [])
          [.newPages 0 (some 1)] = .ok state ∧
        returnAllocatedSpace state.1 = 8 ∧ bytesHeld state.2 = 4096 := by
  decide

end Ece318.Slob
