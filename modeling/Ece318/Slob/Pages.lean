import Ece318.Slob.Owners

/-!
# No page is kept for nothing

A page goes back to the kernel with the last of its blocks, so SLOB never holds more
pages than it has handed out blocks, and when the last block comes back it holds none.
-/

namespace Ece318.Slob

open Ece318.Foundation

def Occupied (heap : Heap) : Prop :=
  ∀ sp ∈ heap.held, ∃ a ∈ heap.owned, virtToPage a.addr = sp

section

variable {kernel : Kernel (Nat → Int)} {heap heap' : Heap} {blocks : Nat → List Block}
  {a : Allocation} {r : SlobRequest}

namespace Occupied

theorem length_le (h : Occupied heap) (hnodup : heap.held.Nodup) :
    heap.held.length ≤ heap.owned.length := by
  have hsubset : heap.held ⊆ heap.owned.map fun a => virtToPage a.addr :=
    fun sp hsp => List.mem_map.mpr (h sp hsp)
  have hsubperm := List.subperm_of_subset hnodup hsubset
  simpa using hsubperm.length_le

theorem alloc (h : Occupied heap) {page : Option Nat}
    (hok : serveHeap kernel heap (.alloc r page) = .ok heap') : Occupied heap' := by
  rw [serveHeap, bind_eq_ok] at hok
  obtain ⟨⟨b, st⟩, -, hok⟩ := hok
  cases b with
  | none =>
      cases hok
      exact h
  | some b =>
      cases hok
      intro sp hsp
      by_cases hb : virtToPage b = sp
      · exact ⟨_, List.mem_cons_self, hb⟩
      · have hold : sp ∈ heap.held := by
          simp only at hsp
          split at hsp
          · exact hsp
          · exact (List.mem_cons.mp hsp).resolve_left (Ne.symm hb)
        obtain ⟨a, ha, hpage⟩ := h sp hold
        exact ⟨a, List.mem_cons_of_mem _ ha, hpage⟩

theorem free (h : Occupied heap) (ho : Owners heap blocks) (ha : a ∈ heap.owned)
    (after : Allocator (Nat → Int)) : Occupied ⟨after,
      if FreesPage heap.st a.addr a.size then heap.held.erase (virtToPage a.addr) else heap.held,
      heap.owned.erase a⟩ := by
  intro sp hsp
  by_cases hpage : virtToPage a.addr = sp
  · subst sp
    have hstays : ¬ FreesPage heap.st a.addr a.size := by
      intro hfrees
      simp only [if_pos hfrees] at hsp
      exact ho.nodup.not_mem_erase hsp
    by_contra hnone
    refine hstays ?_
    have hothers : ∀ a' ∈ heap.owned.erase a, virtToPage a'.addr ≠ virtToPage a.addr :=
      fun a' ha' heq => hnone ⟨a', ha', heq⟩
    have haccount := ho.account _ (ho.placed a ha).isHeld
    rw [Heap.lent_erase ha, if_pos rfl, Heap.lent_eq_zero hothers, Int.add_zero] at haccount
    exact haccount
  · have hold : sp ∈ heap.held := by
      simp only at hsp
      split at hsp
      · exact List.mem_of_mem_erase hsp
      · exact hsp
    obtain ⟨a', ha', hpage'⟩ := h sp hold
    have hne : a' ≠ a := fun heq => hpage (heq ▸ hpage')
    exact ⟨a', (List.mem_erase_of_ne hne).mpr ha', hpage'⟩

end Occupied

theorem serveHeap_occupied (hk : kernel.Encodes) (hlaw : kernel.Lawful) (ho : Owners heap blocks)
    (h : Occupied heap) {call : HeapCall} (hlegal : LegalHeap kernel heap call) :
    ∃ heap', serveHeap kernel heap call = .ok heap' ∧
      (∃ blocks', Owners heap' blocks') ∧ Occupied heap' := by
  obtain ⟨heap', blocks', hok, ho', -⟩ := serveHeap_step hk hlaw ho hlegal
  refine ⟨heap', hok, ⟨blocks', ho'⟩, ?_⟩
  cases call with
  | alloc r page => exact h.alloc hok
  | free a after =>
      cases hok
      exact h.free ho hlegal.1 after
  | store cell value =>
      cases hok
      exact h

end

/--
SLOB leaks no page: after any run every page it holds has a block that is handed out,
and when nothing is handed out there is no page left, on a list or off it.
-/
theorem heap_pages (kernel : Kernel (Nat → Int)) (hk : kernel.Encodes) (hlaw : kernel.Lawful)
    (mem : Nat → Int) (page : Nat → Page) {calls : List HeapCall}
    (hlegal : Along (serveHeap kernel) (LegalHeap kernel) (bootHeap mem page) calls) :
    ∃ heap, run (serveHeap kernel) (bootHeap mem page) calls = .ok heap ∧
      (∀ sp ∈ heap.held, ∃ a ∈ heap.owned, virtToPage a.addr = sp) ∧
      heap.held.length ≤ heap.owned.length ∧
      (heap.owned = [] → heap.held = [] ∧ heap.st.listed = [] ∧ calcFreeSpace heap.st = 0) := by
  have hboot : Occupied (bootHeap mem page) := fun sp hsp => absurd hsp List.not_mem_nil
  obtain ⟨heap, hrun, ⟨blocks, ho⟩, hoccupied⟩ := run_invariant
    (fun heap => (∃ blocks, Owners heap blocks) ∧ Occupied heap)
    (fun heap call hheap hlegal => hheap.1.elim fun _ ho =>
      serveHeap_occupied hk hlaw ho hheap.2 hlegal)
    ⟨⟨_, bootHeap_owners mem page⟩, hboot⟩ hlegal
  have hlength := hoccupied.length_le ho.nodup
  refine ⟨heap, hrun, hoccupied, hlength, fun hnone => ?_⟩
  have hheld : heap.held = [] := by
    rw [hnone] at hlength
    exact List.length_eq_zero_iff.mp (Nat.le_zero.mp hlength)
  have hconserves := ho.conserves
  rw [hnone, hheld] at hconserves
  refine ⟨hheld, ?_, by simpa using hconserves⟩
  refine List.eq_nil_iff_forall_not_mem.mpr fun sp hsp => ?_
  have hmem := ho.kept.isHeld sp hsp
  rw [hheld] at hmem
  exact List.not_mem_nil hmem

def givenBack (st : Allocator (Nat → Int)) : List HeapCall :=
  [.free ⟨4096, 2048⟩ (giveBack st ⟨4096, 2048⟩),
    .free ⟨6144, 2048⟩ (withoutPage sampleKernel (giveBack st ⟨4096, 2048⟩) 1 6144)]

theorem legal_givenBack {heap : Heap} (howned : heap.owned = [⟨6144, 2048⟩, ⟨4096, 2048⟩])
    (hlisted : heap.st.listed = []) (hunits : (heap.st.page 1).units = 0) :
    Along (serveHeap sampleKernel) (LegalHeap sampleKernel) heap (givenBack heap.st) := by
  have hpage : FreesPage (giveBack heap.st ⟨4096, 2048⟩) 6144 2048 := by
    show (Function.update heap.st.page 1 _ 1).units + 1024 = 2048
    rw [Function.update_self]
    rfl
  refine ⟨legal_giveBack howned hlisted hunits, ?_⟩
  rintro heap' ⟨⟩
  refine ⟨⟨by simp [howned], ?_⟩, fun _ _ => trivial⟩
  rw [Freed, if_pos hpage]
  rfl

theorem heap_pages_halves :
    ∃ heap, run (serveHeap sampleKernel) (bootHeap (fun _ => 0) samplePage) halves = .ok heap ∧
      heap.owned = [⟨6144, 2048⟩, ⟨4096, 2048⟩] ∧ (∀ sp ∈ heap.held, sp = 1) ∧
      ∃ heap', run (serveHeap sampleKernel) (bootHeap (fun _ => 0) samplePage)
          (halves ++ givenBack heap.st) = .ok heap' ∧
        heap'.held = [] ∧ heap'.st.listed = [] ∧ calcFreeSpace heap'.st = 0 := by
  obtain ⟨heap, hrun, howned, hlisted, hunits⟩ := run_halves
  have hlegal : Along (serveHeap sampleKernel) (LegalHeap sampleKernel)
      (bootHeap (fun _ => 0) samplePage) (halves ++ givenBack heap.st) :=
    (along_append hrun).mpr ⟨legal_halves, legal_givenBack howned hlisted hunits⟩
  obtain ⟨_, hrun', hoccupied, -⟩ := heap_pages sampleKernel sampleKernel_encodes
    sampleKernel_lawful (fun _ => 0) samplePage legal_halves
  obtain rfl := Except.ok.inj (hrun.symm.trans hrun')
  obtain ⟨heap', hrun', -, -, hempty⟩ := heap_pages sampleKernel sampleKernel_encodes
    sampleKernel_lawful (fun _ => 0) samplePage hlegal
  refine ⟨heap, hrun, howned, fun sp hsp => ?_, heap', hrun', hempty ?_⟩
  · obtain ⟨a, ha, rfl⟩ := hoccupied sp hsp
    rw [howned] at ha
    rcases List.mem_pair.mp ha with rfl | rfl <;> rfl
  · rw [run_append _ hrun] at hrun'
    cases hrun'
    simp [howned]

end Ece318.Slob
