import Mathlib.Algebra.BigOperators.Group.Finset.Basic
import Ece318.Slob.Conserve

/-!
# Who owns the memory

The callers of SLOB own the blocks they were given and write into them; SLOB owns
the rest of its pages and keeps its free lists there.  Whatever is called in
whatever order, no two blocks overlap, no block overlaps a free one, and what a
caller has stored in its block stays there.
-/

namespace Ece318.Slob

open Ece318.Foundation

structure Allocation where
  addr : Nat
  size : Nat
  deriving DecidableEq, Repr

namespace Allocation

variable (a : Allocation)

def units : Nat := SLOB_UNITS a.size

def stop : Nat := a.addr + SLOB_UNIT * a.units

def Holds (point : Nat) : Prop := a.addr ≤ point ∧ point < a.stop

structure Placed (held : List Nat) : Prop where
  even : SLOB_UNIT ∣ a.addr
  size : BlockSize a.size
  isHeld : virtToPage a.addr ∈ held
  stop_le : a.stop ≤ pageEnd (virtToPage a.addr)

instance (point : Nat) : Decidable (a.Holds point) := inferInstanceAs (Decidable (_ ∧ _))

end Allocation

/-- The allocator with its pages and with the blocks that it has handed out. -/
structure Heap where
  st : Allocator (Nat → Int)
  held : List Nat
  owned : List Allocation

/--
A call of `slob_alloc`, a call of `slob_free` with the state it leaves, and a write
of a caller into its block.
-/
inductive HeapCall where
  | alloc (r : SlobRequest) (page : Option Nat)
  | free (a : Allocation) (after : Allocator (Nat → Int))
  | store (cell : Nat) (value : Int)

section

variable (kernel : Kernel (Nat → Int))

def serveHeap (heap : Heap) : HeapCall → Except Fault Heap
  | .alloc r page => do
      let (b, st) ← slobAlloc kernel (bestFit kernel) heap.st r page
      match b with
      | none => return { heap with st := st }
      | some b =>
          let held :=
            if virtToPage b ∈ heap.held then heap.held else virtToPage b :: heap.held
          return ⟨st, held, ⟨b, r.size⟩ :: heap.owned⟩
  | .free a after =>
      let held :=
        if FreesPage heap.st a.addr a.size then heap.held.erase (virtToPage a.addr) else heap.held
      .ok ⟨after, held, heap.owned.erase a⟩
  | .store cell value =>
      .ok { heap with st := { heap.st with mem := Function.update heap.st.mem cell value } }

def bootHeap (mem : Nat → Int) (page : Nat → Page) : Heap := ⟨boot mem page, [], []⟩

/-! ## `slob_free` -/

/-- The free blocks of a page, which are none when it is on no list. -/
def FreeOn (st : Allocator (Nat → Int)) (sp : Nat) (blocks : List Block) : Prop :=
  if sp ∈ st.listed then PageList st sp blocks else blocks = []

/-- The units of the block are in the list of its page again, and nothing else has changed. -/
structure Returned (st : Allocator (Nat → Int)) (a : Allocation)
    (st' : Allocator (Nat → Int)) : Prop where
  page : ∀ other, other ≠ virtToPage a.addr → st'.page other = st.page other
  units : (st'.page (virtToPage a.addr)).units =
    (if virtToPage a.addr ∈ st.listed then (st.page (virtToPage a.addr)).units else 0) + a.units
  free : if virtToPage a.addr ∈ st.listed then st'.free = st.free else
    ∃ list, st'.free = Function.update st.free list
      (kernel.setSlobPageFree (virtToPage a.addr) (st.free list))
  blocks : ∀ blocks, FreeOn st (virtToPage a.addr) blocks → ∃ blocks',
    PageList st' (virtToPage a.addr) blocks' ∧
    (∀ point, Free blocks' point ↔ Free blocks point ∨ a.Holds point) ∧
    SameOutside blocks' st.mem st'.mem

def withoutPage (st : Allocator (Nat → Int)) (sp b : Nat) : Allocator (Nat → Int) :=
  { slobFreePages st b 0 with
    free := if sp ∈ st.listed then fun list => kernel.clearSlobPageFree sp (st.free list)
      else st.free }

/-- What `slob_free`, which the patch leaves as it is, does with a block. -/
def Freed (st : Allocator (Nat → Int)) (a : Allocation) (st' : Allocator (Nat → Int)) : Prop :=
  if FreesPage st a.addr a.size then st' = withoutPage kernel st (virtToPage a.addr) a.addr
  else Returned kernel st a st'

/-- Requests for a page at most, blocks that are freed by their owners, and writes in place. -/
def LegalHeap (heap : Heap) : HeapCall → Prop
  | .alloc r page => r.Proper ∧ BlockSize r.size ∧
      ∀ sp ∈ page, sp ∉ heap.held ∧ r.Fits (freshBlock sp)
  | .free a after => a ∈ heap.owned ∧ Freed kernel heap.st a after
  | .store cell _ => ∃ a ∈ heap.owned, a.Holds (SLOB_UNIT * cell)

end

/-! ## What every run keeps -/

def Heap.lent (owned : List Allocation) (sp : Nat) : Int :=
  ((owned.filter fun a => virtToPage a.addr = sp).map fun a => (a.units : Int)).sum

/--
The blocks that are handed out lie in pages of the heap, apart from each other and
from the free blocks, and together with the free units they make up each page.
-/
structure Owners (heap : Heap) (blocks : Nat → List Block) : Prop where
  kept : WellKept heap.st heap.held blocks
  nodup : heap.held.Nodup
  units_nonneg : ∀ sp ∈ heap.held, 0 ≤ (heap.st.page sp).units
  placed : ∀ a ∈ heap.owned, a.Placed heap.held
  apart : heap.owned.Pairwise fun a a' => ∀ point, a.Holds point → ¬ a'.Holds point
  notFree : ∀ a ∈ heap.owned, ∀ sp ∈ heap.st.listed, ∀ point,
    a.Holds point → ¬ Free (blocks sp) point
  account : ∀ sp ∈ heap.held,
    (heap.st.page sp).units + Heap.lent heap.owned sp = SLOB_UNITS PAGE_SIZE

section

variable {kernel : Kernel (Nat → Int)} {heap : Heap} {st st' : Allocator (Nat → Int)}
  {held : List Nat} {owned : List Allocation} {blocks : Nat → List Block} {a a' : Allocation}
  {sp point : Nat} {r : SlobRequest}

theorem Heap.lent_cons (a : Allocation) (owned : List Allocation) (sp : Nat) :
    Heap.lent (a :: owned) sp = (if virtToPage a.addr = sp then (a.units : Int) else 0) +
      Heap.lent owned sp := by
  by_cases hpage : virtToPage a.addr = sp <;> simp [Heap.lent, hpage]

theorem Heap.lent_erase (ha : a ∈ owned) (sp : Nat) :
    Heap.lent owned sp = (if virtToPage a.addr = sp then (a.units : Int) else 0) +
      Heap.lent (owned.erase a) sp := by
  rw [← Heap.lent_cons]
  exact ((((List.perm_cons_erase ha).filter _).map _).sum_eq)

theorem Heap.le_lent (ha : a ∈ owned) : (a.units : Int) ≤ Heap.lent owned (virtToPage a.addr) := by
  rw [Heap.lent_erase ha, if_pos rfl]
  have hrest : 0 ≤ Heap.lent (owned.erase a) (virtToPage a.addr) := by
    apply List.sum_nonneg
    intro units hunits
    obtain ⟨other, -, rfl⟩ := List.mem_map.mp hunits
    omega
  omega

theorem Heap.lent_eq_zero (h : ∀ a ∈ owned, virtToPage a.addr ≠ sp) : Heap.lent owned sp = 0 := by
  have hnone : owned.filter (fun a => virtToPage a.addr = sp) = [] := by
    simpa [List.filter_eq_nil_iff] using h
  simp [Heap.lent, hnone]

theorem Allocation.Placed.virtToPage_eq (h : a.Placed held) (hpoint : a.Holds point) :
    virtToPage point = virtToPage a.addr := by
  have hstop : a.stop ≤ (a.addr / 4096 + 1) * 4096 := h.stop_le
  have hfirst := hpoint.1
  have hlast := hpoint.2
  show point / 4096 = a.addr / 4096
  omega

theorem PageList.sameFree {page : List Block} (h : PageList st sp page)
    (hpage : st'.page sp = st.page sp)
    (hmem : ∀ cell, Free page (SLOB_UNIT * cell) → st'.mem cell = st.mem cell) :
    PageList st' sp page := by
  constructor
  · rw [hpage]
    apply h.path.mono
    intro block hblock next hstored
    apply hstored.frame
    intro cell hfirst hstop
    exact hmem cell ⟨block, hblock, hfirst, hstop⟩
  · rw [hpage]
    exact h.sum_eq

/-! ## Handing out a block -/

structure HandsOut (sp : Nat) (held : List Nat) (blocks : Nat → List Block) (a : Allocation)
    (st st' : Allocator (Nat → Int)) : Prop extends ChangesOnly sp st st' where
  even : SLOB_UNIT ∣ a.addr
  inside : ∀ point, a.Holds point → Free (blocks sp) point
  units : (st'.page sp).units + a.units = (st.page sp).units
  units_nonneg : 0 ≤ (st'.page sp).units
  mem : SameOutside (blocks sp) st.mem st'.mem
  left : ∃ page, WellKept st' held (Function.update blocks sp page) ∧
    ∀ point, Free page point ↔ Free (blocks sp) point ∧ ¬ a.Holds point

theorem slobPageAlloc_handsOut (hk : kernel.Encodes) (hlaw : kernel.Lawful)
    (hst : WellKept st held blocks) (hsp : sp ∈ st.listed) (hr : r.Proper)
    (hsize : BlockSize r.size) {block : Block} (hblock : block ∈ blocks sp)
    (hfits : r.Fits block) :
    ∃ b removed st', slobPageAlloc kernel st (some sp) r = .ok (some b, removed, st') ∧
      HandsOut sp held blocks ⟨b, r.size⟩ st st' := by
  have hpage := hst.pageList sp hsp
  have hne : blocks sp ≠ [] := List.ne_nil_of_mem hblock
  have hpos := hsize.units_pos
  have hunits : r.units = SLOB_UNITS r.size := by
    apply r.units_of_le
    have hle : r.size ≤ 4096 := hsize.2
    show (r.size + 1) % 2 ^ 64 / 2 ≤ 2048
    omega
  rcases slobPageAlloc_eq (hpage.wellFormed hk hne) hblock hfits with
    ⟨best, -, -, -, removed, st', halloc⟩
  rcases slobPageAlloc_carves hk hr (by omega) hpage hne with
    ⟨hnone, -⟩ | ⟨before, chosen, after, mem, freelist, heq, hroom, hsome, hpath, hsame⟩
  · rw [hnone] at halloc
    cases halloc
  · have hpage' := heq ▸ hpage
    have hleft := pageList_takenFrom (r := r) kernel hpage' hpath
    have hgives := takenFrom_givesUnits hlaw hst.tidy sp r mem freelist
    have hfree := free_carved hr (by omega) hroom hpage'.path
    rw [← heq] at hfree
    have hstop : advance (r.beginsAt chosen) r.units =
        (⟨r.beginsAt chosen, r.size⟩ : Allocation).stop := by
      rw [hunits, advance_eq _ (by omega)]
      rfl
    rw [hstop] at hfree
    rcases hpage'.path.exists_link (x := chosen) (by simp) with ⟨next, hstored⟩
    have hdelta := r.delta_nonneg chosen.addr
    have hbegin : r.beginsAt chosen = chosen.addr + 2 * (r.delta chosen.addr).toNat := by
      rw [SlobRequest.beginsAt_eq hr hstored.addr_even]
      exact advance_eq chosen.addr hdelta
    have hstop' : (⟨r.beginsAt chosen, r.size⟩ : Allocation).stop ≤ chosen.stop := by
      show r.beginsAt chosen + 2 * SLOB_UNITS r.size ≤ chosen.addr + 2 * chosen.units.toNat
      omega
    have hle : r.units ≤ (st.page sp).units := by
      have hchosen : chosen ∈ blocks sp := by simp [heq]
      have hbound := (hpage.wellFormed hk hne).units_le hchosen
      omega
    refine ⟨_, _, _, hsome, hgives.toChangesOnly, ?_, ?_, ?_, ?_, hsame, _,
      hst.change hgives.toChangesOnly (hgives.keeps hst.toListed hsp hle) ?_ hleft, hfree⟩
    · have heven : 2 ∣ chosen.addr := hstored.addr_even
      show 2 ∣ r.beginsAt chosen
      omega
    · rintro point ⟨hfirst, hlast⟩
      have hfirst' : r.beginsAt chosen ≤ point := hfirst
      exact ⟨chosen, by simp [heq], by omega, by omega⟩
    · rw [hgives.units, hunits]
      show (st.page sp).units - SLOB_UNITS r.size + (SLOB_UNITS r.size : Nat) = (st.page sp).units
      omega
    · rw [hgives.units]
      omega
    · exact fun cell hcell => hsame.page hpage hcell

namespace Owners

theorem counters (ho : Owners ⟨st, held, owned⟩ blocks) (totalFree totalAllocated : Int) :
    Owners ⟨{ st with totalFreeSpace := totalFree, totalAllocatedSpace := totalAllocated }, held,
      owned⟩ blocks :=
  { ho with kept := ho.kept.counters totalFree totalAllocated }

theorem handsOut (ho : Owners ⟨st, held, owned⟩ blocks) (hsp : sp ∈ st.listed)
    (hsize : BlockSize a.size) (h : HandsOut sp held blocks a st st') :
    virtToPage a.addr = sp ∧ ∃ blocks', Owners ⟨st', held, a :: owned⟩ blocks' := by
  have hpage : PageList st sp (blocks sp) := ho.kept.pageList sp hsp
  have hpoints : ∀ point, a.Holds point → virtToPage point = sp :=
    fun point hpoint => hpage.virtToPage_eq (h.inside point hpoint)
  have hunits : 0 < a.units := hsize.units_pos
  have hstop : a.stop = a.addr + 2 * a.units := rfl
  have haddr : virtToPage a.addr = sp := hpoints _ ⟨Nat.le_refl _, by omega⟩
  rcases h.left with ⟨page, hkept, hfree⟩
  refine ⟨haddr, Function.update blocks sp page, hkept, ho.nodup, ?_, ?_, ?_, ?_, ?_⟩
  · intro other hother
    by_cases hne : other = sp
    · exact hne ▸ h.units_nonneg
    · exact h.page other hne ▸ ho.units_nonneg other hother
  · refine List.forall_mem_cons.mpr ⟨⟨h.even, hsize, ?_, ?_⟩, ho.placed⟩
    · exact haddr ▸ ho.kept.isHeld sp hsp
    · have hlast := h.inside (a.stop - 1) ⟨by omega, by omega⟩
      have hbounds := hpage.path.covered_bounds (forward_stored st.mem sp) hlast
      rw [haddr]
      omega
  · refine List.pairwise_cons.mpr ⟨?_, ho.apart⟩
    intro a' ha' point hpoint hpoint'
    exact ho.notFree a' ha' sp hsp point hpoint' (h.inside point hpoint)
  · intro a' ha' other hother point hpoint
    by_cases hne : other = sp
    · subst hne
      rw [Function.update_self, hfree]
      rcases List.mem_cons.mp ha' with rfl | ha'
      · exact fun hand => hand.2 hpoint
      · exact fun hand => ho.notFree a' ha' other hsp point hpoint hand.1
    · rw [Function.update_of_ne hne]
      have hlisted := (h.mem_listed hne).mp hother
      rcases List.mem_cons.mp ha' with rfl | ha'
      · intro hfree'
        exact hne (((ho.kept.pageList other hlisted).virtToPage_eq hfree').symm.trans
          (hpoints point hpoint))
      · exact ho.notFree a' ha' other hlisted point hpoint
  · intro other hother
    have hold := ho.account other hother
    rw [Heap.lent_cons, haddr]
    by_cases hne : sp = other
    · subst hne
      have hsum := h.units
      rw [if_pos rfl]
      simp only at hold ⊢
      omega
    · rw [if_neg hne, h.page other (Ne.symm hne), Int.zero_add]
      exact hold

theorem fresh (hk : kernel.Encodes) (hlaw : kernel.Lawful)
    (ho : Owners ⟨st, held, owned⟩ blocks) (r : SlobRequest) (hsp : sp ∉ held) :
    Owners ⟨addFreshPage kernel st r (sp * PAGE_SIZE), sp :: held, owned⟩
      (Function.update blocks sp [freshBlock sp]) := by
  have hvirt : virtToPage (sp * PAGE_SIZE) = sp := Nat.mul_div_cancel sp (by decide)
  have hchanges := addFreshPage_changesOnly hlaw st r (sp * PAGE_SIZE)
  rw [hvirt] at hchanges
  have hunits : ((addFreshPage kernel st r (sp * PAGE_SIZE)).page sp).units =
      SLOB_UNITS PAGE_SIZE := by
    simp [addFreshPage, hvirt]
  have hother : ∀ a ∈ owned, virtToPage a.addr ≠ sp :=
    fun a ha heq => hsp (heq ▸ (ho.placed a ha).isHeld)
  refine ⟨(addFreshPage_wellKept hk hlaw ho.kept r hsp).2, List.nodup_cons.mpr ⟨hsp, ho.nodup⟩,
    ?_, ?_, ho.apart, ?_, ?_⟩
  · intro other hmem
    by_cases hne : other = sp
    · subst hne
      rw [hunits]
      exact Int.natCast_nonneg _
    · rw [hchanges.page other hne]
      exact ho.units_nonneg other ((List.mem_cons.mp hmem).resolve_left hne)
  · intro a ha
    have hplaced := ho.placed a ha
    exact { hplaced with isHeld := List.mem_cons_of_mem _ hplaced.isHeld }
  · intro a ha other hmem point hpoint
    by_cases hne : other = sp
    · subst hne
      rw [Function.update_self]
      rintro ⟨block, hblock, hfirst, hlast⟩
      obtain rfl := List.mem_singleton.mp hblock
      apply hother a ha
      rw [← (ho.placed a ha).virtToPage_eq hpoint]
      have hstop := freshBlock_stop other
      have hend : pageEnd other = (other + 1) * 4096 := rfl
      have hstart : (freshBlock other).addr = other * 4096 := rfl
      show point / 4096 = other
      omega
    · rw [Function.update_of_ne hne]
      exact ho.notFree a ha other ((hchanges.mem_listed hne).mp hmem) point hpoint
  · intro other hmem
    by_cases hne : other = sp
    · subst hne
      rw [hunits, Heap.lent_eq_zero hother, Int.add_zero]
    · rw [hchanges.page other hne]
      exact ho.account other ((List.mem_cons.mp hmem).resolve_left hne)

end Owners

/-! ## Taking a block back -/

theorem mem_withoutPage (hlaw : kernel.Lawful) (htidy : st.Tidy) (sp b : Nat) :
    (withoutPage kernel st sp b).Tidy ∧
      ∀ other, other ∈ (withoutPage kernel st sp b).listed ↔ other ∈ st.listed ∧ other ≠ sp := by
  by_cases hsp : sp ∈ st.listed
  · have hperm : (withoutPage kernel st sp b).listed.Perm (st.listed.erase sp) := by
      rw [Allocator.listed, withoutPage, if_pos hsp]
      exact listed_clear hlaw sp htidy
    refine ⟨hperm.nodup_iff.mpr (htidy.erase _), fun other => ?_⟩
    rw [hperm.mem_iff, htidy.mem_erase_iff, and_comm]
  · have hlisted : (withoutPage kernel st sp b).listed = st.listed := by
      rw [Allocator.listed, withoutPage, if_neg hsp]
      rfl
    refine ⟨?_, fun other => ?_⟩
    · rw [Allocator.Tidy, hlisted]
      exact htidy
    · rw [hlisted]
      exact ⟨fun hmem => ⟨hmem, fun heq => hsp (heq ▸ hmem)⟩, And.left⟩

theorem Returned.mem_listed (hlaw : kernel.Lawful) (h : Returned kernel st a st')
    (htidy : st.Tidy) : st'.Tidy ∧
      ∀ other, other ∈ st'.listed ↔ other = virtToPage a.addr ∨ other ∈ st.listed := by
  have hfree := h.free
  split at hfree
  · rename_i hlisted
    have hsame : st'.listed = st.listed := by simp [Allocator.listed, hfree]
    refine ⟨?_, fun other => ?_⟩
    · rw [Allocator.Tidy, hsame]
      exact htidy
    · rw [hsame]
      exact ⟨Or.inr, fun hor => hor.elim (fun heq => heq ▸ hlisted) id⟩
  · rename_i hlisted
    rcases hfree with ⟨list, hfree⟩
    have hperm : st'.listed.Perm (virtToPage a.addr :: st.listed) := by
      rw [Allocator.listed, hfree]
      exact listed_set hlaw (virtToPage a.addr) list
    refine ⟨hperm.nodup_iff.mpr (List.nodup_cons.mpr ⟨hlisted, htidy⟩), fun other => ?_⟩
    rw [hperm.mem_iff, List.mem_cons]

namespace Owners

theorem apart_of_mem_erase (ho : Owners ⟨st, held, owned⟩ blocks) (ha : a ∈ owned)
    (ha' : a' ∈ owned.erase a) (hpoint : a.Holds point) : ¬ a'.Holds point := by
  have hsymm : ∀ {x y : Allocation}, (∀ point, x.Holds point → ¬ y.Holds point) →
      ∀ point, y.Holds point → ¬ x.Holds point :=
    fun h point hy hx => h point hx hy
  have hcons := (List.perm_cons_erase ha).pairwise_iff hsymm |>.mp ho.apart
  exact (List.pairwise_cons.mp hcons).1 a' ha' point hpoint

theorem alone (ho : Owners ⟨st, held, owned⟩ blocks) (ha : a ∈ owned)
    (hpage : FreesPage st a.addr a.size) :
    ∀ a' ∈ owned.erase a, virtToPage a'.addr ≠ virtToPage a.addr := by
  intro a' ha' heq
  have haccount := ho.account _ (ho.placed a ha).isHeld
  have hpos : 0 < a'.units := (ho.placed a' (List.mem_of_mem_erase ha')).size.units_pos
  have hle := Heap.le_lent ha'
  have hsum : (st.page (virtToPage a.addr)).units + (a.units : Int) = SLOB_UNITS PAGE_SIZE := hpage
  rw [Heap.lent_erase ha, if_pos rfl, ← heq] at haccount
  rw [← heq] at hsum
  simp only at haccount
  omega

theorem freesPage (hlaw : kernel.Lawful) (ho : Owners ⟨st, held, owned⟩ blocks) (ha : a ∈ owned)
    (hpage : FreesPage st a.addr a.size) :
    Owners ⟨withoutPage kernel st (virtToPage a.addr) a.addr,
      held.erase (virtToPage a.addr), owned.erase a⟩ blocks := by
  have hst := ho.kept
  rcases mem_withoutPage hlaw hst.tidy (virtToPage a.addr) a.addr with ⟨htidy, hlisted⟩
  have hheld := fun other => ho.nodup.mem_erase_iff (a := other) (b := virtToPage a.addr)
  refine ⟨⟨⟨htidy, ?_, ?_⟩, ?_⟩, ho.nodup.erase _, ?_, ?_, ho.apart.sublist List.erase_sublist,
    ?_, ?_⟩
  · intro other hother
    rcases (hlisted other).mp hother with ⟨hmem, hne⟩
    exact (hheld other).mpr ⟨hne, hst.isHeld other hmem⟩
  · intro other hother
    rcases (hheld other).mp hother with ⟨hne, hmem⟩
    rw [hlisted, and_iff_left hne]
    exact hst.iff_units other hmem
  · intro other hother
    have hpageList := hst.pageList other ((hlisted other).mp hother).1
    exact ⟨hpageList.path, hpageList.sum_eq⟩
  · intro other hother
    exact ho.units_nonneg other ((hheld other).mp hother).2
  · intro a' ha'
    have hplaced := ho.placed a' (List.mem_of_mem_erase ha')
    exact { hplaced with
      isHeld := (hheld _).mpr ⟨ho.alone ha hpage a' ha', hplaced.isHeld⟩ }
  · intro a' ha' other hother
    exact ho.notFree a' (List.mem_of_mem_erase ha') other ((hlisted other).mp hother).1
  · intro other hother
    rcases (hheld other).mp hother with ⟨hne, hmem⟩
    have hold := ho.account other hmem
    rw [Heap.lent_erase ha, if_neg (Ne.symm hne), Int.zero_add] at hold
    exact hold

theorem returned (hlaw : kernel.Lawful) (ho : Owners ⟨st, held, owned⟩ blocks) (ha : a ∈ owned)
    (h : Returned kernel st a st') :
    ∃ page, Owners ⟨st', held, owned.erase a⟩ (Function.update blocks (virtToPage a.addr) page) ∧
      SameOutside page st.mem st'.mem ∧
      ∀ a' ∈ owned.erase a, ∀ point, a'.Holds point → ¬ Free page point := by
  have hst := ho.kept
  have hplaced := ho.placed a ha
  have hpos : 0 < a.units := hplaced.size.units_pos
  have hheld : virtToPage a.addr ∈ held := hplaced.isHeld
  have hnonneg := ho.units_nonneg _ hheld
  have hunits := h.units
  rcases h.mem_listed hlaw hst.tidy with ⟨htidy, hlisted⟩
  -- a page on no list has no free unit
  have hold : (if virtToPage a.addr ∈ st.listed then (st.page (virtToPage a.addr)).units else 0) =
      (st.page (virtToPage a.addr)).units := by
    split
    · rfl
    · rename_i hnot
      have hzero := mt (hst.iff_units _ hheld).mpr hnot
      simp only at hzero hnonneg
      omega
  rw [hold] at hunits
  have hbefore : ∃ before, FreeOn st (virtToPage a.addr) before ∧
      ∀ a' ∈ owned, ∀ point, a'.Holds point → ¬ Free before point := by
    by_cases hmem : virtToPage a.addr ∈ st.listed
    · exact ⟨blocks (virtToPage a.addr), by simpa [FreeOn, hmem] using hst.pageList _ hmem,
        fun a' ha' => ho.notFree a' ha' _ hmem⟩
    · exact ⟨[], by simp [FreeOn, hmem], fun _ _ _ _ => covered_nil _⟩
  rcases hbefore with ⟨before, hfreeOn, hapart⟩
  rcases h.blocks before hfreeOn with ⟨page, hpageList, hfree, hmem⟩
  have hnotFree : ∀ a' ∈ owned.erase a, ∀ point, a'.Holds point → ¬ Free page point := by
    intro a' ha' point hpoint
    rw [hfree]
    rintro (hfree' | hpoint')
    · exact hapart a' (List.mem_of_mem_erase ha') point hpoint hfree'
    · exact ho.apart_of_mem_erase ha ha' hpoint' hpoint
  refine ⟨page, ⟨⟨⟨htidy, ?_, ?_⟩, ?_⟩, ho.nodup, ?_, ?_,
    ho.apart.sublist List.erase_sublist, ?_, ?_⟩, hmem, hnotFree⟩
  · intro other hother
    rcases (hlisted other).mp hother with rfl | hother
    · exact hheld
    · exact hst.isHeld other hother
  · intro other hother
    rw [hlisted]
    by_cases hne : other = virtToPage a.addr
    · subst hne
      refine iff_of_true (Or.inl rfl) ?_
      simp only at hunits hnonneg ⊢
      omega
    · rw [or_iff_right hne, h.page other hne]
      exact hst.iff_units other hother
  · intro other hother
    by_cases hne : other = virtToPage a.addr
    · subst hne
      rw [Function.update_self]
      exact hpageList
    · rw [Function.update_of_ne hne]
      have hother' := ((hlisted other).mp hother).resolve_left hne
      apply (hst.pageList other hother').sameFree (h.page other hne)
      intro cell hcell
      apply hmem
      intro hcell'
      exact hne (((hst.pageList other hother').virtToPage_eq hcell).symm.trans
        (hpageList.virtToPage_eq hcell'))
  · intro other hother
    by_cases hne : other = virtToPage a.addr
    · subst hne
      simp only at hunits hnonneg ⊢
      omega
    · exact h.page other hne ▸ ho.units_nonneg other hother
  · exact fun a' ha' => ho.placed a' (List.mem_of_mem_erase ha')
  · intro a' ha' other hother point hpoint
    by_cases hne : other = virtToPage a.addr
    · subst hne
      rw [Function.update_self]
      exact hnotFree a' ha' point hpoint
    · rw [Function.update_of_ne hne]
      exact ho.notFree a' (List.mem_of_mem_erase ha') other
        (((hlisted other).mp hother).resolve_left hne) point hpoint
  · intro other hother
    have haccount := ho.account other hother
    rw [Heap.lent_erase ha] at haccount
    by_cases hne : virtToPage a.addr = other
    · subst hne
      rw [if_pos rfl] at haccount
      simp only at hunits haccount ⊢
      omega
    · rw [if_neg hne, Int.zero_add] at haccount
      rw [h.page other (Ne.symm hne)]
      exact haccount

theorem store (ho : Owners ⟨st, held, owned⟩ blocks) (ha : a ∈ owned) {cell : Nat}
    (hcell : a.Holds (SLOB_UNIT * cell)) (value : Int) :
    Owners ⟨{ st with mem := Function.update st.mem cell value }, held, owned⟩ blocks := by
  refine { ho with kept := ⟨⟨ho.kept.tidy, ho.kept.isHeld, ho.kept.iff_units⟩, ?_⟩ }
  intro sp hsp
  refine PageList.sameFree (ho.kept.pageList sp hsp) rfl fun other hother => ?_
  apply Function.update_of_ne
  rintro rfl
  exact ho.notFree a ha sp hsp _ hcell hother

end Owners

/-! ## The steps -/

/-- What was handed out still is, and holds what it held. -/
def Undisturbed (heap heap' : Heap) (a : Allocation) : Prop :=
  a ∈ heap'.owned ∧ ∀ cell, a.Holds (SLOB_UNIT * cell) → heap'.st.mem cell = heap.st.mem cell

theorem SameOutside.undisturbed {page : List Block} {mem : Nat → Int}
    (h : SameOutside page st.mem mem) (hapart : ∀ point, a.Holds point → ¬ Free page point)
    {cell : Nat} (hcell : a.Holds (SLOB_UNIT * cell)) : mem cell = st.mem cell :=
  h cell (hapart _ hcell)

theorem serveHeap_existing (hk : kernel.Encodes) (hlaw : kernel.Lawful)
    (ho : Owners ⟨st, held, owned⟩ blocks) (hr : r.Proper) (hsize : BlockSize r.size)
    (hroom : HasRoom kernel st r blocks) (page : Option Nat) :
    ∃ heap' blocks', serveHeap kernel ⟨st, held, owned⟩ (.alloc r page) = .ok heap' ∧
      Owners heap' blocks' ∧ ∀ a ∈ owned, Undisturbed ⟨st, held, owned⟩ heap' a := by
  rcases bestFit_optimal kernel st r blocks (ho.kept.wellFormed hk r) with
    ⟨space, bestPage, hscan, hnone, hsome⟩
  cases bestPage with
  | none =>
      rcases hroom with ⟨sp, hsp, hpasses, block, hblock, hfits⟩
      exact absurd hfits (hnone.mp rfl sp hsp hpasses block hblock)
  | some sp =>
      rcases hsome sp rfl with ⟨hsp, -, -, -, -, -, -, block, hblock, hfits, -⟩
      have hlisted := mem_listed hsp
      rcases slobPageAlloc_handsOut hk hlaw ho.kept hlisted hr hsize hblock hfits with
        ⟨b, removed, st', halloc, hhands⟩
      rcases ho.handsOut hlisted hsize hhands with ⟨hpage, blocks', ho'⟩
      have hserve : serveHeap kernel ⟨st, held, owned⟩ (.alloc r page) =
          .ok ⟨refreshFreeSpace st', held, ⟨b, r.size⟩ :: owned⟩ := by
        have hheld : virtToPage b ∈ held := by
          rw [show virtToPage b = sp from hpage]
          exact ho.kept.isHeld sp hlisted
        simp only [serveHeap, slobAlloc_of_scan hscan halloc page, bind, Except.bind, if_pos hheld]
        rfl
      refine ⟨_, blocks', hserve, ho'.counters _ _, fun a ha => ⟨List.mem_cons_of_mem _ ha, ?_⟩⟩
      intro cell hcell
      exact hhands.mem.undisturbed (ho.notFree a ha sp hlisted) hcell

theorem serveHeap_fresh (hk : kernel.Encodes) (hlaw : kernel.Lawful)
    (ho : Owners ⟨st, held, owned⟩ blocks) (hr : r.Proper) (hsize : BlockSize r.size)
    (hroom : ¬ HasRoom kernel st r blocks) (hsp : sp ∉ held) (hfits : r.Fits (freshBlock sp)) :
    ∃ heap' blocks', serveHeap kernel ⟨st, held, owned⟩ (.alloc r (some sp)) = .ok heap' ∧
      Owners heap' blocks' ∧ ∀ a ∈ owned, Undisturbed ⟨st, held, owned⟩ heap' a := by
  have hvirt : virtToPage (sp * PAGE_SIZE) = sp := Nat.mul_div_cancel sp (by decide)
  have hst := ho.counters st.totalFreeSpace (st.totalAllocatedSpace + sizeofPointer)
  have hfresh := hst.fresh hk hlaw r hsp
  have hcells := (addFreshPage_wellKept hk hlaw hst.kept r hsp).1
  rcases addFreshPage_listed hlaw hst.kept.toListed r (hvirt.symm ▸ hsp) with ⟨-, hlisted, -⟩
  rw [hvirt] at hlisted
  have hblock : freshBlock sp ∈ Function.update blocks sp [freshBlock sp] sp := by simp
  rcases slobPageAlloc_handsOut hk hlaw hfresh.kept hlisted hr hsize hblock hfits with
    ⟨b, removed, st', halloc, hhands⟩
  rcases hfresh.handsOut hlisted hsize hhands with ⟨hpage, blocks', ho'⟩
  have hserve : serveHeap kernel ⟨st, held, owned⟩ (.alloc r (some sp)) =
      .ok ⟨refreshFreeSpace st', sp :: held, ⟨b, r.size⟩ :: owned⟩ := by
    have hpageAlloc : (bestFit kernel).pageAlloc (addFreshPage kernel
        { st with totalAllocatedSpace := st.totalAllocatedSpace + sizeofPointer } r
        (sp * PAGE_SIZE)) sp r = .ok (some b, st') := by
      simp only [bestFit, halloc, bind, Except.bind]
      rfl
    have hb : virtToPage b = sp := hpage
    simp only [serveHeap, slobAlloc, search_eq_none hk ho.kept hroom, slobNewPages, bind,
      Except.bind, hvirt, hpageAlloc, pure, Except.pure, hb, if_neg hsp]
  refine ⟨_, blocks', hserve, ho'.counters _ _, fun a ha => ⟨List.mem_cons_of_mem _ ha, ?_⟩⟩
  intro cell hcell
  have hplaced := ho.placed a ha
  rw [← hcells cell]
  · exact hhands.mem.undisturbed (hfresh.notFree a ha sp hlisted) hcell
  · rw [hplaced.virtToPage_eq hcell]
    exact fun heq => hsp (heq ▸ hplaced.isHeld)

theorem serveHeap_alloc (hk : kernel.Encodes) (hlaw : kernel.Lawful) (ho : Owners heap blocks)
    {page : Option Nat} (hlegal : LegalHeap kernel heap (.alloc r page)) :
    ∃ heap' blocks', serveHeap kernel heap (.alloc r page) = .ok heap' ∧ Owners heap' blocks' ∧
      ∀ a ∈ heap.owned, Undisturbed heap heap' a := by
  obtain ⟨st, held, owned⟩ := heap
  rcases hlegal with ⟨hr, hsize, hpage⟩
  by_cases hroom : HasRoom kernel st r blocks
  · exact serveHeap_existing hk hlaw ho hr hsize hroom page
  · cases page with
    | some sp =>
        rcases hpage sp rfl with ⟨hsp, hfits⟩
        exact serveHeap_fresh hk hlaw ho hr hsize hroom hsp hfits
    | none =>
        refine ⟨⟨st, held, owned⟩, blocks, ?_, ho, fun a ha => ⟨ha, fun _ _ => rfl⟩⟩
        simp only [serveHeap, slobAlloc, search_eq_none hk ho.kept hroom, slobNewPages, bind,
          Except.bind]
        rfl

def HeapCall.stored (cell : Nat) (value : Int) : HeapCall → Int
  | .store other value' => if other = cell then value' else value
  | _ => value

theorem serveHeap_step (hk : kernel.Encodes) (hlaw : kernel.Lawful) (ho : Owners heap blocks)
    {call : HeapCall} (hlegal : LegalHeap kernel heap call) :
    ∃ heap' blocks', serveHeap kernel heap call = .ok heap' ∧ Owners heap' blocks' ∧
      ∀ a ∈ heap.owned, (∀ after, call ≠ .free a after) → a ∈ heap'.owned ∧
        ∀ cell, a.Holds (SLOB_UNIT * cell) →
          heap'.st.mem cell = call.stored cell (heap.st.mem cell) := by
  cases call with
  | alloc r page =>
      rcases serveHeap_alloc hk hlaw ho hlegal with ⟨heap', blocks', hok, ho', hsame⟩
      exact ⟨heap', blocks', hok, ho', fun a ha _ => hsame a ha⟩
  | free a after =>
      obtain ⟨st, held, owned⟩ := heap
      rcases hlegal with ⟨ha, hfreed⟩
      have hother : ∀ a' ∈ owned, (∀ after', HeapCall.free a after ≠ .free a' after') →
          a' ∈ owned.erase a := by
        intro a' ha' hne
        exact (List.mem_erase_of_ne fun heq => hne after (by rw [heq])).mpr ha'
      by_cases hpage : FreesPage st a.addr a.size
      · rw [Freed, if_pos hpage] at hfreed
        subst hfreed
        exact ⟨_, blocks, by rw [serveHeap, if_pos hpage], ho.freesPage hlaw ha hpage,
          fun a' ha' hne => ⟨hother a' ha' hne, fun _ _ => rfl⟩⟩
      · rw [Freed, if_neg hpage] at hfreed
        rcases ho.returned hlaw ha hfreed with ⟨page, ho', hsame, hapart⟩
        refine ⟨_, _, by rw [serveHeap, if_neg hpage], ho', ?_⟩
        intro a' ha' hne
        have hmem := hother a' ha' hne
        exact ⟨hmem, fun cell hcell => hsame.undisturbed (hapart a' hmem) hcell⟩
  | store cell value =>
      obtain ⟨st, held, owned⟩ := heap
      rcases hlegal with ⟨a, ha, hcell⟩
      refine ⟨_, blocks, rfl, ho.store ha hcell value, fun a' ha' _ => ⟨ha', ?_⟩⟩
      intro other _
      simp [HeapCall.stored, Function.update_apply, eq_comm]

/-! ## The units of the pages -/

theorem sum_map_single {pages : List Nat} (hnodup : pages.Nodup) (hsp : sp ∈ pages) (units : Int) :
    (pages.map fun other => if sp = other then units else 0).sum = units := by
  have hperm := List.perm_cons_erase hsp
  have hrest : ((pages.erase sp).map fun other => if sp = other then units else 0) =
      (pages.erase sp).map fun _ => 0 := by
    apply List.map_congr_left
    intro other hother
    have hne : sp ≠ other := fun heq => hnodup.not_mem_erase (heq ▸ hother)
    rw [if_neg hne]
  rw [(hperm.map _).sum_eq, List.map_cons, List.sum_cons, hrest]
  simp

theorem sum_lent {pages : List Nat} (hnodup : pages.Nodup)
    (hplaced : ∀ a ∈ owned, virtToPage a.addr ∈ pages) :
    (pages.map fun sp => Heap.lent owned sp).sum = (owned.map fun a => (a.units : Int)).sum := by
  induction owned with
  | nil => simp [Heap.lent]
  | cons a owned ih =>
      simp only [Heap.lent_cons, List.sum_map_add]
      rw [sum_map_single hnodup (hplaced a List.mem_cons_self),
        ih fun a' ha' => hplaced a' (List.mem_cons_of_mem _ ha'), List.map_cons, List.sum_cons]

theorem Owners.sum_units (ho : Owners heap blocks) :
    (heap.held.map fun sp => (heap.st.page sp).units).sum = calcFreeSpace heap.st := by
  have hperm : heap.st.listed.Perm (heap.held.filter fun sp => sp ∈ heap.st.listed) := by
    rw [List.perm_ext_iff_of_nodup ho.kept.tidy (ho.nodup.filter _)]
    intro sp
    simp only [List.mem_filter, decide_eq_true_eq]
    exact ⟨fun hsp => ⟨ho.kept.isHeld sp hsp, hsp⟩, And.right⟩
  have hrest : ∀ sp ∈ heap.held, sp ∉ heap.st.listed → (heap.st.page sp).units = 0 := by
    intro sp hsp hnot
    have hzero := mt (ho.kept.iff_units sp hsp).mpr hnot
    have hnonneg := ho.units_nonneg sp hsp
    omega
  rw [calcFreeSpace_of_perm hperm]
  generalize heap.held = pages at hrest
  induction pages with
  | nil => rfl
  | cons sp pages ih =>
      have htail := ih fun other hother => hrest other (List.mem_cons_of_mem _ hother)
      by_cases hsp : sp ∈ heap.st.listed
      · simp [hsp, htail]
      · simp [hsp, htail, hrest sp List.mem_cons_self hsp]

theorem Owners.conserves (ho : Owners heap blocks) :
    calcFreeSpace heap.st + (heap.owned.map fun a => (a.units : Int)).sum =
      heap.held.length * SLOB_UNITS PAGE_SIZE := by
  rw [← ho.sum_units, ← sum_lent ho.nodup fun a ha => (ho.placed a ha).isHeld, ← List.sum_map_add]
  have haccount : (heap.held.map fun sp =>
      (heap.st.page sp).units + Heap.lent heap.owned sp) =
        heap.held.map fun _ => (SLOB_UNITS PAGE_SIZE : Int) :=
    List.map_congr_left ho.account
  rw [haccount]
  simp

end

/-! ## Runs -/

section

variable (kernel : Kernel (Nat → Int))

theorem bootHeap_owners (mem : Nat → Int) (page : Nat → Page) :
    Owners (bootHeap mem page) fun _ => [] := by
  refine ⟨⟨⟨?_, ?_, ?_⟩, ?_⟩, ?_, ?_, ?_, ?_, ?_, ?_⟩ <;>
    simp [bootHeap, boot, Allocator.Tidy, Allocator.listed]

variable {kernel} in
theorem owners_run (hk : kernel.Encodes) (hlaw : kernel.Lawful) (mem : Nat → Int)
    (page : Nat → Page) {calls : List HeapCall}
    (hlegal : Along (serveHeap kernel) (LegalHeap kernel) (bootHeap mem page) calls) :
    ∃ heap, run (serveHeap kernel) (bootHeap mem page) calls = .ok heap ∧
      ∃ blocks, Owners heap blocks := by
  refine run_invariant (fun heap => ∃ blocks, Owners heap blocks) ?_
    ⟨_, bootHeap_owners mem page⟩ hlegal
  rintro heap call ⟨blocks, ho⟩ hlegal
  rcases serveHeap_step hk hlaw ho hlegal with ⟨heap', blocks', hok, ho', -⟩
  exact ⟨heap', hok, blocks', ho'⟩

/--
No run of requests, writes and frees by the owners comes to `BUG_ON` or into a loop
that does not end.  What is handed out lies apart, and with what the free lists hold
it makes up the pages of the heap.
-/
theorem heap_apart (hk : kernel.Encodes) (hlaw : kernel.Lawful) (mem : Nat → Int)
    (page : Nat → Page) {calls : List HeapCall}
    (hlegal : Along (serveHeap kernel) (LegalHeap kernel) (bootHeap mem page) calls) :
    ∃ heap blocks, run (serveHeap kernel) (bootHeap mem page) calls = .ok heap ∧
      Owners heap blocks ∧
      calcFreeSpace heap.st + (heap.owned.map fun a => (a.units : Int)).sum =
        heap.held.length * SLOB_UNITS PAGE_SIZE := by
  obtain ⟨heap, hrun, blocks, ho⟩ := owners_run hk hlaw mem page hlegal
  exact ⟨heap, blocks, hrun, ho, ho.conserves⟩

/--
A block that is not freed holds what was last written to it: no call of `slob_alloc`
and no `slob_free` of another block touches it.
-/
theorem heap_contents (hk : kernel.Encodes) (hlaw : kernel.Lawful) (mem : Nat → Int)
    (page : Nat → Page) {before during : List HeapCall} {heap : Heap}
    (hlegal : Along (serveHeap kernel) (LegalHeap kernel) (bootHeap mem page) before)
    (hrun : run (serveHeap kernel) (bootHeap mem page) before = .ok heap) {a : Allocation}
    (ha : a ∈ heap.owned)
    (hkept : Along (serveHeap kernel)
      (fun heap call => LegalHeap kernel heap call ∧ ∀ after, call ≠ .free a after) heap during) :
    ∃ heap', run (serveHeap kernel) heap during = .ok heap' ∧ a ∈ heap'.owned ∧
      ∀ cell, a.Holds (SLOB_UNIT * cell) → heap'.st.mem cell =
        during.foldl (fun value call => call.stored cell value) (heap.st.mem cell) := by
  obtain ⟨heap₀, hrun₀, blocks, ho⟩ := owners_run hk hlaw mem page hlegal
  obtain rfl := Except.ok.inj (hrun₀.symm.trans hrun)
  obtain ⟨heap', hrun', -, ha', hcells⟩ := run_simulates
    (fun (contents : Nat → Int) call cell => call.stored cell (contents cell))
    (fun heap contents => (∃ blocks, Owners heap blocks) ∧ a ∈ heap.owned ∧
      ∀ cell, a.Holds (SLOB_UNIT * cell) → heap.st.mem cell = contents cell)
    (fun heap contents call ⟨⟨blocks, ho⟩, ha, hcells⟩ ⟨hlegal, hkeep⟩ => by
      rcases serveHeap_step hk hlaw ho hlegal with ⟨heap', blocks', hok, ho', hsame⟩
      obtain ⟨ha', hcells'⟩ := hsame a ha hkeep
      refine ⟨heap', hok, ⟨blocks', ho'⟩, ha', fun cell hcell => ?_⟩
      rw [hcells' cell hcell, hcells cell hcell])
    heap₀.st.mem ⟨⟨blocks, ho⟩, ha, fun _ _ => rfl⟩ hkept
  refine ⟨heap', hrun', ha', fun cell hcell => ?_⟩
  rw [hcells cell hcell]
  generalize heap₀.st.mem = contents
  clear hkept hrun' ha' hcells
  induction during generalizing contents with
  | nil => rfl
  | cons call during ih => exact ih _

end

def halfPage : SlobRequest := ⟨2048, 0, NUMA_NO_NODE, 0⟩

def halves : List HeapCall := [.alloc halfPage (some 1), .alloc halfPage none, .store 3100 7]

theorem legal_halves :
    Along (serveHeap sampleKernel) (LegalHeap sampleKernel) (bootHeap (fun _ => 0) samplePage)
      halves := by
  have hproper : halfPage.Proper := ⟨Or.inl rfl, by decide⟩
  refine ⟨⟨hproper, by decide, ?_⟩, fun heap hok => ?_⟩
  · rintro sp ⟨⟩
    exact ⟨by decide, by decide⟩
  · cases hok
    refine ⟨⟨hproper, by decide, by simp⟩, fun heap hok => ?_⟩
    cases hok
    refine ⟨⟨⟨6144, 2048⟩, by decide +kernel, by decide⟩, fun _ _ => trivial⟩

theorem run_halves :
    ∃ heap, run (serveHeap sampleKernel) (bootHeap (fun _ => 0) samplePage) halves = .ok heap ∧
      heap.owned = [⟨6144, 2048⟩, ⟨4096, 2048⟩] ∧ heap.st.listed = [] ∧
      (heap.st.page 1).units = 0 :=
  ⟨_, rfl, by decide +kernel, by decide +kernel, by decide +kernel⟩

def giveBack (st : Allocator (Nat → Int)) (a : Allocation) : Allocator (Nat → Int) :=
  let sp := virtToPage a.addr
  { st with
    mem := sampleKernel.setSlob st.mem a.addr a.units (pageEnd sp)
    page := Function.update st.page sp { st.page sp with freelist := a.addr, units := a.units }
    free := Function.update st.free .large (sp :: st.free .large) }

theorem returned_giveBack {st : Allocator (Nat → Int)} {a : Allocation} {held : List Nat}
    (ha : a.Placed held) (hlisted : virtToPage a.addr ∉ st.listed) :
    Returned sampleKernel st a (giveBack st a) := by
  have hpos : 0 < a.units := ha.size.units_pos
  have hblock : (⟨a.addr, a.units⟩ : Block).stop = a.stop := by
    show a.addr + 2 * (a.units : Int).toNat = a.addr + 2 * a.units
    rw [Int.toNat_natCast]
  have hstart : pageStart (virtToPage a.addr) ≤ a.addr := Nat.div_mul_le_self a.addr 4096
  have hstored := stored_setSlob sampleKernel_encodes st.mem (virtToPage a.addr)
    (pageEnd (virtToPage a.addr)) ⟨a.addr, a.units⟩ (by simp only; omega) ha.even (pageEnd_even _)
    hstart (hblock ▸ ha.stop_le) (Nat.le_refl _)
  refine ⟨?_, ?_, ?_, ?_⟩
  · intro other hne
    exact Function.update_of_ne hne _ _
  · simp [giveBack, hlisted]
  · rw [if_neg hlisted]
    exact ⟨.large, rfl⟩
  · intro blocks hfree
    rw [FreeOn, if_neg hlisted] at hfree
    subst hfree
    refine ⟨[⟨a.addr, a.units⟩], ⟨⟨?_, _, hstored, rfl⟩, ?_⟩, ?_, ?_⟩
    · simp [giveBack]
    · simp [giveBack]
    · intro point
      simp only [covered_cons, covered_nil, or_false, false_or, hblock]
      rfl
    · exact sameOutside_setSlob sampleKernel_encodes st.mem _ ⟨a.addr, a.units⟩
        (by simp only; omega) ha.even

theorem legal_giveBack {heap : Heap} (howned : heap.owned = [⟨6144, 2048⟩, ⟨4096, 2048⟩])
    (hlisted : heap.st.listed = []) (hunits : (heap.st.page 1).units = 0) :
    LegalHeap sampleKernel heap (.free ⟨4096, 2048⟩ (giveBack heap.st ⟨4096, 2048⟩)) := by
  refine ⟨by simp [howned], ?_⟩
  have hpage : ¬ FreesPage heap.st 4096 2048 := by
    show ¬ (heap.st.page 1).units + 1024 = 2048
    omega
  rw [Freed, if_neg hpage]
  have hplaced : Allocation.Placed ⟨4096, 2048⟩ [1] :=
    ⟨by decide, by decide, by decide, by decide⟩
  exact returned_giveBack hplaced (by simp [hlisted])

theorem heap_apart_halves :
    ∃ heap, run (serveHeap sampleKernel) (bootHeap (fun _ => 0) samplePage) halves = .ok heap ∧
      ∃ heap' blocks,
        run (serveHeap sampleKernel) (bootHeap (fun _ => 0) samplePage)
          (halves ++ [.free ⟨4096, 2048⟩ (giveBack heap.st ⟨4096, 2048⟩)]) = .ok heap' ∧
        Owners heap' blocks ∧
        calcFreeSpace heap'.st + (heap'.owned.map fun a => (a.units : Int)).sum =
          heap'.held.length * SLOB_UNITS PAGE_SIZE := by
  rcases run_halves with ⟨heap, hrun, howned, hlisted, hunits⟩
  refine ⟨heap, hrun, heap_apart sampleKernel sampleKernel_encodes sampleKernel_lawful (fun _ => 0)
    samplePage ?_⟩
  exact (along_append hrun).mpr
    ⟨legal_halves, legal_giveBack howned hlisted hunits, fun _ _ => trivial⟩

theorem heap_contents_halves :
    ∃ heap, run (serveHeap sampleKernel) (bootHeap (fun _ => 0) samplePage) halves = .ok heap ∧
      ∃ heap', run (serveHeap sampleKernel) heap
          [.free ⟨4096, 2048⟩ (giveBack heap.st ⟨4096, 2048⟩)] = .ok heap' ∧
        ⟨6144, 2048⟩ ∈ heap'.owned ∧
        ∀ cell, (⟨6144, 2048⟩ : Allocation).Holds (SLOB_UNIT * cell) → heap'.st.mem cell =
          [HeapCall.free ⟨4096, 2048⟩ (giveBack heap.st ⟨4096, 2048⟩)].foldl
            (fun value call => call.stored cell value) (heap.st.mem cell) := by
  rcases run_halves with ⟨heap, hrun, howned, hlisted, hunits⟩
  refine ⟨heap, hrun, heap_contents sampleKernel sampleKernel_encodes sampleKernel_lawful
    (fun _ => 0) samplePage legal_halves hrun (by simp [howned]) ?_⟩
  exact ⟨⟨legal_giveBack howned hlisted hunits, by simp⟩, fun _ _ => trivial⟩

end Ece318.Slob
