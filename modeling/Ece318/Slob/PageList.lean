import Ece318.Foundation.Segments
import Ece318.Slob.BestFit

/-!
# The free list of a page

`mm/slob.c` keeps the free blocks of a page in the blocks themselves: a block of
two units or more holds its size and the offset of the next block, a block of one
unit the negated offset alone.  `PageList` is a free list that is well formed.
-/

namespace Ece318.Slob

open Ece318.Foundation

/-! ## The encoding -/

def nextOffset (mem : Nat → Int) (s : Nat) : Int :=
  if mem (s / SLOB_UNIT) < 0 then -mem (s / SLOB_UNIT) else mem (s / SLOB_UNIT + 1)

/-- `slob_units`, `slob_next`, `slob_last` and `set_slob` of `mm/slob.c`. -/
structure Kernel.Encodes (kernel : Kernel (Nat → Int)) : Prop where
  slobUnits : ∀ mem s,
    kernel.slobUnits mem s = if mem (s / SLOB_UNIT) > 0 then mem (s / SLOB_UNIT) else 1
  slobNext : ∀ mem s,
    kernel.slobNext mem s = advance (s / PAGE_SIZE * PAGE_SIZE) (nextOffset mem s)
  slobLast : ∀ mem s, kernel.slobLast mem s = decide (kernel.slobNext mem s % PAGE_SIZE = 0)
  setSlob : ∀ mem s size next,
    kernel.setSlob mem s size next =
      let offset := ((next : Int) - (s / PAGE_SIZE * PAGE_SIZE : Nat)) / SLOB_UNIT
      if size > 1 then
        Function.update (Function.update mem (s / SLOB_UNIT) size) (s / SLOB_UNIT + 1) offset
      else Function.update mem (s / SLOB_UNIT) (-offset)

theorem sampleKernel_encodes : sampleKernel.Encodes where
  slobUnits _ _ := rfl
  slobNext _ _ := rfl
  slobLast _ _ := rfl
  setSlob mem s size next := by simp [sampleKernel]

def Block.stop (block : Block) : Nat := block.addr + SLOB_UNIT * block.units.toNat

def pageStart (sp : Nat) : Nat := sp * PAGE_SIZE

def pageEnd (sp : Nat) : Nat := (sp + 1) * PAGE_SIZE

/-- A free block of a page, as `set_slob` leaves it in memory. -/
structure Stored (mem : Nat → Int) (sp : Nat) (block : Block) (next : Nat) : Prop where
  pos : 1 ≤ block.units
  addr_even : SLOB_UNIT ∣ block.addr
  next_even : SLOB_UNIT ∣ next
  start_le : pageStart sp ≤ block.addr
  stop_le : block.stop ≤ next
  next_le : next ≤ pageEnd sp
  cells : if block.units > 1 then
      mem (block.addr / SLOB_UNIT) = block.units ∧
        mem (block.addr / SLOB_UNIT + 1) = ((next : Int) - pageStart sp) / SLOB_UNIT
    else mem (block.addr / SLOB_UNIT) = -(((next : Int) - pageStart sp) / SLOB_UNIT)

abbrev FreePath (mem : Nat → Int) (sp : Nat) : Nat → List Block → Nat → Prop :=
  Path Block.addr (Stored mem sp)

abbrev Free : List Block → Nat → Prop := Covered Block.addr Block.stop

/--
A free list that is well formed: its blocks follow one another in the page and
end at its end, and their sizes are the units of the page.
-/
structure PageList (st : Allocator (Nat → Int)) (sp : Nat) (blocks : List Block) : Prop where
  path : FreePath st.mem sp (st.page sp).freelist blocks (pageEnd sp)
  sum_eq : (blocks.map Block.units).sum = (st.page sp).units

/-! ## Reading and writing a block -/

section

variable {kernel : Kernel (Nat → Int)} {mem mem' : Nat → Int} {sp next : Nat} {block : Block}

theorem Stored.lt_stop (h : Stored mem sp block next) : block.addr < block.stop := by
  have hpos := h.pos
  show block.addr < block.addr + 2 * block.units.toNat
  omega

theorem forward_stored (mem : Nat → Int) (sp : Nat) :
    Forward Block.addr Block.stop (Stored mem sp) :=
  ⟨fun _ _ h => h.lt_stop, fun _ _ h => h.stop_le⟩

theorem Stored.page_eq (h : Stored mem sp block next) : block.addr / PAGE_SIZE = sp := by
  have hstart : sp * 4096 ≤ block.addr := h.start_le
  have hstop := h.stop_le
  have hend : next ≤ (sp + 1) * 4096 := h.next_le
  have hlt := h.lt_stop
  show block.addr / 4096 = sp
  omega

theorem Stored.advance_offset (h : Stored mem sp block next) :
    advance (block.addr / PAGE_SIZE * PAGE_SIZE) (((next : Int) - pageStart sp) / SLOB_UNIT) =
      next := by
  have hstart : sp * 4096 ≤ block.addr := h.start_le
  have hstop := h.stop_le
  have hlt := h.lt_stop
  have hnext : 2 ∣ next := h.next_even
  rw [h.page_eq]
  show ((sp * 4096 : Nat) + ((next : Int) - (sp * 4096 : Nat)) / 2 * 2 : Int).toNat = next
  omega

theorem Stored.offset_pos (h : Stored mem sp block next) :
    0 < ((next : Int) - pageStart sp) / SLOB_UNIT := by
  have hpos := h.pos
  have hstart : sp * 4096 ≤ block.addr := h.start_le
  have hstop : block.addr + 2 * block.units.toNat ≤ next := h.stop_le
  show 0 < ((next : Int) - (sp * 4096 : Nat)) / 2
  omega

theorem Stored.slobUnits (hk : kernel.Encodes) (h : Stored mem sp block next) :
    kernel.slobUnits mem block.addr = block.units := by
  have hpos := h.pos
  have hoffset := h.offset_pos
  have hcells := h.cells
  rw [hk.slobUnits]
  split at hcells
  · rw [hcells.1, if_pos (by omega)]
  · rw [hcells, if_neg (by omega)]
    omega

theorem Stored.slobNext (hk : kernel.Encodes) (h : Stored mem sp block next) :
    kernel.slobNext mem block.addr = next := by
  have hpos := h.pos
  have hoffset := h.offset_pos
  have hcells := h.cells
  have hread : nextOffset mem block.addr = ((next : Int) - pageStart sp) / SLOB_UNIT := by
    rw [nextOffset]
    split at hcells
    · rw [if_neg (by omega), hcells.2]
    · rw [if_pos (by omega), hcells, Int.neg_neg]
  rw [hk.slobNext, hread, h.advance_offset]

theorem Stored.slobLast (hk : kernel.Encodes) (h : Stored mem sp block next) :
    kernel.slobLast mem block.addr = decide (next = pageEnd sp) := by
  have hstart : sp * 4096 ≤ block.addr := h.start_le
  have hstop := h.stop_le
  have hend : next ≤ (sp + 1) * 4096 := h.next_le
  have hlt := h.lt_stop
  rw [hk.slobLast, h.slobNext hk, decide_eq_decide]
  show next % 4096 = 0 ↔ next = (sp + 1) * 4096
  omega

theorem Stored.frame (h : Stored mem sp block next)
    (hmem : ∀ cell, block.addr ≤ SLOB_UNIT * cell → SLOB_UNIT * cell < block.stop →
      mem' cell = mem cell) : Stored mem' sp block next := by
  have hpos := h.pos
  have heven : 2 ∣ block.addr := h.addr_even
  have hfirst : mem' (block.addr / SLOB_UNIT) = mem (block.addr / SLOB_UNIT) := by
    apply hmem
    · show block.addr ≤ 2 * (block.addr / 2)
      omega
    · show 2 * (block.addr / 2) < block.addr + 2 * block.units.toNat
      omega
  refine { h with cells := ?_ }
  have hcells := h.cells
  split at hcells
  · rename_i hunits
    have hsecond : mem' (block.addr / SLOB_UNIT + 1) = mem (block.addr / SLOB_UNIT + 1) := by
      apply hmem
      · show block.addr ≤ 2 * (block.addr / 2 + 1)
        omega
      · show 2 * (block.addr / 2 + 1) < block.addr + 2 * block.units.toNat
        omega
    rw [if_pos hunits, hfirst, hsecond]
    exact hcells
  · rename_i hunits
    rw [if_neg hunits, hfirst]
    exact hcells

theorem setSlob_frame (hk : kernel.Encodes) (mem : Nat → Int) (next : Nat) (block : Block)
    (hpos : 1 ≤ block.units) (heven : SLOB_UNIT ∣ block.addr) {cell : Nat}
    (hcell : ¬ (block.addr ≤ SLOB_UNIT * cell ∧ SLOB_UNIT * cell < block.stop)) :
    kernel.setSlob mem block.addr block.units next cell = mem cell := by
  have heven' : 2 ∣ block.addr := heven
  have hcell' : ¬ (block.addr ≤ 2 * cell ∧ 2 * cell < block.addr + 2 * block.units.toNat) := hcell
  have hfirst : cell ≠ block.addr / SLOB_UNIT := by
    show cell ≠ block.addr / 2
    omega
  rw [hk.setSlob]
  dsimp only
  split
  · have hsecond : cell ≠ block.addr / SLOB_UNIT + 1 := by
      show cell ≠ block.addr / 2 + 1
      omega
    rw [Function.update_of_ne hsecond, Function.update_of_ne hfirst]
  · rw [Function.update_of_ne hfirst]

theorem stored_setSlob (hk : kernel.Encodes) (mem : Nat → Int) (sp next : Nat) (block : Block)
    (hpos : 1 ≤ block.units) (haddr : SLOB_UNIT ∣ block.addr) (hnext : SLOB_UNIT ∣ next)
    (hstart : pageStart sp ≤ block.addr) (hstop : block.stop ≤ next) (hend : next ≤ pageEnd sp) :
    Stored (kernel.setSlob mem block.addr block.units next) sp block next := by
  refine ⟨hpos, haddr, hnext, hstart, hstop, hend, ?_⟩
  have hpage : block.addr / PAGE_SIZE = sp := by
    have hstart' : sp * 4096 ≤ block.addr := hstart
    have hstop' : block.addr + 2 * block.units.toNat ≤ next := hstop
    have hend' : next ≤ (sp + 1) * 4096 := hend
    show block.addr / 4096 = sp
    omega
  rw [hk.setSlob, hpage]
  dsimp only [pageStart]
  by_cases hunits : block.units > 1
  · simp [hunits]
  · simp [hunits]

end

/-! ## The list as a whole -/

section

variable {kernel : Kernel (Nat → Int)} {st : Allocator (Nat → Int)} {mem : Nat → Int}
  {sp cur : Nat} {blocks : List Block}

theorem freeList_of_path (hk : kernel.Encodes) (h : FreePath mem sp cur blocks (pageEnd sp))
    (hne : blocks ≠ []) : FreeList kernel mem cur blocks := by
  induction blocks generalizing cur with
  | nil => contradiction
  | cons block rest ih =>
      rcases h with ⟨rfl, next, hstored, hrest⟩
      have hblock : block = ⟨block.addr, kernel.slobUnits mem block.addr⟩ := by
        rw [hstored.slobUnits hk]
      have hlast := hstored.slobLast hk
      rw [hblock]
      cases rest with
      | nil =>
          obtain rfl : next = pageEnd sp := hrest
          exact .last (by simpa using hlast)
      | cons other rest =>
          have hlt := hrest.lt (forward_stored mem sp) (List.cons_ne_nil other rest)
          apply FreeList.next
          · rw [hlast, decide_eq_false_iff_not]
            omega
          · rw [hstored.slobNext hk]
            exact ih hrest (List.cons_ne_nil other rest)

theorem PageList.pos (h : PageList st sp blocks) : ∀ block ∈ blocks, 1 ≤ block.units := by
  intro block hblock
  rcases h.path.exists_link hblock with ⟨next, hstored⟩
  exact hstored.pos

theorem PageList.ne_nil (h : PageList st sp blocks) (hpos : 0 < (st.page sp).units) :
    blocks ≠ [] := by
  rintro rfl
  have hsum := h.sum_eq
  rw [List.map_nil, List.sum_nil] at hsum
  omega

theorem PageList.units_eq_zero_iff (h : PageList st sp blocks) :
    (st.page sp).units = 0 ↔ ∀ point, ¬ Free blocks point := by
  have hcovered := h.path.covered_iff_ne_nil (forward_stored st.mem sp)
  rw [← not_exists, hcovered, not_not]
  constructor
  · intro hzero
    have hlength := length_le_sum_units h.pos
    rw [h.sum_eq, hzero] at hlength
    exact List.length_eq_zero_iff.mp (by omega)
  · rintro rfl
    exact h.sum_eq.symm

theorem PageList.start_le (h : PageList st sp blocks) (hne : blocks ≠ []) :
    pageStart sp ≤ (st.page sp).freelist := by
  cases blocks with
  | nil => contradiction
  | cons block rest =>
      rcases h.path with ⟨haddr, next, hstored, -⟩
      exact haddr ▸ hstored.start_le

theorem PageList.virtToPage_eq (h : PageList st sp blocks) {point : Nat}
    (hpoint : Free blocks point) : virtToPage point = sp := by
  have hne : blocks ≠ [] := by
    rintro rfl
    exact covered_nil point hpoint
  have hstart : sp * 4096 ≤ (st.page sp).freelist := h.start_le hne
  have hbounds := h.path.covered_bounds (forward_stored st.mem sp) hpoint
  have hend : pageEnd sp = (sp + 1) * 4096 := rfl
  show point / 4096 = sp
  omega

theorem PageList.wellFormed (h : PageList st sp blocks) (hk : kernel.Encodes) (hne : blocks ≠ []) :
    WellFormed kernel st sp blocks := by
  refine ⟨freeList_of_path hk h.path hne, h.pos, h.sum_eq, ?_⟩
  have hsize : ∀ block ∈ blocks, (block.addr : Int) + 2 * block.units ≤ block.stop := by
    intro block hblock
    have hpos := h.pos block hblock
    have hstop : block.stop = block.addr + 2 * block.units.toNat := rfl
    omega
  have hroom := h.path.sum_le (forward_stored st.mem sp) hsize
  have hstart : sp * 4096 ≤ (st.page sp).freelist := h.start_le hne
  have hend : pageEnd sp = (sp + 1) * 4096 := rfl
  rw [h.sum_eq] at hroom
  show (st.page sp).units ≤ 2048
  omega

end

end Ece318.Slob
