import Mathlib.Algebra.Order.Ring.Int
import Mathlib.Logic.Function.Basic
import Ece318.Foundation.Runs

/-!
# `slob_page_alloc`

The SLOB allocator of the patch, compiled with `BEST_FIT`.  An address is the
number of its byte, and a `struct page` is found by the number of its page.
What the patch calls in `mm/slob.c` and leaves as it is comes as a `Kernel`.
-/

namespace Ece318.Slob

/-- The lists `free_slob_small`, `free_slob_medium` and `free_slob_large`. -/
inductive SizeClass where
  | small
  | medium
  | large
  deriving DecidableEq, Repr

/--
What `mm/slob.c` brings: the encoding of free blocks in the memory of a page,
the list a page goes to and is taken from, and the list for a size.
-/
structure Kernel (Mem : Type) where
  slobUnits : Mem → Nat → Int
  slobNext : Mem → Nat → Nat
  slobLast : Mem → Nat → Bool
  setSlob : Mem → Nat → Int → Nat → Mem
  setSlobPageFree : Nat → List Nat → List Nat
  clearSlobPageFree : Nat → List Nat → List Nat
  slobList : Nat → SizeClass
  /-- `CONFIG_NUMA` -/
  numa : Bool

/-- What `struct page` says of a page; `nid` is its `page_to_nid`. -/
structure Page where
  freelist : Nat
  units : Int
  nid : Int
  deriving DecidableEq, Repr

structure Allocator (Mem : Type) where
  mem : Mem
  page : Nat → Page
  free : SizeClass → List Nat
  totalFreeSpace : Int
  totalAllocatedSpace : Int

/-- A loop that never ends, and `BUG_ON`. -/
inductive Fault where
  | diverges
  | bug
  deriving DecidableEq, Repr

abbrev PAGE_SIZE : Nat := 4096

abbrev SLOB_UNIT : Nat := 2

/-- `SLOB_UNITS`, in `size_t`. -/
def SLOB_UNITS (size : Nat) : Nat := (size + (SLOB_UNIT - 1)) % 2 ^ 64 / SLOB_UNIT

/-- `ALIGN`: `(x + mask) & ~mask`. -/
def ALIGN (x a : Nat) : Nat := x + (a - 1) - ((x + (a - 1)) &&& (a - 1))

/-- The arguments of `slob_alloc`, but for `gfp`. -/
structure SlobRequest where
  size : Nat
  align : Nat
  node : Int
  alignOffset : Int
  deriving DecidableEq, Repr

abbrev NUMA_NO_NODE : Int := -1

namespace SlobRequest

variable (r : SlobRequest)

/-- `SLOB_UNITS(size)` in an `int`. -/
def units : Int := (SLOB_UNITS r.size : Int).bmod (2 ^ 32)

def aligned (cur : Nat) : Nat :=
  (ALIGN (cur + r.alignOffset).toNat r.align - r.alignOffset).toNat

def delta (cur : Nat) : Int :=
  if r.align = 0 then 0 else ((r.aligned cur : Int) - cur) / SLOB_UNIT

end SlobRequest

/-- `cur + units`, for a `slob_t *`. -/
def advance (cur : Nat) (units : Int) : Nat := (cur + units * SLOB_UNIT).toNat

/-- The locals of the loop of `slob_page_alloc`. -/
structure Choice where
  bestBlock : Option Nat
  prevFromBestBlock : Option Nat
  bestBlockSpace : Int

section

variable {Mem : Type} (kernel : Kernel Mem)

/-- The loop of `slob_page_alloc`; a page holds no more blocks than units. -/
def chooseBlock (mem : Mem) (r : SlobRequest) :
    Nat → Option Nat → Nat → Choice → Except Fault Choice
  | 0, _, _, _ => .error .diverges
  | fuel + 1, prev, cur, choice =>
      let avail := kernel.slobUnits mem cur
      let space := avail - (r.units + r.delta cur)
      if avail ≥ r.units + r.delta cur ∧
          (choice.bestBlockSpace = -1 ∨ space < choice.bestBlockSpace) then
        let choice := ⟨some cur, prev, space⟩
        if space = 0 then .ok choice
        else if kernel.slobLast mem cur then .ok choice
        else chooseBlock mem r fuel (some cur) (kernel.slobNext mem cur) choice
      else if kernel.slobLast mem cur then .ok choice
      else chooseBlock mem r fuel (some cur) (kernel.slobNext mem cur) choice

/-- Where the free block before the chosen one goes on: at `next`. -/
def relinkFree (mem : Mem) (freelist : Nat) (prev : Option Nat) (next : Nat) : Mem × Nat :=
  match prev with
  | some prev => (kernel.setSlob mem prev (kernel.slobUnits mem prev) next, freelist)
  | none => (mem, next)

/-- The rest of `slob_page_alloc`: the block it returns, and whether the page left its list. -/
def carve (st : Allocator Mem) (sp : Nat) (r : SlobRequest) (bestBlock : Nat)
    (prevFromBestBlock : Option Nat) : Option Nat × Bool × Allocator Mem :=
  let page := st.page sp
  let avail := kernel.slobUnits st.mem bestBlock
  let aligned := r.aligned bestBlock
  let delta := r.delta bestBlock
  let (mem, prevFromBestBlock, bestBlock, avail) :=
    if delta ≠ 0 then
      let next := kernel.slobNext st.mem bestBlock
      let mem := kernel.setSlob st.mem aligned (avail - delta) next
      let mem := kernel.setSlob mem bestBlock delta aligned
      (mem, some bestBlock, aligned, kernel.slobUnits mem aligned)
    else (st.mem, prevFromBestBlock, bestBlock, avail)
  let next := kernel.slobNext mem bestBlock
  let (mem, freelist) :=
    if avail = r.units then relinkFree kernel mem page.freelist prevFromBestBlock next
    else
      let rest := advance bestBlock r.units
      let (mem, freelist) := relinkFree kernel mem page.freelist prevFromBestBlock rest
      (kernel.setSlob mem rest (avail - r.units) next, freelist)
  let units := page.units - r.units
  let st := { st with
    mem := mem
    page := Function.update st.page sp { page with freelist := freelist, units := units } }
  if units = 0 then
    (some bestBlock, true,
      { st with free := fun list => kernel.clearSlobPageFree sp (st.free list) })
  else (some bestBlock, false, st)

/-- `slob_page_alloc`: the block or NULL, and `*page_removed_from_list`. -/
def slobPageAlloc (st : Allocator Mem) (sp : Option Nat) (r : SlobRequest) :
    Except Fault (Option Nat × Bool × Allocator Mem) :=
  match sp with
  | none => .ok (none, false, st)
  | some sp => do
      let choice ← chooseBlock kernel st.mem r (SLOB_UNITS PAGE_SIZE) none (st.page sp).freelist
        ⟨none, none, -1⟩
      match choice.bestBlock with
      | none => return (none, false, st)
      | some bestBlock => return carve kernel st sp r bestBlock choice.prevFromBestBlock

end

end Ece318.Slob
