import Mathlib.Algebra.BigOperators.Group.List.Basic
import Ece318.Slob.PageAlloc

/-!
# `slob_alloc`

The scan over the pages of a size class, the pages taken from and given to the
page allocator, and the two counters behind `returnFreeSpace` and
`returnAllocatedSpace`.  The page allocator answers a page number or NULL.
Both builds of `slob_alloc` end the same way; what they do first is a `Fit`.
-/

namespace Ece318.Slob

section

variable {Mem : Type}

/-! ## The counters -/

def returnFreeSpace (st : Allocator Mem) : Int := st.totalFreeSpace

def returnAllocatedSpace (st : Allocator Mem) : Int := st.totalAllocatedSpace

def calcFreeSpace (st : Allocator Mem) : Int :=
  let spaceCount := fun list => ((st.free list).map fun sp => (st.page sp).units).sum
  spaceCount .small + spaceCount .medium + spaceCount .large

/-- The size of a pointer, which both counter updates take for the size of a page. -/
abbrev sizeofPointer : Int := 8

/-- `slob_new_pages`, when the page allocator answers `page` for `1 << order` pages. -/
def slobNewPages (st : Allocator Mem) (_order : Nat) (page : Option Nat) :
    Option Nat × Allocator Mem :=
  match page with
  | none => (none, st)
  | some page =>
      (some (page * PAGE_SIZE),
        { st with totalAllocatedSpace := st.totalAllocatedSpace + sizeofPointer })

def slobFreePages (st : Allocator Mem) (_b _order : Nat) : Allocator Mem :=
  { st with totalAllocatedSpace := st.totalAllocatedSpace - sizeofPointer }

def virtToPage (b : Nat) : Nat := b / PAGE_SIZE

/-! ## The scan over the pages -/

variable (kernel : Kernel Mem)

/-- The inner loop: `best` is `bestBlockSpace` and `bestPage`. -/
def scanPage (mem : Mem) (r : SlobRequest) (sp : Nat) :
    Nat → Nat → Int × Option Nat → Except Fault (Int × Option Nat)
  | 0, _, _ => .error .diverges
  | fuel + 1, cur, best =>
      let avail := kernel.slobUnits mem cur
      let space := avail - (r.units + r.delta cur)
      if avail ≥ r.units + r.delta cur ∧ (best.1 = -1 ∨ space < best.1) then
        if space = 0 then .ok (space, some sp)
        else if kernel.slobLast mem cur then .ok (space, some sp)
        else scanPage mem r sp fuel (kernel.slobNext mem cur) (space, some sp)
      else if kernel.slobLast mem cur then .ok best
      else scanPage mem r sp fuel (kernel.slobNext mem cur) best

/-- The node check, which only `CONFIG_NUMA` makes. -/
def PassesNode (r : SlobRequest) (page : Page) : Prop :=
  ¬ (kernel.numa = true ∧ r.node ≠ NUMA_NO_NODE ∧ page.nid ≠ r.node)

instance (r : SlobRequest) (page : Page) : Decidable (PassesNode kernel r page) :=
  inferInstanceAs (Decidable (¬ _))

/-- The outer loop.  The units of the page are compared as an `unsigned long`. -/
def scanPages (st : Allocator Mem) (r : SlobRequest) :
    List Nat → Int × Option Nat → Except Fault (Int × Option Nat)
  | [], best => .ok best
  | sp :: pages, best =>
      if ¬ PassesNode kernel r (st.page sp) then scanPages st r pages best
      else if (st.page sp).units % 2 ^ 64 < SLOB_UNITS r.size then scanPages st r pages best
      else do
        let best ← scanPage kernel st.mem r sp (SLOB_UNITS PAGE_SIZE) (st.page sp).freelist best
        if best.1 = 0 then return best else scanPages st r pages best

/-! ## `slob_alloc` -/

/-- What a build of `slob_alloc` does with the free lists, and with a fresh page. -/
structure Fit (Mem : Type) where
  search : Allocator Mem → SlobRequest → Except Fault (Option Nat × Allocator Mem)
  pageAlloc : Allocator Mem → Nat → SlobRequest → Except Fault (Option Nat × Allocator Mem)

/-- The pages that the build with `BEST_FIT` looks through. -/
def pagesFor (st : Allocator Mem) (r : SlobRequest) : List Nat :=
  st.free (kernel.slobList r.size)

def bestFit : Fit Mem where
  search st r := do
    let (_, bestPage) ← scanPages kernel st r (pagesFor kernel st r) (-1, none)
    match bestPage with
    | none => return (none, st)
    | some _ =>
        let (b, _, st) ← slobPageAlloc kernel st bestPage r
        return (b, st)
  pageAlloc st sp r := do
    let (b, _, st) ← slobPageAlloc kernel st (some sp) r
    return (b, st)

/-- A page of its own for the request, with one free block. -/
def addFreshPage (st : Allocator Mem) (r : SlobRequest) (b : Nat) : Allocator Mem :=
  let sp := virtToPage b
  let list := kernel.slobList r.size
  { st with
    page := Function.update st.page sp
      { st.page sp with units := SLOB_UNITS PAGE_SIZE, freelist := b }
    mem := kernel.setSlob st.mem b (SLOB_UNITS PAGE_SIZE) (advance b (SLOB_UNITS PAGE_SIZE))
    free := Function.update st.free list (kernel.setSlobPageFree sp (st.free list)) }

def refreshFreeSpace (st : Allocator Mem) : Allocator Mem :=
  { st with totalFreeSpace := calcFreeSpace st }

/-- `slob_alloc`, when the page allocator would answer `page`. -/
def slobAlloc (fit : Fit Mem) (st : Allocator Mem) (r : SlobRequest) (page : Option Nat) :
    Except Fault (Option Nat × Allocator Mem) := do
  let (b, st) ← fit.search st r
  match b with
  | some b => return (some b, refreshFreeSpace st)
  | none =>
      match slobNewPages st 0 page with
      | (none, st) => return (none, st)
      | (some b, st) =>
          let (b, st) ← fit.pageAlloc (addFreshPage kernel st r b) (virtToPage b) r
          match b with
          | none => .error .bug
          | some b => return (some b, refreshFreeSpace st)

end

/-! ## A kernel to run it with -/

/--
`slob_units`, `slob_next`, `slob_last` and `set_slob` on a memory of `slobidx_t`;
a page goes to the front of its list.
-/
def sampleKernel : Kernel (Nat → Int) where
  slobUnits mem s := if mem (s / SLOB_UNIT) > 0 then mem (s / SLOB_UNIT) else 1
  slobNext mem s :=
    let base := s / PAGE_SIZE * PAGE_SIZE
    let next := if mem (s / SLOB_UNIT) < 0 then -mem (s / SLOB_UNIT) else mem (s / SLOB_UNIT + 1)
    advance base next
  slobLast mem s :=
    let base := s / PAGE_SIZE * PAGE_SIZE
    let next := if mem (s / SLOB_UNIT) < 0 then -mem (s / SLOB_UNIT) else mem (s / SLOB_UNIT + 1)
    advance base next % PAGE_SIZE = 0
  setSlob mem s size next :=
    let base := s / PAGE_SIZE * PAGE_SIZE
    let offset := ((next : Int) - base) / SLOB_UNIT
    if size > 1 then
      Function.update (Function.update mem (s / SLOB_UNIT) size) (s / SLOB_UNIT + 1) offset
    else Function.update mem (s / SLOB_UNIT) (-offset)
  setSlobPageFree sp list := sp :: list
  clearSlobPageFree sp list := list.erase sp
  slobList size := if size < 256 then .small else if size < 1024 then .medium else .large
  numa := false

end Ece318.Slob
