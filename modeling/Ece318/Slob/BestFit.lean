import Mathlib.Algebra.Order.BigOperators.Group.List
import Mathlib.Algebra.Order.Ring.Int
import Ece318.Foundation.Best
import Ece318.Slob.Alloc

/-!
# The two scans of best fit

`slob_alloc` looks for the best block of all pages and keeps its page;
`slob_page_alloc` looks for the best block of that page again.  A page that is
skipped for its units has no block that fits, and a scan that stops at an exact
fit has a block that no other can beat.
-/

namespace Ece318.Slob

open Ece318.Foundation

/-! ## Free lists -/

structure Block where
  addr : Nat
  units : Int
  deriving DecidableEq, Repr

section

variable {Mem : Type} (kernel : Kernel Mem)

/-- The blocks that `slob_next` leads through, up to the one that is `slob_last`. -/
inductive FreeList (mem : Mem) : Nat → List Block → Prop
  | last {cur : Nat} (h : kernel.slobLast mem cur = true) :
      FreeList mem cur [⟨cur, kernel.slobUnits mem cur⟩]
  | next {cur : Nat} {blocks : List Block} (h : kernel.slobLast mem cur = false)
      (hrest : FreeList mem (kernel.slobNext mem cur) blocks) :
      FreeList mem cur (⟨cur, kernel.slobUnits mem cur⟩ :: blocks)

/-- A page on a free list: its blocks have at least a unit each, `sp->units` together. -/
structure WellFormed (st : Allocator Mem) (sp : Nat) (blocks : List Block) : Prop where
  freelist : FreeList kernel st.mem (st.page sp).freelist blocks
  pos : ∀ block ∈ blocks, 1 ≤ block.units
  sum_eq : (blocks.map Block.units).sum = (st.page sp).units
  le_page : (st.page sp).units ≤ SLOB_UNITS PAGE_SIZE

end

namespace SlobRequest

variable (r : SlobRequest)

def needed (block : Block) : Int := SLOB_UNITS r.size + r.delta block.addr

/--
Room for the request, with `SLOB_UNITS(size)` as it is.  The code compares `units`, an
`int`, which is the same for every request that is no larger than a page.
-/
def Fits (block : Block) : Prop := r.needed block ≤ block.units

instance (block : Block) : Decidable (r.Fits block) :=
  inferInstanceAs (Decidable (_ ≤ _))

def leftover (block : Block) : Int := block.units - r.needed block

def beginsAt (block : Block) : Nat :=
  if r.delta block.addr = 0 then block.addr else r.aligned block.addr

theorem le_ALIGN (x a : Nat) : x ≤ ALIGN x a := by
  have hand := Nat.and_le_right (n := x + (a - 1)) (m := a - 1)
  unfold ALIGN
  omega

theorem delta_nonneg (cur : Nat) : 0 ≤ r.delta cur := by
  unfold delta
  split
  · exact Int.le_refl 0
  · have hle := le_ALIGN (cur + r.alignOffset).toNat r.align
    apply Int.ediv_nonneg
    · unfold aligned
      omega
    · decide

theorem leftover_nonneg {block : Block} (h : r.Fits block) : 0 ≤ r.leftover block := by
  unfold Fits at h
  unfold leftover
  omega

theorem units_of_le (h : SLOB_UNITS r.size ≤ SLOB_UNITS PAGE_SIZE) :
    r.units = SLOB_UNITS r.size := by
  have hpage : SLOB_UNITS PAGE_SIZE = 2048 := by decide
  unfold units
  exact Int.bmod_eq_of_le (by omega) (by omega)

end SlobRequest

def spaceOf {α : Type} (leftover : α → Int) : Option α → Int
  | none => -1
  | some best => leftover best

section

variable {Mem : Type} {kernel : Kernel Mem} {mem : Mem} {st : Allocator Mem} {r : SlobRequest}

theorem length_le_sum_units {blocks : List Block}
    (h : ∀ block ∈ blocks, (1 : Int) ≤ block.units) :
    (blocks.length : Int) ≤ (blocks.map Block.units).sum := by
  induction blocks with
  | nil => simp
  | cons block blocks ih =>
      have hhead := h block List.mem_cons_self
      have htail := ih fun other hother => h other (List.mem_cons_of_mem _ hother)
      rw [List.length_cons, List.map_cons, List.sum_cons]
      push_cast
      omega

theorem WellFormed.length_le {sp : Nat} {blocks : List Block}
    (h : WellFormed kernel st sp blocks) : blocks.length ≤ SLOB_UNITS PAGE_SIZE := by
  have hlength := length_le_sum_units h.pos
  have hsum := h.sum_eq
  have hpage := h.le_page
  omega

theorem WellFormed.units_le {sp : Nat} {blocks : List Block}
    (h : WellFormed kernel st sp blocks) {block : Block} (hblock : block ∈ blocks) :
    block.units ≤ (st.page sp).units := by
  rw [← h.sum_eq]
  apply List.single_le_sum
  · intro units hunits
    rcases List.mem_map.mp hunits with ⟨other, hother, rfl⟩
    have hpos := h.pos other hother
    omega
  · exact List.mem_map_of_mem hblock

theorem takes_iff {α : Type} (block : α → Block) {best : Option α}
    (hbest : ∀ old ∈ best, r.Fits (block old)) (item : α) :
    Takes (fun item => r.Fits (block item)) (fun item => r.leftover (block item)) best item ↔
      r.Fits (block item) ∧ (spaceOf (fun item => r.leftover (block item)) best = -1 ∨
        r.leftover (block item) < spaceOf (fun item => r.leftover (block item)) best) := by
  cases best with
  | none => simp [Takes, spaceOf]
  | some old =>
      have hnonneg := r.leftover_nonneg (hbest old rfl)
      have hne : r.leftover (block old) ≠ -1 := by omega
      simp [Takes, spaceOf, hne]

def scanState (r : SlobRequest) (best : Option (Nat × Block)) : Int × Option Nat :=
  (spaceOf (fun item => r.leftover item.2) best, best.map Prod.fst)

theorem scanPage_succ (hunits : r.units = SLOB_UNITS r.size) (sp cur fuel : Nat)
    {best : Option (Nat × Block)} (hbest : ∀ old ∈ best, r.Fits old.2) :
    let item : Nat × Block := (sp, ⟨cur, kernel.slobUnits mem cur⟩)
    let next := fun best => if kernel.slobLast mem cur then .ok (scanState r best)
      else scanPage kernel mem r sp fuel (kernel.slobNext mem cur) (scanState r best)
    scanPage kernel mem r sp (fuel + 1) cur (scanState r best) =
      if Takes (fun item => r.Fits item.2) (fun item => r.leftover item.2) best item then
        if r.leftover item.2 = 0 then .ok (scanState r (some item)) else next (some item)
      else next best := by
  intro item next
  have hcond : kernel.slobUnits mem cur ≥ r.units + r.delta cur ∧
      ((scanState r best).1 = -1 ∨ kernel.slobUnits mem cur - (r.units + r.delta cur) <
        (scanState r best).1) ↔
      Takes (fun item => r.Fits item.2) (fun item => r.leftover item.2) best item := by
    rw [takes_iff Prod.snd hbest, hunits]
    rfl
  rw [scanPage, hunits]
  rw [hunits] at hcond
  by_cases htakes : Takes (fun item => r.Fits item.2) (fun item => r.leftover item.2) best item
  · rw [if_pos (hcond.mpr htakes), if_pos htakes]
    rfl
  · rw [if_neg (mt hcond.mp htakes), if_neg htakes]

theorem scanPage_eq (hunits : r.units = SLOB_UNITS r.size) (sp : Nat) {cur : Nat}
    {blocks : List Block} (hlist : FreeList kernel mem cur blocks) {fuel : Nat}
    (hfuel : blocks.length ≤ fuel) {best : Option (Nat × Block)}
    (hbest : ∀ old ∈ best, r.Fits old.2) :
    scanPage kernel mem r sp fuel cur (scanState r best) =
      .ok (scanState r (scanBest (fun item => r.Fits item.2) (fun item => r.leftover item.2) 0
        best (blocks.map fun block => (sp, block)))) := by
  induction hlist generalizing fuel best with
  | @last cur hlast =>
      cases fuel with
      | zero => simp at hfuel
      | succ fuel =>
          rw [scanPage_succ hunits sp cur fuel hbest]
          simp only [hlast, if_true, List.map_cons, List.map_nil, scanBest]
          split
          · split <;> rfl
          · rfl
  | @next cur blocks hnext hrest ih =>
      cases fuel with
      | zero => simp at hfuel
      | succ fuel =>
          rw [List.length_cons] at hfuel
          rw [scanPage_succ hunits sp cur fuel hbest]
          simp only [hnext, Bool.false_eq_true, if_false, List.map_cons, scanBest]
          split
          · rename_i htakes
            split
            · rfl
            · exact ih (by omega) (by simpa using htakes.1)
          · exact ih (by omega) hbest

def Chosen (r : SlobRequest) (choice : Choice) (best : Option Block) : Prop :=
  choice.bestBlock = best.map Block.addr ∧ choice.bestBlockSpace = spaceOf r.leftover best

theorem chooseBlock_succ (hunits : r.units = SLOB_UNITS r.size) (prev : Option Nat)
    (cur fuel : Nat) {choice : Choice} {best : Option Block} (hchosen : Chosen r choice best)
    (hbest : ∀ old ∈ best, r.Fits old) :
    let block : Block := ⟨cur, kernel.slobUnits mem cur⟩
    let next := fun choice => if kernel.slobLast mem cur then .ok choice
      else chooseBlock kernel mem r fuel (some cur) (kernel.slobNext mem cur) choice
    chooseBlock kernel mem r (fuel + 1) prev cur choice =
      if Takes r.Fits r.leftover best block then
        if r.leftover block = 0 then .ok ⟨some cur, prev, r.leftover block⟩
        else next ⟨some cur, prev, r.leftover block⟩
      else next choice := by
  intro block next
  have hcond : kernel.slobUnits mem cur ≥ r.units + r.delta cur ∧
      (choice.bestBlockSpace = -1 ∨ kernel.slobUnits mem cur - (r.units + r.delta cur) <
        choice.bestBlockSpace) ↔ Takes r.Fits r.leftover best block := by
    rw [takes_iff (fun block => block) hbest, hunits, hchosen.2]
    rfl
  rw [chooseBlock, hunits]
  rw [hunits] at hcond
  by_cases htakes : Takes r.Fits r.leftover best block
  · rw [if_pos (hcond.mpr htakes), if_pos htakes]
    rfl
  · rw [if_neg (mt hcond.mp htakes), if_neg htakes]

theorem chooseBlock_eq (hunits : r.units = SLOB_UNITS r.size) (prev : Option Nat) {cur : Nat}
    {blocks : List Block} (hlist : FreeList kernel mem cur blocks) {fuel : Nat}
    (hfuel : blocks.length ≤ fuel) {choice : Choice} {best : Option Block}
    (hchosen : Chosen r choice best) (hbest : ∀ old ∈ best, r.Fits old) :
    ∃ choice', chooseBlock kernel mem r fuel prev cur choice = .ok choice' ∧
      Chosen r choice' (scanBest r.Fits r.leftover 0 best blocks) := by
  induction hlist generalizing fuel prev choice best with
  | @last cur hlast =>
      cases fuel with
      | zero => simp at hfuel
      | succ fuel =>
          rw [chooseBlock_succ hunits prev cur fuel hchosen hbest]
          simp only [hlast, if_true, scanBest]
          split
          · split <;> exact ⟨_, rfl, rfl, rfl⟩
          · exact ⟨_, rfl, hchosen⟩
  | @next cur blocks hnext hrest ih =>
      cases fuel with
      | zero => simp at hfuel
      | succ fuel =>
          rw [List.length_cons] at hfuel
          rw [chooseBlock_succ hunits prev cur fuel hchosen hbest]
          simp only [hnext, Bool.false_eq_true, if_false, scanBest]
          split
          · rename_i htakes
            split
            · exact ⟨_, rfl, rfl, rfl⟩
            · exact ih (some cur) (by omega) ⟨rfl, rfl⟩ (by simpa using htakes.1)
          · exact ih (some cur) (by omega) hchosen hbest

def candidates (kernel : Kernel Mem) (st : Allocator Mem) (r : SlobRequest)
    (blocks : Nat → List Block) (pages : List Nat) : List (Nat × Block) :=
  pages.flatMap fun sp =>
    if PassesNode kernel r (st.page sp) then (blocks sp).map fun block => (sp, block) else []

theorem mem_candidates {blocks : Nat → List Block} {pages : List Nat} {item : Nat × Block} :
    item ∈ candidates kernel st r blocks pages ↔
      item.1 ∈ pages ∧ PassesNode kernel r (st.page item.1) ∧ item.2 ∈ blocks item.1 := by
  unfold candidates
  rw [List.mem_flatMap]
  constructor
  · rintro ⟨sp, hsp, hitem⟩
    split at hitem
    · rename_i hpasses
      rcases List.mem_map.mp hitem with ⟨block, hblock, rfl⟩
      exact ⟨hsp, hpasses, hblock⟩
    · contradiction
  · rintro ⟨hsp, hpasses, hblock⟩
    exact ⟨item.1, hsp, by simpa [hpasses] using ⟨item.2, hblock, rfl⟩⟩

theorem mem_fitting (blocks : Nat → List Block) {pages : List Nat} (item : Nat × Block) :
    item ∈ (candidates kernel st r blocks pages).filter (fun item => r.Fits item.2) ↔
      (item.1 ∈ pages ∧ PassesNode kernel r (st.page item.1) ∧ item.2 ∈ blocks item.1) ∧
        r.Fits item.2 := by
  rw [List.mem_filter, mem_candidates, decide_eq_true_eq]

theorem candidates_cons_of_passes {blocks : Nat → List Block} {sp : Nat} {pages : List Nat}
    (h : PassesNode kernel r (st.page sp)) :
    candidates kernel st r blocks (sp :: pages) =
      (blocks sp).map (fun block => (sp, block)) ++ candidates kernel st r blocks pages := by
  simp [candidates, h]

theorem candidates_cons_of_not_passes {blocks : Nat → List Block} {sp : Nat} {pages : List Nat}
    (h : ¬ PassesNode kernel r (st.page sp)) :
    candidates kernel st r blocks (sp :: pages) = candidates kernel st r blocks pages := by
  simp [candidates, h]

theorem WellFormed.units_mod {sp : Nat} {blocks : List Block}
    (h : WellFormed kernel st sp blocks) : (st.page sp).units % 2 ^ 64 = (st.page sp).units := by
  have hlength := length_le_sum_units h.pos
  have hsum := h.sum_eq
  have hpage := h.le_page
  have h2048 : SLOB_UNITS PAGE_SIZE = 2048 := by decide
  omega

theorem WellFormed.not_fits {sp : Nat} {blocks : List Block}
    (h : WellFormed kernel st sp blocks) (hskip : (st.page sp).units < SLOB_UNITS r.size) :
    ∀ block ∈ blocks, ¬ r.Fits block := by
  intro block hblock hfits
  have hunits := h.units_le hblock
  have hdelta := r.delta_nonneg block.addr
  unfold SlobRequest.Fits SlobRequest.needed at hfits
  omega

theorem WellFormed.filter_fits_nil {sp : Nat} {blocks : List Block}
    (h : WellFormed kernel st sp blocks) (hskip : (st.page sp).units < SLOB_UNITS r.size) :
    (blocks.map fun block => (sp, block)).filter (fun item => r.Fits item.2) = [] := by
  rw [List.filter_eq_nil_iff]
  intro item hitem
  rcases List.mem_map.mp hitem with ⟨block, hblock, rfl⟩
  simpa using h.not_fits hskip block hblock

theorem scanState_eq_zero {best : Option (Nat × Block)} (h : (scanState r best).1 = 0) :
    ∃ found, best = some found ∧ r.leftover found.2 = 0 := by
  cases best with
  | none => simp [scanState, spaceOf] at h
  | some found => exact ⟨found, rfl, h⟩

theorem scanPage_isBest {sp : Nat} {blocks : List Block} (h : WellFormed kernel st sp blocks)
    (hskip : ¬ (st.page sp).units < SLOB_UNITS r.size) {items : List (Nat × Block)}
    (hitems : ∀ item ∈ items, r.Fits item.2) {best : Option (Nat × Block)}
    (hbest : IsBest (fun item => r.leftover item.2) items best) :
    ∃ best', scanPage kernel st.mem r sp (SLOB_UNITS PAGE_SIZE) (st.page sp).freelist
        (scanState r best) = .ok (scanState r best') ∧
      IsBest (fun item => r.leftover item.2) (items ++
        (blocks.map fun block => (sp, block)).filter fun item => r.Fits item.2) best' := by
  have hpage := h.le_page
  have hunits : r.units = SLOB_UNITS r.size := r.units_of_le (by omega)
  have hfits : ∀ old ∈ best, r.Fits old.2 := fun old hold => hitems old (hbest.mem hold)
  exact ⟨_, scanPage_eq hunits sp h.freelist h.length_le hfits,
    scanBest_isBest (fun item hitem => r.leftover_nonneg hitem) _ hbest⟩

theorem scanPages_eq {blocks : Nat → List Block} {pages : List Nat}
    (hwf : ∀ sp ∈ pages, WellFormed kernel st sp (blocks sp)) {items : List (Nat × Block)}
    (hitems : ∀ item ∈ items, r.Fits item.2) {best : Option (Nat × Block)}
    (hbest : IsBest (fun item => r.leftover item.2) items best) :
    ∃ best', scanPages kernel st r pages (scanState r best) = .ok (scanState r best') ∧
      IsBest (fun item => r.leftover item.2) (items ++
        (candidates kernel st r blocks pages).filter fun item => r.Fits item.2) best' := by
  induction pages generalizing items best with
  | nil => exact ⟨best, rfl, by simpa [candidates] using hbest⟩
  | cons sp pages ih =>
      have hsp := hwf sp List.mem_cons_self
      have hrest := fun other hother => hwf other (List.mem_cons_of_mem sp hother)
      rw [scanPages, hsp.units_mod]
      by_cases hpasses : PassesNode kernel r (st.page sp)
      · rw [if_neg (not_not.mpr hpasses), candidates_cons_of_passes hpasses, List.filter_append]
        by_cases hskip : (st.page sp).units < SLOB_UNITS r.size
        · rw [if_pos hskip, hsp.filter_fits_nil hskip, List.nil_append]
          exact ih hrest hitems hbest
        · rcases scanPage_isBest hsp hskip hitems hbest with ⟨best', hscan, hnew⟩
          rw [if_neg hskip, hscan, ← List.append_assoc]
          simp only [bind, Except.bind]
          split
          · rename_i hexact
            rcases scanState_eq_zero hexact with ⟨found, rfl, hzero⟩
            refine ⟨some found, rfl, ?_⟩
            exact hnew.stop (fun item hitem => r.leftover_nonneg hitem) _ hzero
          · apply ih hrest _ hnew
            intro item hitem
            rcases List.mem_append.mp hitem with hitem | hitem
            · exact hitems item hitem
            · simpa using (List.mem_filter.mp hitem).2
      · rw [if_pos hpasses, candidates_cons_of_not_passes hpasses]
        exact ih hrest hitems hbest

theorem carve_fst (kernel : Kernel Mem) (st : Allocator Mem) (r : SlobRequest)
    (sp bestBlock : Nat) (prev : Option Nat) :
    (carve kernel st sp r bestBlock prev).1 =
      some (if r.delta bestBlock = 0 then bestBlock else r.aligned bestBlock) := by
  unfold carve
  by_cases hdelta : r.delta bestBlock = 0
  · simp only [hdelta, ne_eq, not_true_eq_false, if_false, if_true]
    split <;> rfl
  · simp only [hdelta, ne_eq, not_false_eq_true, if_false, if_true]
    split <;> rfl

/-- `slob_page_alloc` of a page that has a block with room. -/
theorem slobPageAlloc_eq {sp : Nat} {blocks : List Block} (h : WellFormed kernel st sp blocks)
    {block : Block} (hblock : block ∈ blocks) (hfits : r.Fits block) :
    ∃ best ∈ blocks, r.Fits best ∧
      (∀ other ∈ blocks, r.Fits other → r.leftover best ≤ r.leftover other) ∧
      ∃ removed st', slobPageAlloc kernel st (some sp) r =
        .ok (some (r.beginsAt best), removed, st') := by
  have hunits : r.units = SLOB_UNITS r.size := by
    apply r.units_of_le
    have hpage := h.le_page
    by_contra hlarge
    exact h.not_fits (by omega) block hblock hfits
  have hstart : Chosen r ⟨none, none, -1⟩ none := ⟨rfl, rfl⟩
  rcases chooseBlock_eq hunits none h.freelist h.length_le hstart (by simp) with
    ⟨choice, hchoose, hchosen, -⟩
  have hnone : IsBest r.leftover [] none := isBest_nil
  have hbest := scanBest_isBest (fun item hitem => r.leftover_nonneg hitem) blocks hnone
  rw [List.nil_append] at hbest
  cases hscan : scanBest r.Fits r.leftover 0 none blocks with
  | none =>
      rw [hscan] at hbest
      have hmem : block ∈ blocks.filter fun item => r.Fits item :=
        List.mem_filter.mpr ⟨hblock, by simpa using hfits⟩
      rw [show blocks.filter (fun item => r.Fits item) = [] from hbest] at hmem
      exact absurd hmem List.not_mem_nil
  | some best =>
      rw [hscan] at hbest hchosen
      rcases hbest with ⟨hmem, hle⟩
      rw [List.mem_filter] at hmem
      refine ⟨best, hmem.1, by simpa using hmem.2, ?_, ?_⟩
      · intro other hother hfits'
        exact hle other (List.mem_filter.mpr ⟨hother, decide_eq_true hfits'⟩)
      · have hcarve := carve_fst kernel st r sp best.addr choice.prevFromBestBlock
        rcases hresult : carve kernel st sp r best.addr choice.prevFromBestBlock with
          ⟨b, removed, st'⟩
        rw [hresult] at hcarve
        obtain rfl : b = some (r.beginsAt best) := hcarve
        refine ⟨removed, st', ?_⟩
        simp only [slobPageAlloc, hchoose, hchosen, bind, Except.bind, Option.map_some, hresult]
        rfl

theorem slobAlloc_of_scan {space : Int} {sp : Nat} {b : Nat} {removed : Bool}
    {st' : Allocator Mem}
    (hscan : scanPages kernel st r (pagesFor kernel st r) (-1, none) = .ok (space, some sp))
    (halloc : slobPageAlloc kernel st (some sp) r = .ok (some b, removed, st'))
    (page : Option Nat) :
    slobAlloc kernel (bestFit kernel) st r page = .ok (some b, refreshFreeSpace st') := by
  simp only [slobAlloc, bestFit, hscan, halloc, bind, Except.bind]
  rfl

end

section

variable {Mem : Type} (kernel : Kernel Mem)

/--
Over any list of well-formed pages the scan finds a page unless no block of a
page that passes the node check has room.  In the page it finds,
`slob_page_alloc` takes a block that leaves the least of all, and `slob_alloc`
asks for no new page.
-/
theorem bestFit_optimal (st : Allocator Mem) (r : SlobRequest) (blocks : Nat → List Block)
    (hwf : ∀ sp ∈ pagesFor kernel st r, WellFormed kernel st sp (blocks sp)) :
    ∃ space bestPage,
      scanPages kernel st r (pagesFor kernel st r) (-1, none) = .ok (space, bestPage) ∧
      (bestPage = none ↔ ∀ sp ∈ pagesFor kernel st r, PassesNode kernel r (st.page sp) →
        ∀ block ∈ blocks sp, ¬ r.Fits block) ∧
      ∀ sp, bestPage = some sp →
        sp ∈ pagesFor kernel st r ∧ PassesNode kernel r (st.page sp) ∧
        ∃ b removed st', slobPageAlloc kernel st bestPage r = .ok (some b, removed, st') ∧
          (∀ page, slobAlloc kernel (bestFit kernel) st r page =
            .ok (some b, refreshFreeSpace st')) ∧
          ∃ block ∈ blocks sp, r.Fits block ∧ b = r.beginsAt block ∧
            ∀ other ∈ pagesFor kernel st r, PassesNode kernel r (st.page other) →
              ∀ block' ∈ blocks other, r.Fits block' →
                r.leftover block ≤ r.leftover block' := by
  have hnone : IsBest (fun item : Nat × Block => r.leftover item.2) [] none := isBest_nil
  rcases scanPages_eq hwf (by simp) hnone with ⟨best, hscan, hbest⟩
  rw [List.nil_append] at hbest
  refine ⟨_, _, hscan, ?_, ?_⟩
  · cases best with
    | none =>
        refine iff_of_true rfl fun sp hsp hpasses block hblock hfits => ?_
        have hfitting := (mem_fitting blocks (sp, block)).mpr ⟨⟨hsp, hpasses, hblock⟩, hfits⟩
        rw [show _ = [] from hbest] at hfitting
        exact absurd hfitting List.not_mem_nil
    | some found =>
        rcases (mem_fitting blocks found).mp hbest.1 with ⟨⟨hsp, hpasses, hblock⟩, hfits⟩
        refine iff_of_false (by simp) fun hno => ?_
        exact hno _ hsp hpasses _ hblock hfits
  · intro sp hsp
    cases best with
    | none => contradiction
    | some found =>
        rcases hbest with ⟨hfound, hle⟩
        rcases (mem_fitting blocks found).mp hfound with ⟨⟨hpage, hpasses, hblock⟩, hfits⟩
        obtain rfl : found.1 = sp := Option.some.inj hsp
        refine ⟨hpage, hpasses, ?_⟩
        rcases slobPageAlloc_eq (hwf _ hpage) hblock hfits with
          ⟨block, hmem', hfits', hbest, removed, st', halloc⟩
        refine ⟨_, removed, st', halloc, slobAlloc_of_scan hscan halloc, block, hmem', hfits',
          rfl, ?_⟩
        intro other hother hpasses' block' hblock' hfits''
        have hfitting := (mem_fitting blocks (other, block')).mpr
          ⟨⟨hother, hpasses', hblock'⟩, hfits''⟩
        have hglobal := hle _ hfitting
        exact (hbest found.2 hblock hfits).trans hglobal

end

def samplePages : Allocator (Nat → Int) where
  mem :=
    let mem := sampleKernel.setSlob (fun _ => 0) 4096 10 4136
    let mem := sampleKernel.setSlob mem 4136 5 8192
    sampleKernel.setSlob mem 8192 7 12288
  page sp := if sp = 1 then ⟨4096, 15, 0⟩ else ⟨8192, 7, 0⟩
  free _ := [1, 2]
  totalFreeSpace := 0
  totalAllocatedSpace := 0

def sampleBlocks : Nat → List Block
  | 1 => [⟨4096, 10⟩, ⟨4136, 5⟩]
  | _ => [⟨8192, 7⟩]

theorem wellFormed_samplePages :
    ∀ sp ∈ [1, 2], WellFormed sampleKernel samplePages sp (sampleBlocks sp) := by
  intro sp hsp
  rcases List.mem_pair.mp hsp with rfl | rfl
  · exact ⟨.next (by decide) (.last (by decide)), by decide, by decide, by decide⟩
  · exact ⟨.last (by decide), by decide, by decide, by decide⟩

def sampleRequest : SlobRequest := ⟨8, 0, NUMA_NO_NODE, 0⟩

theorem scanPages_sampleRequest :
    scanPages sampleKernel samplePages sampleRequest
        (pagesFor sampleKernel samplePages sampleRequest) (-1, none) = .ok (1, some 1) ∧
      (slobPageAlloc sampleKernel samplePages (some 1) sampleRequest).map Prod.fst =
        .ok (some 4136) := by
  decide +kernel

theorem bestFit_optimal_samplePages :
    scanPages sampleKernel samplePages sampleRequest
        (pagesFor sampleKernel samplePages sampleRequest) (-1, none) = .ok (1, some 1) ∧
      ∃ removed st',
        slobPageAlloc sampleKernel samplePages (some 1) sampleRequest =
          .ok (some 4136, removed, st') ∧
        (∀ page, slobAlloc sampleKernel (bestFit sampleKernel) samplePages sampleRequest page =
          .ok (some 4136, refreshFreeSpace st')) ∧
        sampleRequest.leftover ⟨4136, 5⟩ = 1 ∧
        ∀ other ∈ pagesFor sampleKernel samplePages sampleRequest,
          PassesNode sampleKernel sampleRequest (samplePages.page other) →
            ∀ block ∈ sampleBlocks other, sampleRequest.Fits block →
              sampleRequest.leftover ⟨4136, 5⟩ ≤ sampleRequest.leftover block := by
  obtain ⟨hscanned, hfirst⟩ := scanPages_sampleRequest
  obtain ⟨space, bestPage, hscan, -, hbest⟩ := bestFit_optimal sampleKernel samplePages
    sampleRequest sampleBlocks wellFormed_samplePages
  obtain ⟨rfl, rfl⟩ := Prod.mk.inj (Except.ok.inj (hscanned.symm.trans hscan))
  obtain ⟨-, -, b, removed, st', halloc, hserved, block, hblock, -, hbegins, hle⟩ := hbest 1 rfl
  rw [halloc] at hfirst
  obtain rfl : b = 4136 := Option.some.inj (Except.ok.inj hfirst)
  have hchosen : ∀ block ∈ sampleBlocks 1, 4136 = sampleRequest.beginsAt block →
      block = ⟨4136, 5⟩ := by
    decide
  obtain rfl := hchosen block hblock hbegins
  exact ⟨hscanned, removed, st', halloc, hserved, by decide, hle⟩

end Ece318.Slob
