import Mathlib.Algebra.BigOperators.Group.List.Basic
import Mathlib.Data.List.Nodup
import Ece318.Foundation.Runs
import Ece318.Slob.BestFit

/-!
# The reported free space

`totalFreeSpace` is computed anew at the end of a `slob_alloc` that succeeds,
and nowhere else.  `slob_free` is not part of the patch: it gives the units of
the block to its page, or the whole page to the page allocator.
-/

namespace Ece318.Slob

open Ece318.Foundation

section

variable {Mem : Type}

/-- The pages on the three lists. -/
def Allocator.listed (st : Allocator Mem) : List Nat :=
  st.free .small ++ st.free .medium ++ st.free .large

def Allocator.Tidy (st : Allocator Mem) : Prop := st.listed.Nodup

/-- `list_add` and `list_del`. -/
structure Kernel.Lawful (kernel : Kernel Mem) : Prop where
  setSlobPageFree : ∀ sp list, (kernel.setSlobPageFree sp list).Perm (sp :: list)
  clearSlobPageFree : ∀ sp list, (kernel.clearSlobPageFree sp list).Perm (list.erase sp)

/-- What every build does with the lists: a search that fails leaves all as it was. -/
structure Fit.Lawful (fit : Fit Mem) : Prop where
  search_none : ∀ st r st', fit.search st r = .ok (none, st') → st' = st
  search_tidy : ∀ st r b st', st.Tidy → fit.search st r = .ok (b, st') → st'.Tidy
  pageAlloc_tidy : ∀ st sp r b st', st.Tidy → fit.pageAlloc st sp r = .ok (b, st') → st'.Tidy

def ZeroOrNull (block : Nat) : Prop := block ≤ 16

def BlockSize (size : Nat) : Prop := 0 < size ∧ size ≤ PAGE_SIZE

def FreesPage (st : Allocator Mem) (block size : Nat) : Prop :=
  (st.page (virtToPage block)).units + SLOB_UNITS size = SLOB_UNITS PAGE_SIZE

instance (block : Nat) : Decidable (ZeroOrNull block) := inferInstanceAs (Decidable (_ ≤ _))

instance (size : Nat) : Decidable (BlockSize size) := inferInstanceAs (Decidable (_ ∧ _))

instance (st : Allocator Mem) (block size : Nat) : Decidable (FreesPage st block size) :=
  inferInstanceAs (Decidable (_ = _))

/--
`slob_free`, but for what it writes into the memory of the page: NULL is left
alone, a page that is all free leaves its list and goes back, and any other page
has the units of the block again, on a list if it was on none.
-/
structure FreesBlocks (kernel : Kernel Mem)
    (slobFree : Allocator Mem → Nat → Nat → Allocator Mem) : Prop where
  null : ∀ st block size, ZeroOrNull block → slobFree st block size = st
  page : ∀ st block size, ¬ ZeroOrNull block → BlockSize size → FreesPage st block size →
    virtToPage block ∉ st.listed → slobFree st block size = slobFreePages st block 0
  listed_page : ∀ st block size, ¬ ZeroOrNull block → BlockSize size →
    FreesPage st block size → virtToPage block ∈ st.listed →
      slobFree st block size = { slobFreePages st block 0 with
        free := fun list => kernel.clearSlobPageFree (virtToPage block) (st.free list) }
  first_block : ∀ st block size, ¬ ZeroOrNull block → BlockSize size →
    ¬ FreesPage st block size → virtToPage block ∉ st.listed → ∃ mem list,
      slobFree st block size = { st with
        mem := mem
        page := Function.update st.page (virtToPage block)
          { st.page (virtToPage block) with freelist := block, units := SLOB_UNITS size }
        free := Function.update st.free list
          (kernel.setSlobPageFree (virtToPage block) (st.free list)) }
  next_block : ∀ st block size, ¬ ZeroOrNull block → BlockSize size →
    ¬ FreesPage st block size → virtToPage block ∈ st.listed → ∃ mem freelist,
      slobFree st block size = { st with
        mem := mem
        page := Function.update st.page (virtToPage block)
          { st.page (virtToPage block) with
            freelist := freelist
            units := (st.page (virtToPage block)).units + SLOB_UNITS size } }

inductive Call where
  | alloc (r : SlobRequest) (page : Option Nat)
  | free (block size : Nat)
  deriving DecidableEq, Repr

variable (kernel : Kernel Mem) (fit : Fit Mem)
  (slobFree : Allocator Mem → Nat → Nat → Allocator Mem)

def serve (st : Allocator Mem) : Call → Except Fault (Allocator Mem)
  | .alloc r page => (slobAlloc kernel fit st r page).map Prod.snd
  | .free block size => .ok (slobFree st block size)

def boot (mem : Mem) (page : Nat → Page) : Allocator Mem := ⟨mem, page, fun _ => [], 0, 0⟩

/-- The call completes, on a page that was not held yet, or gives back a block of a page. -/
def Legal (st : Allocator Mem) : Call → Prop
  | .alloc r page => (serve kernel fit slobFree st (.alloc r page)).isOk = true ∧
      ∀ sp ∈ page, sp ∉ st.listed
  | .free block size => ZeroOrNull block ∨ BlockSize size

/-- A `slob_free` of nothing, or of the whole of a page that has no free unit. -/
def KeepsFreeSpace (st : Allocator Mem) : Call → Prop
  | .alloc _ _ => True
  | .free block size => ZeroOrNull block ∨ FreesPage st block size ∧
      (virtToPage block ∉ st.listed ∨ (st.page (virtToPage block)).units = 0)

instance (st : Allocator Mem) (call : Call) : Decidable (Legal kernel fit slobFree st call) :=
  match call with
  | .alloc r page => inferInstanceAs (Decidable
      ((serve kernel fit slobFree st (.alloc r page)).isOk = true ∧ ∀ sp ∈ page, sp ∉ st.listed))
  | .free block size => inferInstanceAs (Decidable (ZeroOrNull block ∨ BlockSize size))

instance (st : Allocator Mem) (call : Call) : Decidable (KeepsFreeSpace st call) :=
  match call with
  | .alloc _ _ => .isTrue trivial
  | .free block size => inferInstanceAs (Decidable (ZeroOrNull block ∨ FreesPage st block size ∧
      (virtToPage block ∉ st.listed ∨ (st.page (virtToPage block)).units = 0)))

end

section

variable {Mem : Type} {kernel : Kernel Mem} {st : Allocator Mem} {sp : Nat}

theorem calcFreeSpace_of_perm {pages : List Nat} (h : st.listed.Perm pages) :
    calcFreeSpace st = (pages.map fun sp => (st.page sp).units).sum := by
  rw [← (h.map _).sum_eq]
  simp [calcFreeSpace, Allocator.listed, add_assoc]

theorem calcFreeSpace_of_cons (st : Allocator Mem) {st' : Allocator Mem} {others : List Nat}
    (hperm : st'.listed.Perm (sp :: others)) (hsp : sp ∉ others)
    (hpage : ∀ other, other ≠ sp → st'.page other = st.page other) :
    calcFreeSpace st' =
      (st'.page sp).units + (others.map fun other => (st.page other).units).sum := by
  rw [calcFreeSpace_of_perm hperm, List.map_cons, List.sum_cons]
  congr 2
  apply List.map_congr_left
  intro other hother
  rw [hpage]
  rintro rfl
  exact hsp hother

/-! ## Pages that enter and leave the lists -/

theorem listed_set (hkernel : kernel.Lawful) (sp : Nat) (list : SizeClass) :
    let free := Function.update st.free list (kernel.setSlobPageFree sp (st.free list))
    (free .small ++ free .medium ++ free .large).Perm (sp :: st.listed) := by
  have hset := hkernel.setSlobPageFree sp (st.free list)
  cases list with
  | small =>
      simpa [Allocator.listed] using hset.append_right (st.free .medium ++ st.free .large)
  | medium =>
      simpa [Allocator.listed] using
        ((hset.append_right (st.free .large)).append_left (st.free .small)).trans
          List.perm_middle
  | large =>
      have hmiddle : (st.free .small ++ st.free .medium ++ sp :: st.free .large).Perm
          (sp :: st.listed) := List.perm_middle
      have hlast := hset.append_left (st.free .small ++ st.free .medium)
      simpa using hlast.trans hmiddle

theorem erase_append_of_nodup {first second : List Nat} (h : (first ++ second).Nodup) :
    (first ++ second).erase sp = first.erase sp ++ second.erase sp := by
  rw [List.erase_append]
  split
  · rename_i hmem
    have hnot : sp ∉ second := fun hsecond => List.disjoint_of_nodup_append h hmem hsecond
    rw [List.erase_of_not_mem hnot]
  · rename_i hmem
    rw [List.erase_of_not_mem hmem]

theorem listed_clear (hkernel : kernel.Lawful) (sp : Nat) (h : st.Tidy) :
    let free := fun list => kernel.clearSlobPageFree sp (st.free list)
    (free .small ++ free .medium ++ free .large).Perm (st.listed.erase sp) := by
  intro free
  have hclear := fun list => hkernel.clearSlobPageFree sp (st.free list)
  have hperm := ((hclear .small).append (hclear .medium)).append (hclear .large)
  rwa [← erase_append_of_nodup h.of_append_left, ← erase_append_of_nodup h] at hperm

/-! ## `slob_free` -/

variable {slobFree : Allocator Mem → Nat → Nat → Allocator Mem} {block size : Nat}

theorem slobFree_null (hfree : FreesBlocks kernel slobFree) (h : ZeroOrNull block) :
    slobFree st block size = st :=
  hfree.null st block size h

theorem slobFree_page (hkernel : kernel.Lawful) (hfree : FreesBlocks kernel slobFree)
    (htidy : st.Tidy) (hblock : ¬ ZeroOrNull block) (hsize : BlockSize size)
    (hpage : FreesPage st block size) :
    (slobFree st block size).Tidy ∧
      calcFreeSpace (slobFree st block size) = calcFreeSpace st -
        (if virtToPage block ∈ st.listed then (st.page (virtToPage block)).units else 0) := by
  by_cases hlisted : virtToPage block ∈ st.listed
  · have hperm := listed_clear hkernel (virtToPage block) htidy
    rw [hfree.listed_page st block size hblock hsize hpage hlisted, if_pos hlisted]
    constructor
    · exact hperm.nodup_iff.mpr (htidy.erase _)
    · have hbefore := calcFreeSpace_of_perm (List.perm_cons_erase hlisted)
      rw [List.map_cons, List.sum_cons] at hbefore
      rw [hbefore, add_sub_cancel_left]
      exact calcFreeSpace_of_perm hperm
  · rw [hfree.page st block size hblock hsize hpage hlisted, if_neg hlisted, sub_zero]
    exact ⟨htidy, rfl⟩

theorem slobFree_block (hkernel : kernel.Lawful) (hfree : FreesBlocks kernel slobFree)
    (htidy : st.Tidy) (hblock : ¬ ZeroOrNull block) (hsize : BlockSize size)
    (hpage : ¬ FreesPage st block size) :
    (slobFree st block size).Tidy ∧
      calcFreeSpace (slobFree st block size) = calcFreeSpace st + SLOB_UNITS size := by
  by_cases hlisted : virtToPage block ∈ st.listed
  · rcases hfree.next_block st block size hblock hsize hpage hlisted with ⟨mem, freelist, heq⟩
    have hperm := List.perm_cons_erase hlisted
    have hnot : virtToPage block ∉ st.listed.erase (virtToPage block) := htidy.not_mem_erase
    have hbefore := calcFreeSpace_of_cons st hperm hnot fun _ _ => rfl
    have hafter : (slobFree st block size).listed.Perm
        (virtToPage block :: st.listed.erase (virtToPage block)) := by
      rw [heq]
      exact hperm
    refine ⟨hafter.nodup_iff.mpr (hperm.nodup_iff.mp htidy), ?_⟩
    rw [calcFreeSpace_of_cons st hafter hnot, hbefore, heq]
    · simp only [Function.update_self]
      omega
    · intro other hne
      rw [heq]
      exact Function.update_of_ne hne _ _
  · rcases hfree.first_block st block size hblock hsize hpage hlisted with ⟨mem, list, heq⟩
    have hafter : (slobFree st block size).listed.Perm (virtToPage block :: st.listed) := by
      rw [heq]
      exact listed_set hkernel (virtToPage block) list
    refine ⟨hafter.nodup_iff.mpr (List.nodup_cons.mpr ⟨hlisted, htidy⟩), ?_⟩
    rw [calcFreeSpace_of_cons st hafter hlisted,
      calcFreeSpace_of_perm (List.Perm.refl st.listed), heq]
    · simp only [Function.update_self]
      omega
    · intro other hne
      rw [heq]
      exact Function.update_of_ne hne _ _

theorem slobFree_totalFreeSpace (hfree : FreesBlocks kernel slobFree)
    (hlegal : ZeroOrNull block ∨ BlockSize size) :
    returnFreeSpace (slobFree st block size) = returnFreeSpace st := by
  by_cases hblock : ZeroOrNull block
  · rw [slobFree_null hfree hblock]
  · have hsize := hlegal.resolve_left hblock
    by_cases hpage : FreesPage st block size <;>
      by_cases hlisted : virtToPage block ∈ st.listed
    · rw [hfree.listed_page st block size hblock hsize hpage hlisted]
      rfl
    · rw [hfree.page st block size hblock hsize hpage hlisted]
      rfl
    · rcases hfree.next_block st block size hblock hsize hpage hlisted with ⟨mem, freelist, heq⟩
      rw [heq]
      rfl
    · rcases hfree.first_block st block size hblock hsize hpage hlisted with ⟨mem, list, heq⟩
      rw [heq]
      rfl

theorem BlockSize.units_pos (h : BlockSize size) : 0 < SLOB_UNITS size := by
  rcases h with ⟨hpos, hle⟩
  have hpage : size ≤ 4096 := hle
  show 0 < (size + 1) % 2 ^ 64 / 2
  omega

theorem slobFree_current (hkernel : kernel.Lawful) (hfree : FreesBlocks kernel slobFree)
    (htidy : st.Tidy) (hcurrent : returnFreeSpace st = calcFreeSpace st)
    (hlegal : ZeroOrNull block ∨ BlockSize size) :
    (slobFree st block size).Tidy ∧
      (returnFreeSpace (slobFree st block size) = calcFreeSpace (slobFree st block size) ↔
        KeepsFreeSpace st (.free block size)) := by
  rw [slobFree_totalFreeSpace hfree hlegal, hcurrent]
  by_cases hblock : ZeroOrNull block
  · rw [slobFree_null hfree hblock]
    exact ⟨htidy, iff_of_true rfl (.inl hblock)⟩
  · have hsize := hlegal.resolve_left hblock
    by_cases hpage : FreesPage st block size
    · rcases slobFree_page hkernel hfree htidy hblock hsize hpage with ⟨hafter, hcalc⟩
      refine ⟨hafter, ?_⟩
      rw [hcalc]
      by_cases hlisted : virtToPage block ∈ st.listed
      · have hiff : KeepsFreeSpace st (.free block size) ↔
            (st.page (virtToPage block)).units = 0 := by
          simp [KeepsFreeSpace, hblock, hpage, hlisted]
        rw [hiff, if_pos hlisted]
        omega
      · simp [KeepsFreeSpace, hpage, hlisted]
    · rcases slobFree_block hkernel hfree htidy hblock hsize hpage with ⟨hafter, hcalc⟩
      have hunits := hsize.units_pos
      refine ⟨hafter, iff_of_false ?_ ?_⟩
      · omega
      · rintro (hnull | hkeeps)
        · exact hblock hnull
        · exact hpage hkeeps.1

/-! ## `slob_alloc` -/

theorem refreshFreeSpace_current (st : Allocator Mem) :
    returnFreeSpace (refreshFreeSpace st) = calcFreeSpace (refreshFreeSpace st) := rfl

theorem addFreshPage_tidy (hkernel : kernel.Lawful) (htidy : st.Tidy) (r : SlobRequest)
    {b : Nat} (hb : virtToPage b ∉ st.listed) : (addFreshPage kernel st r b).Tidy := by
  have hperm : (addFreshPage kernel st r b).listed.Perm (virtToPage b :: st.listed) :=
    listed_set hkernel (virtToPage b) (kernel.slobList r.size)
  exact hperm.nodup_iff.mpr (List.nodup_cons.mpr ⟨hb, htidy⟩)

theorem slobAlloc_current {fit : Fit Mem} (hkernel : kernel.Lawful) (hfit : fit.Lawful)
    (htidy : st.Tidy) {r : SlobRequest} {page : Option Nat} (hpage : ∀ sp ∈ page, sp ∉ st.listed)
    {b : Option Nat} {st' : Allocator Mem} (h : slobAlloc kernel fit st r page = .ok (b, st')) :
    st'.Tidy ∧
      (returnFreeSpace st = calcFreeSpace st → returnFreeSpace st' = calcFreeSpace st') := by
  rw [slobAlloc, bind_eq_ok] at h
  rcases h with ⟨⟨found, after⟩, hsearch, h⟩
  have hafter := hfit.search_tidy _ _ _ _ htidy hsearch
  cases found with
  | some block =>
      cases h
      exact ⟨hafter, fun _ => refreshFreeSpace_current after⟩
  | none =>
      obtain rfl := hfit.search_none _ _ _ hsearch
      cases page with
      | none =>
          cases h
          exact ⟨htidy, id⟩
      | some sp =>
          dsimp only [slobNewPages] at h
          rw [bind_eq_ok] at h
          rcases h with ⟨⟨fresh, final⟩, halloc, h⟩
          have hvirt : virtToPage (sp * PAGE_SIZE) = sp :=
            Nat.mul_div_cancel sp (by decide)
          have hnew : (slobNewPages after 0 (some sp)).2.Tidy := htidy
          have hheld : virtToPage (sp * PAGE_SIZE) ∉ after.listed := by
            rw [hvirt]
            exact hpage sp rfl
          have hadded := addFreshPage_tidy hkernel hnew r hheld
          have hfresh := hfit.pageAlloc_tidy _ _ _ _ _ hadded halloc
          cases fresh with
          | none => cases h
          | some block =>
              cases h
              exact ⟨hfresh, fun _ => refreshFreeSpace_current final⟩

/-! ## The build with `BEST_FIT` -/

theorem carve_tidy (hkernel : kernel.Lawful) (htidy : st.Tidy) (sp : Nat) (r : SlobRequest)
    (bestBlock : Nat) (prev : Option Nat) :
    (carve kernel st sp r bestBlock prev).2.2.Tidy := by
  have hperm := listed_clear hkernel sp htidy
  unfold carve
  dsimp only
  split
  · exact hperm.nodup_iff.mpr (htidy.erase _)
  · exact htidy

theorem slobPageAlloc_cases {page : Option Nat} {r : SlobRequest} {b : Option Nat}
    {removed : Bool} {st' : Allocator Mem}
    (h : slobPageAlloc kernel st page r = .ok (b, removed, st')) :
    b = none ∧ st' = st ∨ b.isSome ∧ ∃ sp bestBlock prev,
      st' = (carve kernel st sp r bestBlock prev).2.2 := by
  cases page with
  | none =>
      cases h
      exact .inl ⟨rfl, rfl⟩
  | some sp =>
      rw [slobPageAlloc, bind_eq_ok] at h
      rcases h with ⟨choice, -, h⟩
      cases hblock : choice.bestBlock with
      | none =>
          rw [hblock] at h
          cases h
          exact .inl ⟨rfl, rfl⟩
      | some bestBlock =>
          rw [hblock] at h
          have hcarve := Except.ok.inj h
          refine .inr ⟨?_, sp, bestBlock, choice.prevFromBestBlock, ?_⟩
          · have hfst := carve_fst kernel st r sp bestBlock choice.prevFromBestBlock
            rw [hcarve] at hfst
            rw [show b = _ from hfst]
            rfl
          · rw [hcarve]

theorem slobPageAlloc_tidy (hkernel : kernel.Lawful) (htidy : st.Tidy) {page : Option Nat}
    {r : SlobRequest} {b : Option Nat} {removed : Bool} {st' : Allocator Mem}
    (h : slobPageAlloc kernel st page r = .ok (b, removed, st')) : st'.Tidy := by
  rcases slobPageAlloc_cases h with ⟨-, rfl⟩ | ⟨-, sp, bestBlock, prev, rfl⟩
  · exact htidy
  · exact carve_tidy hkernel htidy sp r bestBlock prev

theorem bestFit_search_cases {r : SlobRequest} {b : Option Nat} {st' : Allocator Mem}
    (h : (bestFit kernel).search st r = .ok (b, st')) :
    b = none ∧ st' = st ∨
      ∃ page removed, slobPageAlloc kernel st page r = .ok (b, removed, st') := by
  dsimp only [bestFit] at h
  rw [bind_eq_ok] at h
  rcases h with ⟨⟨space, bestPage⟩, -, h⟩
  cases bestPage with
  | none =>
      cases h
      exact .inl ⟨rfl, rfl⟩
  | some sp =>
      dsimp only at h
      rw [bind_eq_ok] at h
      rcases h with ⟨⟨found, removed, after⟩, halloc, h⟩
      cases h
      exact .inr ⟨some sp, removed, halloc⟩

theorem bestFit_lawful (hkernel : kernel.Lawful) : (bestFit kernel).Lawful where
  search_none st r st' h := by
    rcases bestFit_search_cases h with ⟨-, rfl⟩ | ⟨page, removed, halloc⟩
    · rfl
    · rcases slobPageAlloc_cases halloc with ⟨-, heq⟩ | ⟨hsome, -⟩
      · exact heq
      · cases hsome
  search_tidy st r b st' htidy h := by
    rcases bestFit_search_cases h with ⟨-, rfl⟩ | ⟨page, removed, halloc⟩
    · exact htidy
    · exact slobPageAlloc_tidy hkernel htidy halloc
  pageAlloc_tidy st sp r b st' htidy h := by
    dsimp only [bestFit] at h
    rw [bind_eq_ok] at h
    rcases h with ⟨⟨found, removed, after⟩, halloc, h⟩
    cases h
    exact slobPageAlloc_tidy hkernel htidy halloc

end

/-! ## Runs -/

section

variable {Mem : Type} {kernel : Kernel Mem} {fit : Fit Mem}
  {slobFree : Allocator Mem → Nat → Nat → Allocator Mem}

theorem serve_current (hkernel : kernel.Lawful) (hfit : fit.Lawful)
    (hfree : FreesBlocks kernel slobFree) (st : Allocator Mem) (call : Call) (htidy : st.Tidy)
    (hcurrent : returnFreeSpace st = calcFreeSpace st)
    (hlegal : Legal kernel fit slobFree st call) :
    ∃ st', serve kernel fit slobFree st call = .ok st' ∧ st'.Tidy ∧
      (returnFreeSpace st' = calcFreeSpace st' ↔ KeepsFreeSpace st call) := by
  cases call with
  | alloc r page =>
      rcases hlegal with ⟨hok, hpage⟩
      cases halloc : slobAlloc kernel fit st r page with
      | error fault =>
          rw [serve, halloc] at hok
          cases hok
      | ok result =>
          rcases slobAlloc_current hkernel hfit htidy hpage halloc with ⟨hafter, hkeeps⟩
          refine ⟨result.2, ?_, hafter, iff_of_true (hkeeps hcurrent) trivial⟩
          rw [serve, halloc]
          rfl
  | free block size => exact ⟨_, rfl, slobFree_current hkernel hfree htidy hcurrent hlegal⟩

end

section

variable {Mem : Type} (kernel : Kernel Mem) (fit : Fit Mem)
  (slobFree : Allocator Mem → Nat → Nat → Allocator Mem)

/--
From boot, after every call of the run `returnFreeSpace` is what `calcFreeSpace`
would compute, exactly if every `slob_free` of the run leaves the sum as it is.
-/
theorem freeSpace_current_iff (hkernel : kernel.Lawful) (hfit : fit.Lawful)
    (hfree : FreesBlocks kernel slobFree) (mem : Mem) (page : Nat → Page) (calls : List Call)
    (hlegal : Along (serve kernel fit slobFree) (Legal kernel fit slobFree) (boot mem page)
      calls) :
    (∀ first second, calls = first ++ second →
        ∃ st, run (serve kernel fit slobFree) (boot mem page) first = .ok st ∧
          returnFreeSpace st = calcFreeSpace st) ↔
      Along (serve kernel fit slobFree) KeepsFreeSpace (boot mem page) calls :=
  forall_prefix_iff_along Allocator.Tidy (fun st => returnFreeSpace st = calcFreeSpace st)
    (serve_current hkernel hfit hfree) List.nodup_nil rfl hlegal

end

/-! ## A `slob_free` to run -/

/-- `slob_free`, for a block before the free blocks of its page and not next to one. -/
def sampleFree (st : Allocator (Nat → Int)) (block size : Nat) : Allocator (Nat → Int) :=
  let sp := virtToPage block
  let page := st.page sp
  let units := SLOB_UNITS size
  let list := sampleKernel.slobList size
  if ZeroOrNull block then st
  else if FreesPage st block size then
    if sp ∈ st.listed then
      { slobFreePages st block 0 with
        free := fun list => sampleKernel.clearSlobPageFree sp (st.free list) }
    else slobFreePages st block 0
  else if sp ∈ st.listed then
    { st with
      mem := sampleKernel.setSlob st.mem block units page.freelist
      page := Function.update st.page sp
        { page with freelist := block, units := page.units + units } }
  else
    { st with
      mem := sampleKernel.setSlob st.mem block units ((sp + 1) * PAGE_SIZE)
      page := Function.update st.page sp { page with freelist := block, units := units }
      free := Function.update st.free list (sampleKernel.setSlobPageFree sp (st.free list)) }

theorem sampleKernel_lawful : sampleKernel.Lawful :=
  ⟨fun _ _ => .refl _, fun _ _ => .refl _⟩

theorem sampleFree_freesBlocks : FreesBlocks sampleKernel sampleFree where
  null st block size h := by simp [sampleFree, h]
  page st block size h _ hpage hlisted := by simp [sampleFree, h, hpage, hlisted]
  listed_page st block size h _ hpage hlisted := by simp [sampleFree, h, hpage, hlisted]
  first_block st block size h _ hpage hlisted := by
    refine ⟨sampleKernel.setSlob st.mem block (SLOB_UNITS size)
      ((virtToPage block + 1) * PAGE_SIZE), sampleKernel.slobList size, ?_⟩
    simp only [sampleFree, h, hpage, hlisted, if_false]
  next_block st block size h _ hpage hlisted := by
    refine ⟨sampleKernel.setSlob st.mem block (SLOB_UNITS size)
      (st.page (virtToPage block)).freelist, block, ?_⟩
    simp only [sampleFree, h, hpage, hlisted, if_false, if_true]

def samplePage (_ : Nat) : Page := ⟨0, 0, 0⟩

def takeBlock : Call := .alloc ⟨150, 0, NUMA_NO_NODE, 0⟩ (some 1)

def giveBlock : Call := .free (1 * PAGE_SIZE) 150

def wholePage : List Call :=
  [.alloc ⟨4096, 0, NUMA_NO_NODE, 0⟩ (some 1), .free (1 * PAGE_SIZE) 4096]

theorem freeSpace_current_iff_takeBlock :
    ∃ st, run (serve sampleKernel (bestFit sampleKernel) sampleFree)
        (boot (fun _ => 0) samplePage) (wholePage ++ [takeBlock]) = .ok st ∧
      returnFreeSpace st = calcFreeSpace st :=
  (freeSpace_current_iff sampleKernel (bestFit sampleKernel) sampleFree sampleKernel_lawful
    (bestFit_lawful sampleKernel_lawful) sampleFree_freesBlocks (fun _ => 0) samplePage
    (wholePage ++ [takeBlock]) (by decide)).mpr (by decide) (wholePage ++ [takeBlock]) []
    (List.append_nil _).symm

/-- The page is gone, and its units are still counted. -/
theorem giveBlock_stale :
    Along (serve sampleKernel (bestFit sampleKernel) sampleFree)
        (Legal sampleKernel (bestFit sampleKernel) sampleFree) (boot (fun _ => 0) samplePage)
        [takeBlock, giveBlock] ∧
      ∃ st, run (serve sampleKernel (bestFit sampleKernel) sampleFree)
          (boot (fun _ => 0) samplePage) [takeBlock, giveBlock] = .ok st ∧
        returnFreeSpace st = 1973 ∧ calcFreeSpace st = 0 := by
  decide

end Ece318.Slob
