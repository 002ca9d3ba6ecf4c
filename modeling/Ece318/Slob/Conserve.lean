import Ece318.Slob.Carve
import Ece318.Slob.FreeSpace

/-!
# Free space over one `slob_alloc`

With `BEST_FIT`, `slob_alloc` takes the units of the request from a page that has
a block with room, or from a fresh page that it puts on a list first.  Either way
the free lists hold as much less as the request takes, and a page that became full
is on no list.
-/

namespace Ece318.Slob

open Ece318.Foundation

section

variable {Mem : Type}

/-- The pages that SLOB holds: each is on a list, once, exactly if it has free units. -/
structure Listed (st : Allocator Mem) (held : List Nat) : Prop where
  tidy : st.Tidy
  isHeld : ∀ sp ∈ st.listed, sp ∈ held
  iff_units : ∀ sp ∈ held, sp ∈ st.listed ↔ 0 < (st.page sp).units

/-- Every page but one is the same, and on the same list. -/
structure ChangesOnly (sp : Nat) (st st' : Allocator Mem) : Prop where
  page : ∀ other, other ≠ sp → st'.page other = st.page other
  free : ∀ other, other ≠ sp → ∀ list, other ∈ st'.free list ↔ other ∈ st.free list

/-- A page has given the units of a request, and has left its list if it is full now. -/
structure GivesUnits (sp : Nat) (r : SlobRequest) (st st' : Allocator Mem) : Prop
    extends ChangesOnly sp st st' where
  units : (st'.page sp).units = (st.page sp).units - r.units
  listed : st'.listed.Perm
    (if (st.page sp).units - r.units = 0 then st.listed.erase sp else st.listed)

variable {kernel : Kernel Mem} {st st' st'' : Allocator Mem} {held : List Nat} {sp : Nat}
  {r : SlobRequest}

theorem ChangesOnly.trans (h : ChangesOnly sp st st') (h' : ChangesOnly sp st' st'') :
    ChangesOnly sp st st'' where
  page other hne := (h'.page other hne).trans (h.page other hne)
  free other hne list := (h'.free other hne list).trans (h.free other hne list)

theorem ChangesOnly.mem_listed (h : ChangesOnly sp st st') {other : Nat} (hne : other ≠ sp) :
    other ∈ st'.listed ↔ other ∈ st.listed := by
  simp only [Allocator.listed, List.mem_append, h.free other hne]

theorem mem_listed {list : SizeClass} (h : sp ∈ st.free list) : sp ∈ st.listed := by
  unfold Allocator.listed
  cases list <;> simp [h]

/-! ## A page gives units -/

theorem takenFrom_givesUnits (hlaw : kernel.Lawful) (htidy : st.Tidy) (sp : Nat) (r : SlobRequest)
    (mem : Mem) (freelist : Nat) :
    GivesUnits sp r st (takenFrom kernel st sp r mem freelist) where
  page other hne := by simp [takenFrom, hne]
  units := by simp [takenFrom]
  free other hne list := by
    dsimp only [takenFrom]
    split
    · rw [(hlaw.clearSlobPageFree sp (st.free list)).mem_iff, List.mem_erase_of_ne hne]
    · rfl
  listed := by
    unfold Allocator.listed takenFrom
    dsimp only
    split
    · exact listed_clear hlaw sp htidy
    · exact List.Perm.refl _

theorem GivesUnits.calcFreeSpace_eq (h : GivesUnits sp r st st') (htidy : st.Tidy)
    (hsp : sp ∈ st.listed) : calcFreeSpace st' = calcFreeSpace st - r.units := by
  have hperm := List.perm_cons_erase hsp
  have hnot : sp ∉ st.listed.erase sp := htidy.not_mem_erase
  have hbefore := calcFreeSpace_of_cons st hperm hnot fun _ _ => rfl
  have hlisted := h.listed
  have hunits := h.units
  split at hlisted
  · -- the page had as much left as it gave
    have hothers : (st.listed.erase sp).map (fun sp => (st'.page sp).units) =
        (st.listed.erase sp).map fun sp => (st.page sp).units := by
      apply List.map_congr_left
      intro other hother
      rw [h.page]
      rintro rfl
      exact hnot hother
    rw [calcFreeSpace_of_perm hlisted, hothers, hbefore]
    omega
  · rw [calcFreeSpace_of_cons st (hlisted.trans hperm) hnot h.page, hbefore, hunits]
    omega

theorem GivesUnits.keeps (h : GivesUnits sp r st st') (hst : Listed st held)
    (hsp : sp ∈ st.listed) (hle : r.units ≤ (st.page sp).units) : Listed st' held := by
  have hunits := h.units
  have hmem : ∀ other, other ∈ st'.listed ↔
      other ∈ st.listed ∧ (other = sp → 0 < (st'.page sp).units) := by
    intro other
    rw [h.listed.mem_iff, hunits]
    split
    · rename_i hzero
      rw [hst.tidy.mem_erase_iff, hzero]
      simp only [Int.lt_irrefl]
      tauto
    · have hpos : 0 < (st.page sp).units - r.units := by omega
      exact ⟨fun hlisted => ⟨hlisted, fun _ => hpos⟩, And.left⟩
  refine ⟨?_, fun other hother => hst.isHeld other ((hmem other).mp hother).1, ?_⟩
  · have hlisted := h.listed
    split at hlisted
    · exact hlisted.nodup_iff.mpr (hst.tidy.erase _)
    · exact hlisted.nodup_iff.mpr hst.tidy
  · intro other hother
    rw [hmem]
    by_cases hne : other = sp
    · subst hne
      simp [hsp]
    · rw [h.page other hne, ← hst.iff_units other hother]
      simp [hne]

theorem slobPageAlloc_takenFrom {b : Nat} {removed : Bool}
    (h : slobPageAlloc kernel st (some sp) r = .ok (some b, removed, st')) :
    ∃ mem freelist, st' = takenFrom kernel st sp r mem freelist := by
  rw [slobPageAlloc, bind_eq_ok] at h
  rcases h with ⟨choice, -, h⟩
  cases hblock : choice.bestBlock with
  | none =>
      rw [hblock] at h
      cases h
  | some bestBlock =>
      rw [hblock] at h
      have hcarve := Except.ok.inj h
      rw [carve_of_split rfl rfl] at hcarve
      cases hcarve
      exact ⟨_, _, rfl⟩

/-! ## A page is added -/

theorem addFreshPage_changesOnly (hlaw : kernel.Lawful) (st : Allocator Mem) (r : SlobRequest)
    (b : Nat) : ChangesOnly (virtToPage b) st (addFreshPage kernel st r b) where
  page other hne := by simp [addFreshPage, hne]
  free other hne list := by
    dsimp only [addFreshPage]
    by_cases hlist : list = kernel.slobList r.size
    · subst hlist
      rw [Function.update_self, (hlaw.setSlobPageFree _ _).mem_iff, List.mem_cons]
      simp [hne]
    · rw [Function.update_of_ne hlist]

theorem addFreshPage_listed (hlaw : kernel.Lawful) (hst : Listed st held) (r : SlobRequest)
    {b : Nat} (hb : virtToPage b ∉ held) :
    Listed (addFreshPage kernel st r b) (virtToPage b :: held) ∧
      virtToPage b ∈ (addFreshPage kernel st r b).listed ∧
      calcFreeSpace (addFreshPage kernel st r b) = calcFreeSpace st + SLOB_UNITS PAGE_SIZE := by
  have hnot : virtToPage b ∉ st.listed := fun hlisted => hb (hst.isHeld _ hlisted)
  have hperm : (addFreshPage kernel st r b).listed.Perm (virtToPage b :: st.listed) :=
    listed_set hlaw (virtToPage b) (kernel.slobList r.size)
  have hchanges := addFreshPage_changesOnly hlaw st r b
  have hunits : ((addFreshPage kernel st r b).page (virtToPage b)).units =
      SLOB_UNITS PAGE_SIZE := by
    simp [addFreshPage]
  refine ⟨⟨addFreshPage_tidy hlaw hst.tidy r hnot, ?_, ?_⟩, ?_, ?_⟩
  · intro other hother
    rcases List.mem_cons.mp (hperm.mem_iff.mp hother) with rfl | hother
    · exact List.mem_cons_self
    · exact List.mem_cons_of_mem _ (hst.isHeld other hother)
  · intro other hother
    rw [hperm.mem_iff, List.mem_cons]
    by_cases hne : other = virtToPage b
    · rw [hne, hunits]
      exact iff_of_true (Or.inl rfl) (by decide)
    · have hheld := (List.mem_cons.mp hother).resolve_left hne
      rw [hchanges.page other hne, ← hst.iff_units other hheld]
      simp [hne]
  · exact hperm.mem_iff.mpr List.mem_cons_self
  · rw [calcFreeSpace_of_cons st hperm hnot hchanges.page, hunits,
      ← calcFreeSpace_of_perm (List.Perm.refl st.listed), add_comm]

end

/-! ## The memory of the pages -/

/-- The allocator between two calls: the free lists of the listed pages are well formed. -/
structure WellKept (st : Allocator (Nat → Int)) (held : List Nat) (blocks : Nat → List Block) :
    Prop extends Listed st held where
  pageList : ∀ sp ∈ st.listed, PageList st sp (blocks sp)

/-- A call that gave units of the page `sp`, and what it keeps. -/
structure Served (sp : Nat) (r : SlobRequest) (held : List Nat) (st st' : Allocator (Nat → Int)) :
    Prop extends ChangesOnly sp st st', Listed st' held where
  mem : r.Proper → 0 < SLOB_UNITS r.size →
    (∀ cell, virtToPage (SLOB_UNIT * cell) ≠ sp → st'.mem cell = st.mem cell) ∧
    ∃ blocks, WellKept st' held blocks

section

variable {kernel : Kernel (Nat → Int)} {st st' : Allocator (Nat → Int)} {held held' : List Nat}
  {blocks : Nat → List Block} {sp : Nat} {r : SlobRequest}

theorem PageList.frame {other : List Block} (h : PageList st sp other)
    (hpage : st'.page sp = st.page sp)
    (hmem : ∀ cell, virtToPage (SLOB_UNIT * cell) = sp → st'.mem cell = st.mem cell) :
    PageList st' sp other := by
  constructor
  · rw [hpage]
    apply h.path.mono
    intro block hblock next hstored
    apply hstored.frame
    intro cell hfirst hstop
    exact hmem cell (h.virtToPage_eq ⟨block, hblock, hfirst, hstop⟩)
  · rw [hpage]
    exact h.sum_eq

theorem WellKept.change (hst : WellKept st held blocks) (hchanges : ChangesOnly sp st st')
    (hlisted : Listed st' held')
    (hcells : ∀ cell, virtToPage (SLOB_UNIT * cell) ≠ sp → st'.mem cell = st.mem cell)
    {page : List Block} (hpage : PageList st' sp page) :
    WellKept st' held' (Function.update blocks sp page) := by
  refine ⟨hlisted, ?_⟩
  intro other hother
  by_cases hne : other = sp
  · subst hne
    rw [Function.update_self]
    exact hpage
  · rw [Function.update_of_ne hne]
    have hlisted' := (hchanges.mem_listed hne).mp hother
    apply (hst.pageList other hlisted').frame (hchanges.page other hne)
    intro cell hcell
    exact hcells cell (hcell.symm ▸ hne)

theorem WellKept.wellFormed (hk : kernel.Encodes) (hst : WellKept st held blocks)
    (r : SlobRequest) : ∀ sp ∈ pagesFor kernel st r, WellFormed kernel st sp (blocks sp) := by
  intro sp hsp
  have hlisted := mem_listed hsp
  have hpage := hst.pageList sp hlisted
  have hpos := (hst.iff_units sp (hst.isHeld sp hlisted)).mp hlisted
  exact hpage.wellFormed hk (hpage.ne_nil hpos)

theorem WellKept.counters (h : WellKept st held blocks) (totalFree totalAllocated : Int) :
    WellKept { st with totalFreeSpace := totalFree, totalAllocatedSpace := totalAllocated } held
      blocks where
  tidy := h.tidy
  isHeld := h.isHeld
  iff_units := h.iff_units
  pageList sp hsp := ⟨(h.pageList sp hsp).path, (h.pageList sp hsp).sum_eq⟩

theorem Served.refresh (h : Served sp r held st st') :
    Served sp r held st (refreshFreeSpace st') where
  page := h.page
  free := h.free
  tidy := h.tidy
  isHeld := h.isHeld
  iff_units := h.iff_units
  mem hr hpos := by
    rcases h.mem hr hpos with ⟨hcells, blocks, hkept⟩
    exact ⟨hcells, blocks, hkept.counters _ _⟩

theorem Served.after {st₀ : Allocator (Nat → Int)} (h : Served sp r held st st')
    (hchanges : ChangesOnly sp st₀ st)
    (hcells : ∀ cell, virtToPage (SLOB_UNIT * cell) ≠ sp → st.mem cell = st₀.mem cell) :
    Served sp r held st₀ st' where
  toChangesOnly := hchanges.trans h.toChangesOnly
  toListed := h.toListed
  mem hr hpos := by
    rcases h.mem hr hpos with ⟨hcells', hkept⟩
    exact ⟨fun cell hcell => (hcells' cell hcell).trans (hcells cell hcell), hkept⟩

theorem SameOutside.page {page : List Block} {mem : Nat → Int} (h : SameOutside page st.mem mem)
    (hpage : PageList st sp page) {cell : Nat} (hcell : virtToPage (SLOB_UNIT * cell) ≠ sp) :
    mem cell = st.mem cell :=
  h cell fun hfree => hcell (hpage.virtToPage_eq hfree)

theorem slobPageAlloc_served (hk : kernel.Encodes) (hlaw : kernel.Lawful)
    (hst : WellKept st held blocks) (hsp : sp ∈ st.listed) {block : Block}
    (hblock : block ∈ blocks sp) (hfits : r.Fits block) :
    ∃ b removed st', slobPageAlloc kernel st (some sp) r = .ok (some b, removed, st') ∧
      calcFreeSpace st' = calcFreeSpace st - SLOB_UNITS r.size ∧ Served sp r held st st' := by
  have hpage := hst.pageList sp hsp
  have hne : blocks sp ≠ [] := List.ne_nil_of_mem hblock
  have hwf := hpage.wellFormed hk hne
  rcases slobPageAlloc_eq hwf hblock hfits with ⟨best, hbest, hroom, -, removed, st', halloc⟩
  have hbound := hwf.units_le hbest
  have hsize : (SLOB_UNITS r.size : Int) ≤ (st.page sp).units := by
    have hdelta := r.delta_nonneg best.addr
    unfold SlobRequest.Fits SlobRequest.needed at hroom
    omega
  have hunits : r.units = SLOB_UNITS r.size := by
    have hle := hwf.le_page
    apply r.units_of_le
    omega
  rw [← hunits] at hsize ⊢
  rcases slobPageAlloc_takenFrom halloc with ⟨mem, freelist, rfl⟩
  have hgives := takenFrom_givesUnits hlaw hst.tidy sp r mem freelist
  refine ⟨_, removed, _, halloc, hgives.calcFreeSpace_eq hst.tidy hsp,
    ⟨hgives.toChangesOnly, hgives.keeps hst.toListed hsp hsize, ?_⟩⟩
  intro hr hpos
  rcases slobPageAlloc_carves hk hr (by omega) hpage hne with
    ⟨hnone, -⟩ | ⟨before, block, after, mem', freelist', heq, -, hsome, hpath, hsame⟩
  · rw [hnone] at halloc
    cases halloc
  · have hstate : takenFrom kernel st sp r mem' freelist' =
        takenFrom kernel st sp r mem freelist := by
      rw [hsome] at halloc
      exact congrArg (fun result => result.2.2) (Except.ok.inj halloc)
    have hcells : ∀ cell, virtToPage (SLOB_UNIT * cell) ≠ sp → mem' cell = st.mem cell :=
      fun cell hcell => hsame.page hpage hcell
    rw [← hstate] at hgives ⊢
    rw [heq] at hpage
    exact ⟨hcells, _, hst.change hgives.toChangesOnly (hgives.keeps hst.toListed hsp hsize) hcells
      (pageList_takenFrom kernel hpage hpath)⟩

/-! ## A fresh page -/

def freshBlock (sp : Nat) : Block := ⟨sp * PAGE_SIZE, SLOB_UNITS PAGE_SIZE⟩

theorem freshBlock_stop (sp : Nat) : (freshBlock sp).stop = pageEnd sp := by
  show sp * 4096 + 2 * 2048 = (sp + 1) * 4096
  omega

theorem addFreshPage_wellKept (hk : kernel.Encodes) (hlaw : kernel.Lawful)
    (hst : WellKept st held blocks) (r : SlobRequest) (hsp : sp ∉ held) :
    (∀ cell, virtToPage (SLOB_UNIT * cell) ≠ sp →
        (addFreshPage kernel st r (sp * PAGE_SIZE)).mem cell = st.mem cell) ∧
      WellKept (addFreshPage kernel st r (sp * PAGE_SIZE)) (sp :: held)
        (Function.update blocks sp [freshBlock sp]) := by
  have hvirt : virtToPage (sp * PAGE_SIZE) = sp := Nat.mul_div_cancel sp (by decide)
  have hchanges := addFreshPage_changesOnly hlaw st r (sp * PAGE_SIZE)
  have hlisted := (addFreshPage_listed hlaw hst.toListed r (hvirt.symm ▸ hsp)).1
  rw [hvirt] at hchanges hlisted
  have hstop := freshBlock_stop sp
  have heven : SLOB_UNIT ∣ (freshBlock sp).addr := by
    show 2 ∣ sp * 4096
    omega
  have hmem : (addFreshPage kernel st r (sp * PAGE_SIZE)).mem =
      kernel.setSlob st.mem (freshBlock sp).addr (freshBlock sp).units (pageEnd sp) := by
    rw [← hstop]
    rfl
  have hstored := stored_setSlob hk st.mem sp (pageEnd sp) (freshBlock sp)
    (show (1 : Int) ≤ 2048 by decide) heven (pageEnd_even sp) (Nat.le_refl _)
    (Nat.le_of_eq hstop) (Nat.le_refl _)
  have hcells : ∀ cell, virtToPage (SLOB_UNIT * cell) ≠ sp →
      (addFreshPage kernel st r (sp * PAGE_SIZE)).mem cell = st.mem cell := by
    intro cell hcell
    rw [hmem]
    apply setSlob_frame hk st.mem (pageEnd sp) (freshBlock sp) (show (1 : Int) ≤ 2048 by decide)
      heven
    rintro ⟨hfirst, hlast⟩
    have hfirst' : sp * 4096 ≤ 2 * cell := hfirst
    have hlast' : 2 * cell < (sp + 1) * 4096 := Nat.lt_of_lt_of_le hlast (Nat.le_of_eq hstop)
    apply hcell
    show 2 * cell / 4096 = sp
    omega
  refine ⟨hcells, hst.change hchanges hlisted hcells ⟨?_, ?_⟩⟩
  · rw [hmem]
    refine ⟨?_, pageEnd sp, hstored, rfl⟩
    simp [addFreshPage, hvirt, freshBlock]
  · simp [addFreshPage, hvirt, freshBlock]

/-! ## `slob_alloc` -/

def HasRoom (kernel : Kernel (Nat → Int)) (st : Allocator (Nat → Int)) (r : SlobRequest)
    (blocks : Nat → List Block) : Prop :=
  ∃ sp ∈ pagesFor kernel st r, PassesNode kernel r (st.page sp) ∧ ∃ block ∈ blocks sp, r.Fits block

theorem slobAlloc_existing (hk : kernel.Encodes) (hlaw : kernel.Lawful)
    (hst : WellKept st held blocks) (page : Option Nat) (hroom : HasRoom kernel st r blocks) :
    ∃ b sp st', slobAlloc kernel (bestFit kernel) st r page = .ok (some b, st') ∧
      sp ∈ pagesFor kernel st r ∧ calcFreeSpace st' = calcFreeSpace st - SLOB_UNITS r.size ∧
      Served sp r held st st' := by
  have hwf := hst.wellFormed hk r
  rcases bestFit_optimal kernel st r blocks hwf with ⟨space, bestPage, hscan, hnone, hsome⟩
  cases bestPage with
  | none =>
      rcases hroom with ⟨sp, hsp, hpasses, block, hblock, hfits⟩
      exact absurd hfits (hnone.mp rfl sp hsp hpasses block hblock)
  | some sp =>
      rcases hsome sp rfl with ⟨hsp, -, -, -, -, -, -, block, hblock, hfits, -⟩
      rcases slobPageAlloc_served hk hlaw hst (mem_listed hsp) hblock hfits with
        ⟨b, removed, st', halloc, hcalc, hserved⟩
      exact ⟨b, sp, _, slobAlloc_of_scan hscan halloc page, hsp, hcalc, hserved.refresh⟩

theorem search_eq_none (hk : kernel.Encodes) (hst : WellKept st held blocks)
    (hroom : ¬ HasRoom kernel st r blocks) :
    (bestFit kernel).search st r = .ok (none, st) := by
  have hwf := hst.wellFormed hk r
  rcases bestFit_optimal kernel st r blocks hwf with ⟨space, bestPage, hscan, -, hsome⟩
  cases bestPage with
  | none =>
      simp only [bestFit, hscan, bind, Except.bind]
      rfl
  | some sp =>
      rcases hsome sp rfl with ⟨hsp, hpasses, -, -, -, -, -, block, hblock, hfits, -⟩
      exact absurd ⟨sp, hsp, hpasses, block, hblock, hfits⟩ hroom

theorem slobAlloc_fresh (hk : kernel.Encodes) (hlaw : kernel.Lawful)
    (hst : WellKept st held blocks) (hroom : ¬ HasRoom kernel st r blocks) (hsp : sp ∉ held)
    (hfits : r.Fits (freshBlock sp)) :
    ∃ b st', slobAlloc kernel (bestFit kernel) st r (some sp) = .ok (some b, st') ∧
      calcFreeSpace st' = calcFreeSpace st + SLOB_UNITS PAGE_SIZE - SLOB_UNITS r.size ∧
      Served sp r (sp :: held) st st' := by
  have hvirt : virtToPage (sp * PAGE_SIZE) = sp := Nat.mul_div_cancel sp (by decide)
  have hst' := hst.counters st.totalFreeSpace (st.totalAllocatedSpace + sizeofPointer)
  have hchanges := addFreshPage_changesOnly hlaw
    { st with totalAllocatedSpace := st.totalAllocatedSpace + sizeofPointer } r (sp * PAGE_SIZE)
  rcases addFreshPage_listed hlaw hst'.toListed r (hvirt.symm ▸ hsp) with ⟨-, hlisted, hadded⟩
  rcases addFreshPage_wellKept hk hlaw hst' r hsp with ⟨hcells, hkept⟩
  rw [hvirt] at hchanges hlisted
  have hblock : freshBlock sp ∈ Function.update blocks sp [freshBlock sp] sp := by
    simp
  rcases slobPageAlloc_served hk hlaw hkept hlisted hblock hfits with
    ⟨b, removed, st', halloc, hcalc, hserved⟩
  refine ⟨b, refreshFreeSpace st', ?_, ?_, ?_⟩
  · have hpageAlloc : (bestFit kernel).pageAlloc (addFreshPage kernel
        { st with totalAllocatedSpace := st.totalAllocatedSpace + sizeofPointer } r
        (sp * PAGE_SIZE)) sp r = .ok (some b, st') := by
      simp only [bestFit, halloc, bind, Except.bind]
      rfl
    simp only [slobAlloc, search_eq_none hk hst hroom, slobNewPages, bind, Except.bind, hvirt,
      hpageAlloc]
    rfl
  · have hbefore : calcFreeSpace { st with
        totalAllocatedSpace := st.totalAllocatedSpace + sizeofPointer } = calcFreeSpace st := rfl
    rw [← hbefore, ← hadded]
    exact hcalc
  · have hchanges' : ChangesOnly sp st _ := ⟨hchanges.page, hchanges.free⟩
    exact (hserved.after hchanges' hcells).refresh

end

section

variable (kernel : Kernel (Nat → Int))

/--
`slob_alloc` takes the units of the request out of what the free lists hold, to
which a fresh page is added when no page on the lists has room.  It never comes to
`BUG_ON`, and without a page it changes nothing.
-/
theorem slobAlloc_conserves (hk : kernel.Encodes) (hlaw : kernel.Lawful)
    (st : Allocator (Nat → Int)) (held : List Nat) (blocks : Nat → List Block)
    (hst : WellKept st held blocks) (r : SlobRequest) (page : Option Nat)
    (hfresh : ∀ sp ∈ page, sp ∉ held) (hfits : ∀ sp ∈ page, r.Fits (freshBlock sp)) :
    (HasRoom kernel st r blocks → ∃ b sp st',
      slobAlloc kernel (bestFit kernel) st r page = .ok (some b, st') ∧
      sp ∈ pagesFor kernel st r ∧ calcFreeSpace st' = calcFreeSpace st - SLOB_UNITS r.size ∧
      Served sp r held st st') ∧
    (¬ HasRoom kernel st r blocks → page = none →
      slobAlloc kernel (bestFit kernel) st r page = .ok (none, st)) ∧
    (¬ HasRoom kernel st r blocks → ∀ sp, page = some sp → ∃ b st',
      slobAlloc kernel (bestFit kernel) st r page = .ok (some b, st') ∧
      calcFreeSpace st' = calcFreeSpace st + SLOB_UNITS PAGE_SIZE - SLOB_UNITS r.size ∧
      Served sp r (sp :: held) st st') := by
  refine ⟨slobAlloc_existing hk hlaw hst page, ?_, ?_⟩
  · rintro hroom rfl
    simp only [slobAlloc, search_eq_none hk hst hroom, slobNewPages, bind, Except.bind]
    rfl
  · rintro hroom sp rfl
    exact slobAlloc_fresh hk hlaw hst hroom (hfresh sp rfl) (hfits sp rfl)

end

def listedPages : Allocator (Nat → Int) :=
  { samplePages with free := fun list => if list = .small then [1, 2] else [] }

theorem listedPages_wellKept : WellKept listedPages [1, 2] sampleBlocks := by
  refine ⟨⟨?_, ?_, ?_⟩, ?_⟩
  · show ([1, 2] : List Nat).Nodup
    decide
  · intro sp hsp
    exact hsp
  · decide
  · intro sp hsp
    rcases List.mem_pair.mp hsp with rfl | rfl
    · exact ⟨pageList_samplePages.path, pageList_samplePages.sum_eq⟩
    · refine ⟨⟨rfl, 12288, ?_, rfl⟩, by decide⟩
      constructor <;> decide

/-- The 4 units come out of the block of 5 units of the first page. -/
theorem slobAlloc_conserves_listedPages :
    ∃ b sp st', slobAlloc sampleKernel (bestFit sampleKernel) listedPages sampleRequest (some 3) =
        .ok (some b, st') ∧
      sp ∈ pagesFor sampleKernel listedPages sampleRequest ∧
      calcFreeSpace st' = calcFreeSpace listedPages - SLOB_UNITS sampleRequest.size ∧
      Served sp sampleRequest [1, 2] listedPages st' := by
  have hroom : HasRoom sampleKernel listedPages sampleRequest sampleBlocks :=
    ⟨1, by decide, by decide, ⟨4136, 5⟩, by decide, by decide⟩
  exact (slobAlloc_conserves sampleKernel sampleKernel_encodes sampleKernel_lawful listedPages
    [1, 2] sampleBlocks listedPages_wellKept sampleRequest (some 3) (by decide) (by decide)).1 hroom

end Ece318.Slob
