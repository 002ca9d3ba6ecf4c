import Ece318.Slob.PageList

/-!
# Carving a request out of a page

`slob_page_alloc` splits the chosen block for alignment, unlinks it or leaves its
end free, and links the block before it to what follows.  Each of these writes
stays inside a free block, so the rest of the list is untouched.
-/

namespace Ece318.Slob

open Ece318.Foundation

section

variable {kernel : Kernel (Nat → Int)} {mem mem' : Nat → Int} {sp a b c : Nat}
  {blocks before after : List Block} {block : Block}

def SameOutside (blocks : List Block) (mem mem' : Nat → Int) : Prop :=
  ∀ cell, ¬ Free blocks (SLOB_UNIT * cell) → mem' cell = mem cell

theorem SameOutside.refl (blocks : List Block) (mem : Nat → Int) : SameOutside blocks mem mem :=
  fun _ _ => rfl

theorem SameOutside.trans {mem'' : Nat → Int} (h : SameOutside blocks mem mem')
    (h' : SameOutside blocks mem' mem'') : SameOutside blocks mem mem'' :=
  fun cell hcell => (h' cell hcell).trans (h cell hcell)

theorem SameOutside.mono {blocks' : List Block} (h : SameOutside blocks mem mem')
    (hsub : ∀ point, Free blocks point → Free blocks' point) : SameOutside blocks' mem mem' :=
  fun cell hcell => h cell fun hfree => hcell (hsub _ hfree)

theorem sameOutside_setSlob (hk : kernel.Encodes) (mem : Nat → Int) (next : Nat) (block : Block)
    (hpos : 1 ≤ block.units) (heven : SLOB_UNIT ∣ block.addr) :
    SameOutside [block] mem (kernel.setSlob mem block.addr block.units next) := by
  intro cell hcell
  apply setSlob_frame hk mem next block hpos heven
  simpa using hcell

theorem path_frame {others : List Block} (h : FreePath mem sp a blocks c)
    (hmem : SameOutside others mem mem')
    (hapart : ∀ point, Free blocks point → ¬ Free others point) :
    FreePath mem' sp a blocks c := by
  apply h.mono
  intro x hx next hstored
  apply hstored.frame
  intro cell hfirst hstop
  exact hmem cell (hapart _ ⟨x, hx, hfirst, hstop⟩)

def previous (before : List Block) : Option Nat := before.getLast?.map Block.addr

@[simp] theorem previous_nil : previous [] = none := rfl

@[simp] theorem previous_concat (before : List Block) (block : Block) :
    previous (before ++ [block]) = some block.addr := by
  simp [previous]

/-! ## The chosen block -/

/--
What the loop knows before it looks at `rest`.  As long as nothing is chosen, no block
had room; a choice that has been made has room, and knows the block before.
-/
structure Suits (r : SlobRequest) (before rest : List Block) (choice : Choice) : Prop where
  of_none : choice.bestBlock = none → choice.bestBlockSpace = -1 ∧
    ∀ block ∈ before, block.units < r.units + r.delta block.addr
  of_some : ∀ b, choice.bestBlock = some b → ∃ front best after,
    before ++ rest = front ++ best :: after ∧ best.addr = b ∧
      choice.prevFromBestBlock = previous front ∧ r.units + r.delta best.addr ≤ best.units

theorem Suits.none (r : SlobRequest) (rest : List Block) : Suits r [] rest ⟨none, none, -1⟩ where
  of_none _ := ⟨rfl, fun _ hblock => absurd hblock List.not_mem_nil⟩
  of_some b hb := by cases hb

theorem suits_chosen (r : SlobRequest) (before rest : List Block) (block : Block)
    (hroom : r.units + r.delta block.addr ≤ block.units) (space : Int) :
    Suits r (before ++ [block]) rest ⟨some block.addr, previous before, space⟩ where
  of_none h := by cases h
  of_some b hb := by
    obtain rfl := Option.some.inj hb
    exact ⟨before, block, rest, by simp, rfl, rfl, hroom⟩

theorem Suits.passed {r : SlobRequest} {rest : List Block} {choice : Choice}
    (h : Suits r before (block :: rest) choice)
    (hpassed : ¬ (block.units ≥ r.units + r.delta block.addr ∧ (choice.bestBlockSpace = -1 ∨
      block.units - (r.units + r.delta block.addr) < choice.bestBlockSpace))) :
    Suits r (before ++ [block]) rest choice where
  of_none hnone := by
    obtain ⟨hspace, hbefore⟩ := h.of_none hnone
    refine ⟨hspace, fun other hother => ?_⟩
    rcases List.mem_append.mp hother with hmem | hmem
    · exact hbefore other hmem
    · obtain rfl := List.mem_singleton.mp hmem
      by_contra hroom
      exact hpassed ⟨not_lt.mp hroom, Or.inl hspace⟩
  of_some b hb := by simpa using h.of_some b hb

theorem Suits.stop {r : SlobRequest} {rest : List Block} {choice : Choice} {b : Nat}
    (h : Suits r before rest choice) (hb : choice.bestBlock = some b) :
    Suits r (before ++ rest) [] choice where
  of_none hnone := by
    rw [hb] at hnone
    cases hnone
  of_some b hb := by simpa using h.of_some b hb

theorem chooseBlock_suits (hk : kernel.Encodes) (r : SlobRequest) {rest : List Block} {fuel : Nat}
    {cur : Nat} {choice : Choice} (hne : rest ≠ [])
    (hpath : FreePath mem sp cur rest (pageEnd sp)) (hfuel : rest.length ≤ fuel)
    (hsuits : Suits r before rest choice) :
    ∃ choice', chooseBlock kernel mem r fuel (previous before) cur choice = .ok choice' ∧
      Suits r (before ++ rest) [] choice' := by
  induction rest generalizing before fuel cur choice with
  | nil => contradiction
  | cons block rest ih =>
      rcases hpath with ⟨rfl, next, hstored, hrest⟩
      cases fuel with
      | zero => simp at hfuel
      | succ fuel =>
          have hfuel' : rest.length ≤ fuel := Nat.le_of_succ_le_succ hfuel
          have hunits := hstored.slobUnits hk
          have hnext := hstored.slobNext hk
          have hlast := hstored.slobLast hk
          -- what is left of the loop, with either choice
          have hgo : ∀ choice, Suits r (before ++ [block]) rest choice →
              ∃ choice', (if kernel.slobLast mem block.addr then .ok choice
                else chooseBlock kernel mem r fuel (some block.addr)
                  (kernel.slobNext mem block.addr) choice) = .ok choice' ∧
                Suits r (before ++ block :: rest) [] choice' := by
            intro choice hchoice
            rw [hlast, hnext]
            by_cases hend : next = pageEnd sp
            · obtain rfl : rest = [] := by
                by_contra hne'
                exact (hrest.lt (forward_stored mem sp) hne').ne hend
              exact ⟨choice, by simp [hend], hchoice⟩
            · have hne' : rest ≠ [] := by
                rintro rfl
                exact hend hrest
              rcases ih hne' hrest hfuel' hchoice with ⟨choice', hok, hresult⟩
              rw [previous_concat] at hok
              exact ⟨choice', by simpa [hend] using hok, by simpa using hresult⟩
          rw [chooseBlock, hunits]
          dsimp only
          split
          · rename_i hroom
            have hbest := suits_chosen r before rest block hroom.1
              (block.units - (r.units + r.delta block.addr))
            split
            · refine ⟨_, rfl, ?_⟩
              simpa using hbest.stop rfl
            · exact hgo _ hbest
          · rename_i hpassed
            exact hgo choice (hsuits.passed hpassed)

end

/-! ## Alignment -/

namespace SlobRequest

/-- The alignment is a power of two in whole units, and the offset is in whole units. -/
structure Proper (r : SlobRequest) : Prop where
  align : r.align = 0 ∨ ∃ k, r.align = 2 ^ (k + 1)
  offset : (SLOB_UNIT : Int) ∣ r.alignOffset

theorem dvd_ALIGN (x k : Nat) : 2 ^ k ∣ ALIGN x (2 ^ k) := by
  rw [ALIGN, Nat.and_two_pow_sub_one_eq_mod]
  exact Nat.dvd_sub_mod _

section

variable {r : SlobRequest}

theorem le_aligned (r : SlobRequest) (cur : Nat) : cur ≤ r.aligned cur := by
  have hle := le_ALIGN (cur + r.alignOffset).toNat r.align
  unfold aligned
  omega

theorem dvd_aligned (hr : r.Proper) (h : r.align ≠ 0) (cur : Nat) :
    (r.align : Int) ∣ r.aligned cur + r.alignOffset := by
  rcases hr.align with hzero | ⟨k, hk⟩
  · exact absurd hzero h
  · have hle := le_ALIGN (cur + r.alignOffset).toNat r.align
    have hdvd : r.align ∣ ALIGN (cur + r.alignOffset).toNat r.align := by
      rw [hk]
      exact dvd_ALIGN _ _
    have heq : (r.aligned cur : Int) + r.alignOffset =
        ALIGN (cur + r.alignOffset).toNat r.align := by
      unfold aligned
      omega
    rw [heq]
    exact Int.natCast_dvd_natCast.mpr hdvd

theorem aligned_eq_advance (hr : r.Proper) {cur : Nat} (heven : SLOB_UNIT ∣ cur)
    (h : r.align ≠ 0) : r.aligned cur = advance cur (r.delta cur) := by
  have hdvd := dvd_aligned hr h cur
  have htwo : (2 : Int) ∣ r.align := by
    rcases hr.align with hzero | ⟨k, hk⟩
    · exact absurd hzero h
    · rw [hk]
      exact ⟨2 ^ k, by push_cast; rw [Int.pow_succ]; omega⟩
  have hsum : (2 : Int) ∣ r.aligned cur + r.alignOffset := Int.dvd_trans htwo hdvd
  have hoffset : (2 : Int) ∣ r.alignOffset := hr.offset
  have hcur : 2 ∣ cur := heven
  have hle := le_aligned r cur
  rw [delta, if_neg h]
  show r.aligned cur = ((cur : Int) + ((r.aligned cur : Int) - cur) / 2 * 2).toNat
  omega

theorem beginsAt_eq (hr : r.Proper) {block : Block} (heven : SLOB_UNIT ∣ block.addr) :
    r.beginsAt block = advance block.addr (r.delta block.addr) := by
  rw [beginsAt]
  split
  · rename_i hzero
    simp [advance, hzero]
  · rename_i hdelta
    apply aligned_eq_advance hr heven
    intro hzero
    exact hdelta (by simp [delta, hzero])

theorem dvd_beginsAt (hr : r.Proper) {block : Block} (heven : SLOB_UNIT ∣ block.addr)
    (h : r.align ≠ 0) : (r.align : Int) ∣ r.beginsAt block + r.alignOffset := by
  rw [beginsAt_eq hr heven, ← aligned_eq_advance hr heven h]
  exact dvd_aligned hr h block.addr

end

end SlobRequest

/-! ## What is written -/

section

variable {Mem : Type} (kernel : Kernel Mem)

/-- The block from `aligned` on, after the front is split off: memory, `prev`, address, units. -/
def splitHead (mem : Mem) (r : SlobRequest) (prev : Option Nat) (block : Nat) :
    Mem × Option Nat × Nat × Int :=
  let avail := kernel.slobUnits mem block
  let aligned := r.aligned block
  let delta := r.delta block
  if delta ≠ 0 then
    let next := kernel.slobNext mem block
    let mem := kernel.setSlob mem aligned (avail - delta) next
    let mem := kernel.setSlob mem block delta aligned
    (mem, some block, aligned, kernel.slobUnits mem aligned)
  else (mem, prev, block, avail)

/-- The memory and the head of the list once the front of a block is taken. -/
def takeFront (mem : Mem) (freelist : Nat) (units : Int) (prev : Option Nat) (block : Nat)
    (avail : Int) : Mem × Nat :=
  let next := kernel.slobNext mem block
  if avail = units then relinkFree kernel mem freelist prev next
  else
    let rest := advance block units
    let (mem, freelist) := relinkFree kernel mem freelist prev rest
    (kernel.setSlob mem rest (avail - units) next, freelist)

theorem carve_eq (st : Allocator Mem) (sp : Nat) (r : SlobRequest) (block : Nat)
    (prev : Option Nat) :
    carve kernel st sp r block prev =
      let (mem, prev, b, avail) := splitHead kernel st.mem r prev block
      let (mem, freelist) := takeFront kernel mem (st.page sp).freelist r.units prev b avail
      let units := (st.page sp).units - r.units
      let st := { st with
        mem := mem
        page := Function.update st.page sp
          { st.page sp with freelist := freelist, units := units } }
      if units = 0 then
        (some b, true, { st with free := fun list => kernel.clearSlobPageFree sp (st.free list) })
      else (some b, false, st) := rfl

def takenFrom (st : Allocator Mem) (sp : Nat) (r : SlobRequest) (mem : Mem) (freelist : Nat) :
    Allocator Mem :=
  { st with
    mem := mem
    page := Function.update st.page sp
      { st.page sp with freelist := freelist, units := (st.page sp).units - r.units }
    free := if (st.page sp).units - r.units = 0 then
      fun list => kernel.clearSlobPageFree sp (st.free list) else st.free }

variable {kernel}

theorem carve_of_split {st : Allocator Mem} {sp block b freelist : Nat} {r : SlobRequest}
    {prev prev' : Option Nat} {mem mem' : Mem} {avail : Int}
    (hsplit : splitHead kernel st.mem r prev block = (mem, prev', b, avail))
    (htake : takeFront kernel mem (st.page sp).freelist r.units prev' b avail = (mem', freelist)) :
    carve kernel st sp r block prev =
      (some b, decide ((st.page sp).units - r.units = 0),
        takenFrom kernel st sp r mem' freelist) := by
  rw [carve_eq, hsplit]
  dsimp only
  rw [htake]
  dsimp only [takenFrom]
  split
  · rename_i hzero
    simp [hzero]
  · rename_i hleft
    simp [hleft]

end

section

variable {kernel : Kernel (Nat → Int)} {mem : Nat → Int} {sp c c' next freelist : Nat}
  {before after : List Block} {block : Block}

theorem pageEnd_even (sp : Nat) : SLOB_UNIT ∣ pageEnd sp := by
  show 2 ∣ (sp + 1) * 4096
  omega

theorem advance_eq (addr : Nat) {units : Int} (h : 0 ≤ units) :
    advance addr units = addr + SLOB_UNIT * units.toNat := by
  show ((addr : Int) + units * 2).toNat = addr + 2 * units.toNat
  omega

theorem relinkFree_path (hk : kernel.Encodes) (h : FreePath mem sp freelist before c)
    (heven : SLOB_UNIT ∣ c') (hle : c ≤ c') (hend : c' ≤ pageEnd sp) :
    let (mem', freelist') := relinkFree kernel mem freelist (previous before) c'
    FreePath mem' sp freelist' before c' ∧ SameOutside before mem mem' := by
  rcases List.eq_nil_or_concat before with rfl | ⟨front, last, rfl⟩
  · exact ⟨rfl, SameOutside.refl _ _⟩
  · rw [List.concat_eq_append] at h ⊢
    rcases path_concat.mp h with ⟨hfront, hstored⟩
    rw [previous_concat, relinkFree, hstored.slobUnits hk]
    have hsame := sameOutside_setSlob hk mem c' last hstored.pos hstored.addr_even
    have hstored' := stored_setSlob hk mem sp c' last hstored.pos hstored.addr_even heven
      hstored.start_le (Nat.le_trans hstored.stop_le hle) hend
    refine ⟨path_concat.mpr ⟨path_frame hfront hsame ?_, hstored'⟩, ?_⟩
    · intro point hpoint hlast
      have hbounds := hfront.covered_bounds (forward_stored mem sp) hpoint
      have hlast' : last.addr ≤ point ∧ point < last.stop := by simpa using hlast
      omega
    · apply hsame.mono
      intro point hpoint
      simpa using Or.inr hpoint

def remainder (block : Block) (units : Int) : List Block :=
  if block.units = units then [] else [⟨advance block.addr units, block.units - units⟩]

theorem takeFront_path (hk : kernel.Encodes) (hbefore : FreePath mem sp freelist before block.addr)
    (hstored : Stored mem sp block next) (hafter : FreePath mem sp next after (pageEnd sp))
    {units : Int} (hpos : 1 ≤ units) (hle : units ≤ block.units) :
    let (mem', freelist') :=
      takeFront kernel mem freelist units (previous before) block.addr block.units
    FreePath mem' sp freelist' (before ++ remainder block units ++ after) (pageEnd sp) ∧
      SameOutside (before ++ [block]) mem mem' := by
  have hforward := forward_stored mem sp
  have hlt := hstored.lt_stop
  have hstop := hstored.stop_le
  have hnext_le := hstored.next_le
  have hapart : ∀ point, Free after point → ¬ Free before point := by
    intro point hpoint hpoint'
    have hbounds := hafter.covered_bounds hforward hpoint
    have hbounds' := hbefore.covered_bounds hforward hpoint'
    omega
  rw [takeFront, hstored.slobNext hk, remainder]
  by_cases hexact : block.units = units
  · -- the list before the block goes on behind it
    have hrelink := relinkFree_path hk hbefore hstored.next_even (by omega) hnext_le
    rcases hout : relinkFree kernel mem freelist (previous before) next with ⟨mem', freelist'⟩
    rw [hout] at hrelink
    rcases hrelink with ⟨hpath, hsame⟩
    simp only [hexact, if_true, List.append_nil]
    refine ⟨path_append.mpr ⟨next, hpath, path_frame hafter hsame hapart⟩, ?_⟩
    apply hsame.mono
    intro point hpoint
    simp [hpoint]
  · -- and otherwise at its remainder, which is written afterwards
    have hblock : block.stop = block.addr + 2 * block.units.toNat := rfl
    have hrest : advance block.addr units = block.addr + 2 * units.toNat :=
      advance_eq block.addr (by omega)
    have heven : SLOB_UNIT ∣ advance block.addr units := by
      have haddr : 2 ∣ block.addr := hstored.addr_even
      show 2 ∣ advance block.addr units
      omega
    have hrelink := relinkFree_path hk hbefore heven (by omega) (by omega)
    rcases hout : relinkFree kernel mem freelist (previous before) (advance block.addr units)
      with ⟨mem', freelist'⟩
    rw [hout] at hrelink
    rcases hrelink with ⟨hpath, hsame⟩
    simp only [hexact, if_false, hout]
    have hrest_stop : Block.stop ⟨advance block.addr units, block.units - units⟩ = block.stop := by
      show advance block.addr units + 2 * (block.units - units).toNat = block.stop
      omega
    have hstart : pageStart sp ≤ advance block.addr units := by
      have hle := hstored.start_le
      omega
    have hleft : 1 ≤ block.units - units := by omega
    have hwritten := stored_setSlob hk mem' sp next ⟨advance block.addr units, block.units - units⟩
      hleft heven hstored.next_even hstart (hrest_stop ▸ hstop) hnext_le
    have hsame' := sameOutside_setSlob hk mem' next
      ⟨advance block.addr units, block.units - units⟩ hleft heven
    have hwithin : ∀ point, Free [⟨advance block.addr units, block.units - units⟩] point →
        block.addr ≤ point ∧ point < block.stop := by
      intro point hpoint
      have hbounds : advance block.addr units ≤ point ∧
          point < Block.stop ⟨advance block.addr units, block.units - units⟩ := by
        simpa using hpoint
      omega
    constructor
    · rw [List.append_assoc, List.singleton_append]
      refine path_middle.mpr ⟨path_frame hpath hsame' ?_, next, hwritten, ?_⟩
      · intro point hpoint hpoint'
        have hbounds := hbefore.covered_bounds hforward hpoint
        have hbounds' := hwithin point hpoint'
        omega
      · refine path_frame (path_frame hafter hsame hapart) hsame' ?_
        intro point hpoint hpoint'
        have hbounds := hafter.covered_bounds hforward hpoint
        have hbounds' := hwithin point hpoint'
        omega
    · refine (hsame.mono ?_).trans (hsame'.mono ?_)
      · intro point hpoint
        simp [hpoint]
      · intro point hpoint
        have hbounds := hwithin point hpoint
        simp [hbounds]

theorem split_stored (hk : kernel.Encodes) (hstored : Stored mem sp block next) (head rest : Block)
    (hhead : 1 ≤ head.units) (hrest : 1 ≤ rest.units) (haddr : head.addr = block.addr)
    (hmiddle : head.stop = rest.addr) (hstop : rest.stop = block.stop) :
    let mem' := kernel.setSlob (kernel.setSlob mem rest.addr rest.units next) head.addr head.units
      rest.addr
    Stored mem' sp head rest.addr ∧ Stored mem' sp rest next ∧ SameOutside [block] mem mem' := by
  intro mem'
  have hhead_stop : head.stop = head.addr + 2 * head.units.toNat := rfl
  have hrest_stop : rest.stop = rest.addr + 2 * rest.units.toNat := rfl
  have hstart := hstored.start_le
  have hnext := hstored.stop_le
  have hnext_le := hstored.next_le
  have hhead_even : SLOB_UNIT ∣ head.addr := haddr ▸ hstored.addr_even
  have hrest_even : SLOB_UNIT ∣ rest.addr := by
    have heven : 2 ∣ head.addr := hhead_even
    show 2 ∣ rest.addr
    omega
  have hwritten := stored_setSlob hk mem sp next rest hrest hrest_even hstored.next_even (by omega)
    (by omega) hnext_le
  have hsame := sameOutside_setSlob hk mem next rest hrest hrest_even
  have hwritten' := stored_setSlob hk (kernel.setSlob mem rest.addr rest.units next) sp rest.addr
    head hhead hhead_even hrest_even (by omega) (by omega) (by omega)
  have hsame' := sameOutside_setSlob hk (kernel.setSlob mem rest.addr rest.units next) rest.addr
    head hhead hhead_even
  refine ⟨hwritten', ?_, ?_⟩
  · apply hwritten.frame
    intro cell hfirst hlast
    apply hsame'
    simp only [covered_cons, covered_nil, or_false]
    omega
  · refine (hsame.mono ?_).trans (hsame'.mono ?_) <;>
    · intro point hpoint
      simp only [covered_cons, covered_nil, or_false] at hpoint ⊢
      omega

def headFragment (block : Block) (delta : Int) : List Block :=
  if delta = 0 then [] else [⟨block.addr, delta⟩]

def alignedRest (r : SlobRequest) (block : Block) : Block :=
  ⟨r.beginsAt block, block.units - r.delta block.addr⟩

theorem alignedRest_eq {r : SlobRequest} (hr : r.Proper) (heven : SLOB_UNIT ∣ block.addr)
    (hroom : r.delta block.addr ≤ block.units) :
    (alignedRest r block).addr = block.addr + SLOB_UNIT * (r.delta block.addr).toNat ∧
      (alignedRest r block).stop = block.stop := by
  have hdelta := r.delta_nonneg block.addr
  have haddr : r.beginsAt block = block.addr + 2 * (r.delta block.addr).toNat := by
    rw [SlobRequest.beginsAt_eq hr heven]
    exact advance_eq block.addr hdelta
  refine ⟨haddr, ?_⟩
  show r.beginsAt block + 2 * (block.units - r.delta block.addr).toNat =
    block.addr + 2 * block.units.toNat
  omega

structure HeadSplit (mem mem' : Nat → Int) (sp freelist next : Nat) (r : SlobRequest)
    (before after : List Block) (block : Block) : Prop where
  front : FreePath mem' sp freelist (before ++ headFragment block (r.delta block.addr))
    (alignedRest r block).addr
  rest : Stored mem' sp (alignedRest r block) next
  after : FreePath mem' sp next after (pageEnd sp)
  same : SameOutside [block] mem mem'

theorem splitHead_path (hk : kernel.Encodes) {r : SlobRequest} (hr : r.Proper)
    (hunits : 1 ≤ r.units) (hroom : r.units + r.delta block.addr ≤ block.units)
    (hbefore : FreePath mem sp freelist before block.addr) (hstored : Stored mem sp block next)
    (hafter : FreePath mem sp next after (pageEnd sp)) :
    ∃ mem', splitHead kernel mem r (previous before) block.addr =
        (mem', previous (before ++ headFragment block (r.delta block.addr)),
          (alignedRest r block).addr, (alignedRest r block).units) ∧
      HeadSplit mem mem' sp freelist next r before after block := by
  have hforward := forward_stored mem sp
  have hdelta := r.delta_nonneg block.addr
  by_cases hzero : r.delta block.addr = 0
  · have hrest : alignedRest r block = block := by
      simp [alignedRest, SlobRequest.beginsAt, hzero]
    refine ⟨mem, ?_, ?_, ?_, hafter, SameOutside.refl _ _⟩
    · simp [splitHead, hzero, headFragment, hrest, hstored.slobUnits hk]
    · simpa [headFragment, hzero, hrest] using hbefore
    · rw [hrest]
      exact hstored
  · have hlt := hstored.lt_stop
    have hstop := hstored.stop_le
    rcases alignedRest_eq hr hstored.addr_even (by omega) with ⟨haddr, hrest_stop⟩
    have haligned : r.aligned block.addr = (alignedRest r block).addr := by
      simp [alignedRest, SlobRequest.beginsAt, hzero]
    have hrest_units : (alignedRest r block).units = block.units - r.delta block.addr := rfl
    have hsplit := split_stored hk hstored ⟨block.addr, r.delta block.addr⟩ (alignedRest r block)
      (by simp only; omega) (by omega) rfl haddr.symm hrest_stop
    generalize hmem' : kernel.setSlob _ _ _ _ = mem' at hsplit
    rcases hsplit with ⟨hfragment, hrest, hsame⟩
    have hpath : FreePath mem' sp freelist before block.addr := by
      apply path_frame hbefore hsame
      intro point hpoint
      have hbounds := hbefore.covered_bounds hforward hpoint
      simp only [covered_cons, covered_nil, or_false]
      omega
    have hpath' : FreePath mem' sp next after (pageEnd sp) := by
      apply path_frame hafter hsame
      intro point hpoint
      have hbounds := hafter.covered_bounds hforward hpoint
      simp only [covered_cons, covered_nil, or_false]
      omega
    refine ⟨mem', ?_, ?_, hrest, hpath', hsame⟩
    · simp only [splitHead, hzero, ne_eq, not_false_eq_true, if_true, headFragment, if_false,
        previous_concat, haligned, hstored.slobUnits hk, hstored.slobNext hk, ← hrest_units, hmem',
        hrest.slobUnits hk]
    · simp only [headFragment, hzero, if_false]
      exact path_concat.mpr ⟨hpath, hfragment⟩

/-! ## The page that is left -/

def carved (r : SlobRequest) (before : List Block) (block : Block) (after : List Block) :
    List Block :=
  before ++ headFragment block (r.delta block.addr) ++ remainder (alignedRest r block) r.units ++
    after

theorem sum_carved (r : SlobRequest) (before : List Block) (block : Block) (after : List Block) :
    ((carved r before block after).map Block.units).sum =
      ((before ++ block :: after).map Block.units).sum - r.units := by
  have hrest : (alignedRest r block).units = block.units - r.delta block.addr := rfl
  have hhead : ((headFragment block (r.delta block.addr)).map Block.units).sum =
      r.delta block.addr := by
    rw [headFragment]
    split
    · rename_i hzero
      simp [hzero]
    · simp
  have htail : ((remainder (alignedRest r block) r.units).map Block.units).sum =
      (alignedRest r block).units - r.units := by
    rw [remainder]
    split
    · rename_i hexact
      simp [hexact]
    · simp
  simp only [carved, List.map_append, List.sum_append, List.map_cons, List.sum_cons, hhead, htail]
  omega

theorem free_headFragment (block : Block) {delta : Int} (h : 0 ≤ delta) (point : Nat) :
    Free (headFragment block delta) point ↔
      block.addr ≤ point ∧ point < advance block.addr delta := by
  have hadvance : advance block.addr delta = block.addr + 2 * delta.toNat :=
    advance_eq block.addr h
  rw [headFragment]
  split
  · simp only [covered_nil, false_iff]
    omega
  · have hstop : Block.stop ⟨block.addr, delta⟩ = advance block.addr delta := hadvance.symm
    simp only [covered_cons, covered_nil, or_false, hstop]

theorem free_remainder (block : Block) {units : Int} (h : 0 ≤ units) (hle : units ≤ block.units)
    (point : Nat) :
    Free (remainder block units) point ↔ advance block.addr units ≤ point ∧ point < block.stop := by
  have hadvance : advance block.addr units = block.addr + 2 * units.toNat := advance_eq block.addr h
  have hstop : block.stop = block.addr + 2 * block.units.toNat := rfl
  rw [remainder]
  split
  · simp only [covered_nil, false_iff]
    omega
  · have hsame : Block.stop ⟨advance block.addr units, block.units - units⟩ = block.stop := by
      show advance block.addr units + 2 * (block.units - units).toNat = block.stop
      omega
    simp only [covered_cons, covered_nil, or_false, hsame]

theorem free_carved {r : SlobRequest} (hr : r.Proper) (hunits : 1 ≤ r.units)
    (hroom : r.units + r.delta block.addr ≤ block.units)
    (hpath : FreePath mem sp freelist (before ++ block :: after) c) (point : Nat) :
    Free (carved r before block after) point ↔ Free (before ++ block :: after) point ∧
      ¬ (r.beginsAt block ≤ point ∧ point < advance (r.beginsAt block) r.units) := by
  have hforward := forward_stored mem sp
  have hdelta := r.delta_nonneg block.addr
  rcases path_middle.mp hpath with ⟨hbefore, next, hstored, hafter⟩
  have hnext := hstored.stop_le
  have hlow : Free before point → point < block.addr :=
    fun h => (hbefore.covered_bounds hforward h).2
  have hhigh : Free after point → block.stop ≤ point :=
    fun h => Nat.le_trans hnext (hafter.covered_bounds hforward h).1
  rw [carved]
  generalize r.units = units at hunits hroom ⊢
  rcases alignedRest_eq hr hstored.addr_even (by omega) with ⟨-, hstop⟩
  have haddr : r.beginsAt block = advance block.addr (r.delta block.addr) :=
    SlobRequest.beginsAt_eq hr hstored.addr_even
  have hrest : (alignedRest r block).addr = r.beginsAt block := rfl
  have hle : units ≤ (alignedRest r block).units := by
    show units ≤ block.units - r.delta block.addr
    omega
  have hbegin : r.beginsAt block = block.addr + 2 * (r.delta block.addr).toNat :=
    haddr.trans (advance_eq block.addr hdelta)
  have hend : advance (r.beginsAt block) units = r.beginsAt block + 2 * units.toNat :=
    advance_eq (r.beginsAt block) (by omega)
  have hblock : block.stop = block.addr + 2 * block.units.toNat := rfl
  simp only [covered_append, covered_cons, free_headFragment block hdelta,
    free_remainder _ (show 0 ≤ units by omega) hle, hrest, hstop, ← haddr]
  -- the blocks before and after lie outside, and inside the request is cut out
  by_cases hb : Free before point
  · have hlt := hlow hb
    simp only [hb, true_or, true_and, true_iff]
    omega
  · by_cases ha : Free after point
    · have hge := hhigh ha
      simp only [ha, or_true, true_and, true_iff]
      omega
    · simp only [hb, ha, false_or, or_false]
      omega

variable {st : Allocator (Nat → Int)} {r : SlobRequest}

theorem carve_path (hk : kernel.Encodes) (hr : r.Proper) (hunits : 1 ≤ r.units)
    (hroom : r.units + r.delta block.addr ≤ block.units)
    (hpath : FreePath st.mem sp (st.page sp).freelist (before ++ block :: after) (pageEnd sp)) :
    ∃ mem freelist,
      carve kernel st sp r block.addr (previous before) =
        (some (r.beginsAt block), decide ((st.page sp).units - r.units = 0),
          takenFrom kernel st sp r mem freelist) ∧
      FreePath mem sp freelist (carved r before block after) (pageEnd sp) ∧
      SameOutside (before ++ block :: after) st.mem mem := by
  rcases path_middle.mp hpath with ⟨hbefore, next, hstored, hafter⟩
  rcases splitHead_path hk hr hunits hroom hbefore hstored hafter with ⟨mem₁, hsplit, hlist⟩
  have hle : r.units ≤ (alignedRest r block).units := Int.le_sub_right_of_add_le hroom
  have htake := takeFront_path hk hlist.front hlist.rest hlist.after hunits hle
  rcases hout : takeFront kernel mem₁ (st.page sp).freelist r.units
    (previous (before ++ headFragment block (r.delta block.addr))) (alignedRest r block).addr
    (alignedRest r block).units with ⟨mem₂, freelist⟩
  rw [hout] at htake
  refine ⟨mem₂, freelist, ?_, htake.1, ?_⟩
  · exact carve_of_split hsplit hout
  · have hdelta := r.delta_nonneg block.addr
    have hlt := hstored.lt_stop
    rcases alignedRest_eq hr hstored.addr_even
      (Int.le_trans (Int.le_add_of_nonneg_left (by omega)) hroom) with ⟨haddr, hstop⟩
    refine (hlist.same.mono ?_).trans (htake.2.mono ?_)
    · intro point hpoint
      simp only [covered_cons, covered_nil, or_false] at hpoint
      simp [hpoint]
    · intro point hpoint
      simp only [covered_append, covered_cons, covered_nil, or_false,
        free_headFragment block hdelta, hstop, advance_eq block.addr hdelta, ← haddr] at hpoint ⊢
      have hrest := hlist.rest.lt_stop
      rcases hpoint with (hpoint | hpoint) | hpoint
      · exact Or.inl hpoint
      · exact Or.inr (Or.inl (by omega))
      · exact Or.inr (Or.inl (by omega))

/-! ## `slob_page_alloc` -/

/--
`slob_page_alloc` of a page with free units, on the list of its blocks: it fails if none
of them has room, and otherwise carves one that has.
-/
theorem slobPageAlloc_carves (hk : kernel.Encodes) (hr : r.Proper) (hunits : 1 ≤ r.units)
    {blocks : List Block} (hpage : PageList st sp blocks) (hne : blocks ≠ []) :
    (slobPageAlloc kernel st (some sp) r = .ok (none, false, st) ∧
        ∀ block ∈ blocks, block.units < r.units + r.delta block.addr) ∨
      ∃ before block after mem freelist, blocks = before ++ block :: after ∧
        r.units + r.delta block.addr ≤ block.units ∧
        slobPageAlloc kernel st (some sp) r =
          .ok (some (r.beginsAt block), decide ((st.page sp).units - r.units = 0),
            takenFrom kernel st sp r mem freelist) ∧
        FreePath mem sp freelist (carved r before block after) (pageEnd sp) ∧
        SameOutside blocks st.mem mem := by
  rcases chooseBlock_suits hk r hne hpage.path (hpage.wellFormed hk hne).length_le
    (Suits.none r blocks) with ⟨choice, hchoose, hsuits⟩
  rw [previous_nil] at hchoose
  rw [List.nil_append] at hsuits
  cases hbest : choice.bestBlock with
  | none =>
      left
      refine ⟨?_, (hsuits.of_none hbest).2⟩
      simp only [slobPageAlloc, hchoose, hbest, bind, Except.bind]
      rfl
  | some b =>
      right
      rcases hsuits.of_some b hbest with ⟨before, block, after, hsplit, rfl, hprev, hroom⟩
      obtain rfl : blocks = before ++ block :: after := (List.append_nil blocks).symm.trans hsplit
      rcases carve_path hk hr hunits hroom hpage.path with ⟨mem, freelist, hcarve, hpath, hsame⟩
      refine ⟨before, block, after, mem, freelist, rfl, hroom, ?_, hpath, hsame⟩
      simp only [slobPageAlloc, hchoose, hbest, hprev, hcarve, bind, Except.bind]
      rfl

theorem pageList_takenFrom (kernel : Kernel (Nat → Int)) {mem : Nat → Int}
    (hpage : PageList st sp (before ++ block :: after))
    (hpath : FreePath mem sp freelist (carved r before block after) (pageEnd sp)) :
    PageList (takenFrom kernel st sp r mem freelist) sp (carved r before block after) := by
  constructor
  · simpa [takenFrom] using hpath
  · rw [sum_carved, hpage.sum_eq]
    simp [takenFrom]

end

/-- What a call of `slob_page_alloc` that returns `b` does to the free list of the page. -/
structure TakesOut (st : Allocator (Nat → Int)) (sp : Nat) (r : SlobRequest) (blocks : List Block)
    (b : Nat) (removed : Bool) (st' : Allocator (Nat → Int)) : Prop where
  aligned : r.align ≠ 0 → (r.align : Int) ∣ b + r.alignOffset
  inside : ∃ block ∈ blocks, block.addr ≤ b ∧ advance b r.units ≤ block.stop
  left : ∃ blocks', PageList st' sp blocks' ∧
    (∀ point, Free blocks' point ↔
      Free blocks point ∧ ¬ (b ≤ point ∧ point < advance b r.units)) ∧
    (removed = true ↔ ∀ point, ¬ Free blocks' point)

section

variable (kernel : Kernel (Nat → Int))

/--
`slob_page_alloc` of a page with a free unit either returns NULL and changes
nothing, or takes exactly the units it returns out of a list that stays well formed.
It returns NULL only if no block has room for the request behind its padding.
-/
theorem slobPageAlloc_preserves (hk : kernel.Encodes) (st : Allocator (Nat → Int)) (sp : Nat)
    (r : SlobRequest) (blocks : List Block) (hpage : PageList st sp blocks)
    (hpos : 0 < (st.page sp).units) (hunits : 1 ≤ r.units) (hr : r.Proper) :
    ∃ result removed st', slobPageAlloc kernel st (some sp) r = .ok (result, removed, st') ∧
      (result = none ↔ ∀ block ∈ blocks, block.units < r.units + r.delta block.addr) ∧
      (result = none → removed = false ∧ st' = st) ∧
      ∀ b, result = some b → TakesOut st sp r blocks b removed st' := by
  rcases slobPageAlloc_carves hk hr hunits hpage (hpage.ne_nil hpos) with
    ⟨hnone, hsmall⟩ | ⟨before, block, after, mem, freelist, rfl, hroom, hsome, hpath, -⟩
  · exact ⟨none, false, st, hnone, by simpa using hsmall, fun _ => ⟨rfl, rfl⟩, by simp⟩
  · have hlarge : ¬ ∀ other ∈ before ++ block :: after,
        other.units < r.units + r.delta other.addr :=
      fun h => absurd (h block (by simp)) (not_lt.mpr hroom)
    refine ⟨_, _, _, hsome, by simpa using hlarge, by simp, ?_⟩
    rintro b ⟨⟩
    have hleft := pageList_takenFrom kernel hpage hpath
    rcases hpage.path.exists_link (x := block) (by simp) with ⟨next, hstored⟩
    have hdelta := r.delta_nonneg block.addr
    have hbegin : r.beginsAt block = block.addr + 2 * (r.delta block.addr).toNat := by
      rw [SlobRequest.beginsAt_eq hr hstored.addr_even]
      exact advance_eq block.addr hdelta
    refine ⟨SlobRequest.dvd_beginsAt hr hstored.addr_even, ⟨block, by simp, by omega, ?_⟩, _, hleft,
      free_carved hr hunits hroom hpage.path, ?_⟩
    · have hstop : block.stop = block.addr + 2 * block.units.toNat := rfl
      generalize r.units = units at hunits hroom ⊢
      have hend : advance (r.beginsAt block) units = r.beginsAt block + 2 * units.toNat :=
        advance_eq (r.beginsAt block) (by omega)
      omega
    · rw [decide_eq_true_iff, ← hleft.units_eq_zero_iff]
      simp [takenFrom]

end

theorem pageList_samplePages : PageList samplePages 1 (sampleBlocks 1) := by
  refine ⟨⟨rfl, 4136, ?_, rfl, 8192, ?_, rfl⟩, by decide⟩ <;>
  · constructor <;> decide

def alignedRequest : SlobRequest := ⟨4, 16, NUMA_NO_NODE, 2⟩

theorem slobPageAlloc_alignedRequest :
    (slobPageAlloc sampleKernel samplePages (some 1) alignedRequest).map
      (fun out => (out.1, out.2.1)) = .ok (some 4142, false) := by
  decide +kernel

theorem slobPageAlloc_preserves_samplePages :
    ∃ st', slobPageAlloc sampleKernel samplePages (some 1) alignedRequest =
        .ok (some 4142, false, st') ∧
      (¬ ∀ block ∈ sampleBlocks 1,
        block.units < alignedRequest.units + alignedRequest.delta block.addr) ∧
      TakesOut samplePages 1 alignedRequest (sampleBlocks 1) 4142 false st' := by
  obtain ⟨result, removed, st', hok, hnone, -, hsome⟩ :=
    slobPageAlloc_preserves sampleKernel sampleKernel_encodes samplePages 1 alignedRequest
      (sampleBlocks 1) pageList_samplePages (by decide) (by decide)
      ⟨Or.inr ⟨3, rfl⟩, by decide⟩
  have hfound := slobPageAlloc_alignedRequest
  rw [hok] at hfound
  obtain ⟨rfl, rfl⟩ := Prod.mk.inj (Except.ok.inj hfound)
  exact ⟨st', hok, fun hsmall => Option.some_ne_none _ (hnone.mpr hsmall), hsome 4142 rfl⟩

end Ece318.Slob
