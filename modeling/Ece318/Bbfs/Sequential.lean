import Ece318.Bbfs.AnyStore
import Ece318.Bbfs.PathMap
import Ece318.Bbfs.TableRuns

/-!
# Writing a file from front to back

A block has 4096 bytes, and `bb_write` divides its offset by 4069.  So block
`k` goes to slot `k` only up to block 150; block 151 goes to slot 152, and from
then on the pointers file has holes.
-/

namespace Ece318.Bbfs

open Ece318.Foundation

def sequentialRun (path : Path) (blocks : List Bytes) : List Request :=
  .mknod path :: blocks.mapIdx fun k block => .write path block (maxBlockSize * k)

structure HoldsBlocks (host : Host) (s : BbState) (path : Path) (fh : Nat)
    (blocks : List Bytes) : Prop where
  resolve_eq : s.rootdir.resolve path = .ok fh
  length_eq : (s.rootdir.data fh).length = idLength * blocks.length
  entry_eq : ∀ k block, blocks[k]? = some block →
    s.file (.block (readAt (s.rootdir.data fh) (idLength * k) idLength)) = some block
  readFile_eq : readFile host s path = .ok (some blocks.flatten)

theorem sequentialRun_concat (path : Path) (blocks : List Bytes) (block : Bytes) :
    sequentialRun path (blocks ++ [block]) =
      sequentialRun path blocks ++ [.write path block (maxBlockSize * blocks.length)] := by
  simp [sequentialRun, List.mapIdx_concat]

theorem slot_eq {k : Nat} (h : k ≤ 150) : maxBlockSize * k / bbfsMaxBlockSize = k := by
  simp only [maxBlockSize, bbfsMaxBlockSize]
  omega

theorem lt_slot {k : Nat} (h : 151 ≤ k) : k < maxBlockSize * k / bbfsMaxBlockSize := by
  simp only [maxBlockSize, bbfsMaxBlockSize]
  omega

section

variable {host : Host} {s : BbState} {path : Path}

theorem resolve_mknod (h : s.rootdir.lookup path = none) :
    (bbMknod s path).2.rootdir.resolve path = .ok s.rootdir.next := by
  simp only [bbMknod, logSyscall, FileSystem.create, h]
  exact FileSystem.resolve_file _ (by simp [FileSystem.lookup_insertNew])

/-! ## Up to 151 blocks -/

section

variable {contents : Set Bytes} {m : Ledger} {files : PathMap}

theorem Reflects.holdsBlocks (hm : Reflects contents m files) (hs : Represents host s m)
    (hgrants : host.Grants) {blocks : List Bytes} (hfile : files path = some blocks) :
    ∃ fh, HoldsBlocks host s path fh blocks := by
  have hread := hm.readFile hgrants hs path
  have hnode := hm.files_eq path
  rw [hfile] at hread hnode
  obtain ⟨node, hlookup, hblocks⟩ := Option.map_eq_some_iff.mp hnode.symm
  rw [hm.noLinks.file_of_lookup hlookup] at hlookup
  have hresolve := FileSystem.resolve_file _ hlookup
  have hlinked := Ledger.linked_of_resolve hresolve
  refine ⟨node.inode, (hs.resolve_eq path).trans hresolve, ?_, fun k block hblock => ?_, hread⟩
  · rw [hs.data_length, ← hblocks, List.length_map]
  · rw [← hblocks, List.getElem?_map] at hblock
    obtain ⟨index, hindex, rfl⟩ := Option.map_eq_some_iff.mp hblock
    have hentry : ((m.rootdir.data node.inode).map fun index => padDecimal 3 (index + 1))[k]? =
        some (padDecimal 3 (index + 1)) := by
      rw [List.getElem?_map, hindex, Option.map_some]
    rw [hs.data_eq, pointerBytes, readAt_record (hs.valid node.inode).uniform hentry]
    exact hs.stores.block_live (hm.covered.live hlinked index (List.mem_of_getElem? hindex))

theorem sequential_reflects (hs : Represents host s m) (hm : Reflects contents m files)
    (hgrants : host.Grants) (hinj : Set.InjOn host.sha1 contents) (hnew : files path = none)
    {blocks : List Bytes} (hblocks : ∀ block ∈ blocks, NulFree block ∧ block ∈ contents)
    (hlimits : Along (serve host) (KeepsTable host) s (sequentialRun path blocks))
    (hle : blocks.length ≤ 151) :
    ∃ s' m' files', run (serve host) s (sequentialRun path blocks) = .ok s' ∧
      Represents host s' m' ∧ Reflects contents m' files' ∧ files' path = some blocks := by
  induction blocks using List.reverseRecOn with
  | nil =>
      have horderly : Orderly host s (.mknod path) := trivial
      have hstored : storedContents [.mknod path] ⊆ contents := by
        rintro content ⟨other, buf, offset, hmem, rfl⟩
        simp at hmem
      obtain ⟨s', hok, hs'⟩ := hs.serve hgrants horderly
      have hm' := hm.serve hinj hs.valid (Ledger.Admits.of_orderly hs hgrants horderly)
        trivial trivial hstored
      refine ⟨s', _, _, by rw [sequentialRun, List.mapIdx_nil, run_cons _ hok, run_nil],
        hs', hm', ?_⟩
      simp [PathMap.serve, hnew]
  | append_singleton blocks block ih =>
      rw [List.length_append, List.length_singleton] at hle
      rw [sequentialRun_concat] at hlimits ⊢
      obtain ⟨s₁, m₁, files₁, hrun, hs₁, hm₁, hfile⟩ := ih
        (fun other hother => hblocks other (List.mem_append_left _ hother)) hlimits.of_append
        (by omega)
      obtain ⟨hnul, hmem⟩ := hblocks block (by simp)
      have hkeeps := ((along_append hrun).mp hlimits).2.1
      obtain ⟨fh, hholds⟩ := hm₁.holdsBlocks hs₁ hgrants hfile
      -- slot and block number agree, so the write appends
      have hslot := slot_eq (k := blocks.length) (by omega)
      have horderly : Orderly host s₁ (.write path block (maxBlockSize * blocks.length)) := by
        simp only [KeepsTable, hholds.resolve_eq] at hkeeps
        simp only [Orderly, hholds.resolve_eq, hslot]
        refine ⟨hkeeps.1, hkeeps.2, ?_⟩
        rw [hholds.length_eq, Nat.mul_comm]
      obtain ⟨s₂, hok, hs₂⟩ := hs₁.serve hgrants horderly
      have hm₂ := hm₁.serve hinj hs₁.valid (Ledger.Admits.of_orderly hs₁ hgrants horderly)
        trivial hnul (by
          rintro content ⟨other, buf, offset, hwrite, rfl⟩
          obtain ⟨-, rfl, -⟩ := Request.write.inj (List.mem_singleton.mp hwrite)
          rwa [hnul.cString_eq])
      refine ⟨s₂, _, _, by rw [run_concat _ hrun, hok], hs₂, hm₂, ?_⟩
      simp [PathMap.serve, hfile, hslot, putSlot_length]

end

/-! ## From block 151 on -/

theorem write_length {t : Table} (hs : Stores host s t) (hgrants : host.Grants) {buf : Bytes}
    {offset fh : Nat} (hpath : s.rootdir.resolve path = .ok fh)
    (hkeeps : KeepsTable host s (.write path buf offset)) :
    ∃ s', serve host s (.write path buf offset) = .ok s' ∧
      Stores host s' (t.store host buf).2 ∧ s'.rootdir.resolve path = .ok fh ∧
      idLength * (offset / bbfsMaxBlockSize) + idLength ≤ (s'.rootdir.data fh).length := by
  simp only [KeepsTable, hpath] at hkeeps
  obtain ⟨hsize, hlimits⟩ := hkeeps
  obtain ⟨written, hwrite, hs', hrootdir⟩ := hs.writeBlocks hgrants hsize
    ((hs.withinLimits_iff hgrants buf).mp hlimits)
  have hlt := Table.store_lt host ((hs.withinLimits_iff hgrants buf).mp hlimits)
  have hwidth := idText_length (hlt.trans_le (t.store host buf).2.length_le)
  refine ⟨_, serve_write_eq hpath hwrite offset, hs'.setPointers fh _, ?_, ?_⟩
  · simp [hrootdir, hpath]
  · simp only [BbState.rootdir_setPointers, FileSystem.data_write, Function.update_self]
    rw [writeAt_length (padDecimal_ne_nil _ _), hwidth, Nat.mul_comm]
    exact Nat.le_max_right _ _

theorem sequential_length {t : Table} (hs : Stores host s t) (hgrants : host.Grants)
    (hnew : s.rootdir.lookup path = none) {blocks : List Bytes}
    (hlimits : Along (serve host) (KeepsTable host) s (sequentialRun path blocks)) :
    ∃ s' t', run (serve host) s (sequentialRun path blocks) = .ok s' ∧ Stores host s' t' ∧
      s'.rootdir.resolve path = .ok s.rootdir.next ∧
      (blocks = [] ∨
        idLength * (maxBlockSize * (blocks.length - 1) / bbfsMaxBlockSize) + idLength ≤
          (s'.rootdir.data s.rootdir.next).length) := by
  induction blocks using List.reverseRecOn with
  | nil =>
      exact ⟨(bbMknod s path).2, t, rfl, hs.logSyscall _, resolve_mknod hnew, .inl rfl⟩
  | append_singleton blocks block ih =>
      rw [sequentialRun_concat] at hlimits ⊢
      obtain ⟨s₁, t₁, hrun, hs₁, hpath, -⟩ := ih hlimits.of_append
      obtain ⟨s₂, hok, hs₂, hpath₂, hlength⟩ :=
        write_length hs₁ hgrants hpath ((along_append hrun).mp hlimits).2.1
      refine ⟨s₂, _, by rw [run_concat _ hrun, hok], hs₂, hpath₂, .inr ?_⟩
      simpa using hlength

theorem not_holdsBlocks {blocks : List Bytes} {inode : Nat}
    (hpath : s.rootdir.resolve path = .ok inode) (hlong : 151 < blocks.length)
    (hlength : idLength * (maxBlockSize * (blocks.length - 1) / bbfsMaxBlockSize) + idLength ≤
      (s.rootdir.data inode).length) : ¬ ∃ fh, HoldsBlocks host s path fh blocks := by
  rintro ⟨fh, hholds⟩
  obtain rfl : inode = fh := Except.ok.inj (hpath.symm.trans hholds.resolve_eq)
  have hslot := lt_slot (k := blocks.length - 1) (by omega)
  rw [hholds.length_eq] at hlength
  simp only [idLength] at hlength
  omega

end

/--
Blocks written one after the other to a new file are held by it, whatever the
store holds already, if and only if there are no more than 151 of them.
-/
theorem sequentialRun_holds_iff (sha1 : Bytes → Vector UInt8 20) (first : List Request)
    (path : Path) (blocks : List Bytes) (s : BbState)
    (hinj : Set.InjOn sha1 (storedContents first ∪ {block | block ∈ blocks}))
    (hblocks : ∀ block ∈ blocks, NulFree block ∧ block.length = maxBlockSize)
    (hfirst : Along (serve (.granting sha1)) (PlainRequest (.granting sha1)) freshMount first)
    (hrun : run (serve (.granting sha1)) freshMount first = .ok s)
    (hnew : s.rootdir.lookup path = none)
    (hlimits : Along (serve (.granting sha1)) (KeepsTable (.granting sha1)) s
      (sequentialRun path blocks)) :
    ∃ s', run (serve (.granting sha1)) s (sequentialRun path blocks) = .ok s' ∧
      ((∃ fh, HoldsBlocks (.granting sha1) s' path fh blocks) ↔ blocks.length ≤ 151) := by
  have hgrants := Host.granting_grants sha1
  obtain ⟨s₁, hrun₁, m, hs, hm⟩ := run_reflects hgrants hinj Set.subset_union_left hfirst
  rw [hrun, Except.ok.injEq] at hrun₁
  subst s₁
  obtain ⟨s', t', hok, hs', hpath, hlength⟩ :=
    sequential_length hs.stores hgrants hnew hlimits
  refine ⟨s', hok, ?_, fun hle => ?_⟩
  · intro hholds
    by_contra hlong
    rcases hlength with rfl | hlength
    · simp at hlong
    · exact not_holdsBlocks hpath (by omega) hlength hholds
  · have hfile : (first.foldl PathMap.serve .empty) path = none := by
      have hlookup : m.rootdir.lookup path = none := by
        rw [← FileSystem.lookup_map pointerBytes, ← hs.rootdir_eq, hnew]
      rw [hm.files_eq path, hlookup, Option.map_none]
    obtain ⟨s₂, m₂, files₂, hok₂, hs₂, hm₂, hfile₂⟩ := sequential_reflects hs hm hgrants hinj
      hfile (fun block hblock => ⟨(hblocks block hblock).1, .inr hblock⟩) hlimits hle
    rw [hok, Except.ok.injEq] at hok₂
    subst s₂
    exact hm₂.holdsBlocks hs₂ hgrants hfile₂

/-! ## What fits into a new store -/

structure Table.Tallies (host : Host) (t : Table) (blocks : List Bytes) : Prop where
  length_le : t.records.length ≤ blocks.length
  count_le : ∀ record ∈ t.records,
    record.count ≤ (blocks.map (generateHash host)).count (generateHash host record.data)

namespace Table.Tallies

variable {host : Host} {t : Table} {blocks : List Bytes} {buf : Bytes}

theorem hasRoom (h : t.Tallies host blocks) (hlength : blocks.length < 999)
    (hcount : (blocks.map (generateHash host)).count (generateHash host buf) < 99) :
    t.HasRoom host buf := by
  unfold HasRoom
  cases hfind : t.find host buf with
  | none => exact h.length_le.trans_lt hlength
  | some index =>
      intro record hrecord
      obtain ⟨found, hfound, -, hhash⟩ := t.find_eq_some host hfind
      rw [hrecord, Option.some.injEq] at hfound
      subst found
      have hle := h.count_le record (List.mem_of_getElem? hrecord)
      rw [hhash] at hle
      omega

theorem store (h : t.Tallies host blocks) (hroom : t.HasRoom host buf) :
    (t.store host buf).2.Tallies host (blocks ++ [buf]) := by
  have hmore : ∀ hash, ((blocks ++ [buf]).map (generateHash host)).count hash =
      (blocks.map (generateHash host)).count hash +
        if generateHash host buf = hash then 1 else 0 := by
    intro hash
    rw [List.map_append, List.map_singleton, List.count_append, List.count_singleton]
    simp only [beq_iff_eq]
  unfold HasRoom at hroom
  unfold Table.store
  cases hfind : t.find host buf with
  | none =>
      simp only [hfind] at hroom
      refine ⟨?_, fun record hrecord => ?_⟩
      · rw [add_records t hroom, List.length_append, List.length_append]
        exact Nat.add_le_add_right h.length_le _
      · rw [add_records t hroom, List.mem_append, List.mem_singleton] at hrecord
        rw [hmore]
        rcases hrecord with hold | rfl
        · exact (h.count_le record hold).trans (Nat.le_add_right _ _)
        · simp
  | some index =>
      simp only [hfind] at hroom
      obtain ⟨found, hfound, -, hhash⟩ := t.find_eq_some host hfind
      refine ⟨?_, fun record hrecord => ?_⟩
      · simp only [share_records, List.length_modify, List.length_append]
        exact h.length_le.trans (Nat.le_add_right _ _)
      · rw [hmore]
        simp only [share_records, modify_eq_set hfound] at hrecord
        rcases List.mem_or_eq_of_mem_set hrecord with hold | rfl
        · exact (h.count_le record hold).trans (Nat.le_add_right _ _)
        · have hle := h.count_le found (List.mem_of_getElem? hfound)
          rw [Record.share_count _ (hroom found hfound), Record.share_data, hhash, if_pos rfl]
          rw [hhash] at hle
          omega

end Table.Tallies

theorem sequential_tallies {host : Host} (hgrants : host.Grants) (path : Path)
    {blocks : List Bytes} (hsize : ∀ block ∈ blocks, block.length ≤ maxBlockSize)
    (hlength : blocks.length ≤ 999)
    (hcount : ∀ block ∈ blocks,
      (blocks.map (generateHash host)).count (generateHash host block) ≤ 99) :
    ∃ s t, Along (serve host) (KeepsTable host) freshMount (sequentialRun path blocks) ∧
      run (serve host) freshMount (sequentialRun path blocks) = .ok s ∧ Stores host s t ∧
      t.Tallies host blocks ∧ s.rootdir.resolve path = .ok freshMount.rootdir.next := by
  induction blocks using List.reverseRecOn with
  | nil =>
      exact ⟨(bbMknod freshMount path).2, .empty, ⟨trivial, fun _ _ => trivial⟩, rfl,
        (stores_freshMount host).logSyscall _, ⟨le_rfl, by simp [Table.empty]⟩,
        resolve_mknod rfl⟩
  | append_singleton blocks block ih =>
      have hsub : ∀ other ∈ blocks, other ∈ blocks ++ [block] :=
        fun other => List.mem_append_left _
      rw [List.length_append, List.length_singleton] at hlength
      simp only [List.map_append, List.map_singleton, List.count_append] at hcount
      obtain ⟨s, t, halong, hrun, hs, htallies, hpath⟩ := ih
        (fun other hother => hsize other (hsub other hother)) (by omega)
        (fun other hother => (Nat.le_add_right _ _).trans (hcount other (hsub other hother)))
      have hblock := hcount block (by simp)
      rw [List.count_singleton_self] at hblock
      have hroom : t.HasRoom host block := htallies.hasRoom (by omega) (by omega)
      have hkeeps : KeepsTable host s (.write path block (maxBlockSize * blocks.length)) := by
        simp only [KeepsTable, hpath]
        exact ⟨hsize block (by simp), (hs.withinLimits_iff hgrants block).mpr hroom⟩
      obtain ⟨s', hok, hs', hpath', -⟩ := write_length hs hgrants hpath hkeeps
      rw [sequentialRun_concat]
      exact ⟨s', _, (along_append hrun).mpr ⟨halong, hkeeps, fun _ _ => trivial⟩,
        by rw [run_concat _ hrun, hok], hs', htallies.store hroom, hpath'⟩

def fullBlock (byte : UInt8) : Bytes := List.replicate maxBlockSize byte

theorem fullBlock_isBlock (byte : UInt8) (h : byte ≠ 0) :
    NulFree (fullBlock byte) ∧ (fullBlock byte).length = maxBlockSize :=
  ⟨fun hmem => h (List.eq_of_mem_replicate hmem).symm, List.length_replicate⟩

theorem frontSha1_injOn_fullBlock :
    Set.InjOn frontSha1 {block | block ∈ [fullBlock 97, fullBlock 98]} := by
  have hne : frontSha1 (fullBlock 97) ≠ frontSha1 (fullBlock 98) := by
    intro h
    have hbyte := congrArg (fun digest : Vector UInt8 20 => digest[0]) h
    simp [frontSha1, fullBlock] at hbyte
  intro first hfirst second hsecond h
  simp only [Set.mem_ofPred_eq, List.mem_cons, List.not_mem_nil, or_false] at hfirst hsecond
  rcases hfirst with rfl | rfl <;> rcases hsecond with rfl | rfl
  · rfl
  · exact absurd h hne
  · exact absurd h.symm hne
  · rfl

theorem generateHash_fullBlock_ne :
    generateHash (.granting frontSha1) (fullBlock 97) ≠
      generateHash (.granting frontSha1) (fullBlock 98) := by
  have hfirst := (fullBlock_isBlock 97 (by decide)).1.cString_eq
  have hsecond := (fullBlock_isBlock 98 (by decide)).1.cString_eq
  have hinj : Set.InjOn (Host.granting frontSha1).sha1
      {block | block ∈ [fullBlock 97, fullBlock 98]} := frontSha1_injOn_fullBlock
  intro h
  have heq := cString_eq_of_generateHash_eq hinj (by rw [hfirst]; simp)
    (by rw [hsecond]; simp) h
  rw [hfirst, hsecond] at heq
  have hbyte : (97 : UInt8) = 98 := List.replicate_right_injective (by decide) heq
  exact absurd hbyte (by decide)

theorem fullBlock_count (first second : Nat) (hfirst : first ≤ 99) (hsecond : second ≤ 99)
    {block : Bytes} (h : block ∈ [fullBlock 97, fullBlock 98]) :
    ((List.replicate first (fullBlock 97) ++ List.replicate second (fullBlock 98)).map
      (generateHash (.granting frontSha1))).count
        (generateHash (.granting frontSha1) block) ≤ 99 := by
  simp only [List.mem_cons, List.not_mem_nil, or_false] at h
  simp only [List.map_append, List.map_replicate, List.count_append, List.count_replicate,
    beq_iff_eq]
  rcases h with rfl | rfl
  · simpa [generateHash_fullBlock_ne.symm] using hfirst
  · simpa [generateHash_fullBlock_ne] using hsecond

theorem mem_fullBlock {first second : Nat} {block : Bytes}
    (h : block ∈ List.replicate first (fullBlock 97) ++ List.replicate second (fullBlock 98)) :
    block ∈ [fullBlock 97, fullBlock 98] := by
  rw [List.mem_append] at h
  rcases h with h | h
  · simp [List.eq_of_mem_replicate h]
  · simp [List.eq_of_mem_replicate h]

theorem isBlock_of_mem_fullBlock {block : Bytes} (h : block ∈ [fullBlock 97, fullBlock 98]) :
    NulFree block ∧ block.length = maxBlockSize := by
  simp only [List.mem_cons, List.not_mem_nil, or_false] at h
  rcases h with rfl | rfl <;> exact fullBlock_isBlock _ (by decide)

theorem sequentialRun_holds_iff_two :
    ∃ s', run (serve (.granting frontSha1)) freshMount
        (sequentialRun "f" [fullBlock 97, fullBlock 98]) = .ok s' ∧
      ((∃ fh, HoldsBlocks (.granting frontSha1) s' "f" fh [fullBlock 97, fullBlock 98]) ↔
        2 ≤ 151) := by
  have hsize : ∀ block ∈ [fullBlock 97, fullBlock 98], block.length ≤ maxBlockSize :=
    fun block hblock => (isBlock_of_mem_fullBlock hblock).2.le
  obtain ⟨-, -, halong, -⟩ := sequential_tallies (Host.granting_grants frontSha1) "f" hsize
    (by decide) fun block hblock => fullBlock_count 1 1 (by decide) (by decide) hblock
  refine sequentialRun_holds_iff frontSha1 [] "f" [fullBlock 97, fullBlock 98] freshMount ?_
    (fun block hblock => isBlock_of_mem_fullBlock hblock) trivial rfl rfl halong
  refine frontSha1_injOn_fullBlock.mono (Set.union_subset ?_ subset_rfl)
  rintro content ⟨path, buf, offset, hmem, rfl⟩
  exact absurd hmem List.not_mem_nil

def longBlocks : List Bytes :=
  List.replicate 76 (fullBlock 97) ++ List.replicate 76 (fullBlock 98)

/-- The 152 blocks are within the limits, and the file that gets them is too long. -/
theorem longBlocks_not_held :
    Set.InjOn frontSha1 {block | block ∈ longBlocks} ∧
    (∀ block ∈ longBlocks, NulFree block ∧ block.length = maxBlockSize) ∧
    Along (serve (.granting frontSha1)) (KeepsTable (.granting frontSha1)) freshMount
      (sequentialRun "f" longBlocks) ∧
    ∃ s, run (serve (.granting frontSha1)) freshMount (sequentialRun "f" longBlocks) = .ok s ∧
      ¬ ∃ fh, HoldsBlocks (.granting frontSha1) s "f" fh longBlocks := by
  have hgrants := Host.granting_grants frontSha1
  have hblocks : ∀ block ∈ longBlocks, NulFree block ∧ block.length = maxBlockSize :=
    fun block hblock => isBlock_of_mem_fullBlock (mem_fullBlock hblock)
  have hlength : longBlocks.length = 152 := by simp [longBlocks]
  obtain ⟨-, -, halong, -⟩ := sequential_tallies hgrants "f"
    (fun block hblock => (hblocks block hblock).2.le) (by omega)
    (fun block hblock => fullBlock_count 76 76 (by decide) (by decide) (mem_fullBlock hblock))
  obtain ⟨s, t, hrun, -, hpath, hnil | hlong⟩ :=
    sequential_length (stores_freshMount _) hgrants rfl halong
  · simp [hnil] at hlength
  · refine ⟨?_, hblocks, halong, s, hrun, not_holdsBlocks hpath (by omega) hlong⟩
    exact frontSha1_injOn_fullBlock.mono fun block => mem_fullBlock

end Ece318.Bbfs
