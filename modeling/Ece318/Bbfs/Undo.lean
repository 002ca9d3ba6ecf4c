import Ece318.Bbfs.RefCounts
import Ece318.Bbfs.Sequential

/-!
# `unlink` against the writes of a file

Storing a list of blocks adds one reference for each, to an old record or to a
new one.  If the walk of `delete_blocks` sees the whole pointers file, it takes
the same references away: the old records are as they were, and every new one
is dead.  `stdio` reads 4096 bytes ahead, so it sees 1365 entries.
-/

namespace Ece318.Bbfs

open Ece318.Foundation

/-- A block stored with `write_blocks`, its id appended to the pointers file. -/
def appendBlock (host : Host) (fh : Nat) (s : BbState) (buf : Bytes) : Except Fault BbState := do
  let (id, s) ← writeBlocks host s buf
  return s.setPointers fh (s.rootdir.data fh ++ id)

/-! ## The table -/

namespace Table

/-- A table with one more reference for each of `indices`, to old records or to new ones. -/
structure Grows (t t' : Table) (indices : List Nat) : Prop where
  length_le : t.records.length ≤ t'.records.length
  count_eq : ∀ index, t'.count index = t.count index + indices.count index
  data_eq : ∀ index < t.records.length, t'.data index = t.data index
  valid : t'.Valid indices

variable {host : Host} {t t' : Table} {indices : List Nat} {index : Nat}

theorem Grows.refl (t : Table) : t.Grows t [] where
  length_le := Nat.le_refl _
  count_eq index := by simp
  data_eq _ _ := rfl
  valid := t.valid_nil

theorem Grows.store (h : t.Grows t' indices) {buf : Bytes} (hroom : t'.HasRoom host buf) :
    t.Grows (t'.store host buf).2 (indices ++ [(t'.store host buf).1]) where
  length_le := h.length_le.trans (store_length_le host t' buf)
  count_eq index := by
    rw [count_store hroom, h.count_eq, List.count_append, List.count_singleton, Nat.add_assoc]
    simp only [beq_iff_eq]
  data_eq index hindex := by
    rw [data_store (hindex.trans_le h.length_le), h.data_eq index hindex]
  valid := by
    intro index hindex
    rcases List.mem_append.mp hindex with hold | hnew
    · exact (h.valid.mono (store_length_le host t' buf)) index hold
    · rw [List.mem_singleton.mp hnew]
      exact store_lt host hroom

theorem count_of_length_le (h : t.records.length ≤ index) : t.count index = 0 := by
  rw [count, List.getElem?_eq_none h]

theorem getElem?_eq_of_data_of_count (hindex : index < t.records.length)
    (hlength : t.records.length ≤ t'.records.length) (hdata : t'.data index = t.data index)
    (hcount : t'.count index = t.count index) : t'.records[index]? = t.records[index]? := by
  have hrecord := List.getElem?_eq_getElem hindex
  have hrecord' := List.getElem?_eq_getElem (hindex.trans_le hlength)
  rw [data_eq hrecord, data_eq hrecord'] at hdata
  rw [count_eq hrecord, count_eq hrecord'] at hcount
  rw [hrecord, hrecord', Option.some.injEq]
  exact Record.ext hdata hcount

theorem Grows.getElem?_releaseAll (h : t.Grows t' indices) (hindex : index < t.records.length) :
    (t'.releaseAll indices).records[index]? = t.records[index]? := by
  apply getElem?_eq_of_data_of_count hindex
  · rw [releaseAll_length]
    exact h.length_le
  · rw [data_releaseAll, h.data_eq index hindex]
  · rw [count_releaseAll, h.count_eq, Nat.add_sub_cancel]

theorem Grows.count_releaseAll (h : t.Grows t' indices) (hindex : t.records.length ≤ index) :
    (t'.releaseAll indices).count index = 0 := by
  rw [Table.count_releaseAll, h.count_eq, count_of_length_le hindex]
  omega

theorem Grows.reached_eq (h : t.Grows t' indices) (hlength : indices.length ≤ 1365) :
    reached indices.length t' 0 indices = indices.length := by
  have hcount : ∀ index, indices.count index ≤ t'.count index := by
    intro index
    rw [h.count_eq]
    exact Nat.le_add_left _ _
  rw [reached_eq_length_iff indices.length 0 (by omega) hcount]
  intro slot index _ _
  omega

end Table

/-! ## The writes -/

section

variable {host : Host} {s : BbState} {t t' : Table} {fh : Nat} {indices : List Nat}

theorem appendBlock_stores (hgrants : host.Grants) (hs : Stores host s t') {buf : Bytes}
    (hsize : buf.length ≤ maxBlockSize) (hlimits : WithinLimits host s buf)
    (hfile : s.rootdir.data fh = pointerBytes indices) :
    ∃ s', appendBlock host fh s buf = .ok s' ∧ Stores host s' (t'.store host buf).2 ∧
      s'.rootdir = s.rootdir.write fh (pointerBytes (indices ++ [(t'.store host buf).1])) := by
  have hroom := (hs.withinLimits_iff hgrants buf).mp hlimits
  rcases hs.writeBlocks hgrants hsize hroom with ⟨s', hwrite, hstores, hrootdir⟩
  refine ⟨_, by simp only [appendBlock, hwrite]; rfl, hstores.setPointers fh _, ?_⟩
  rw [BbState.rootdir_setPointers, hrootdir, hfile, pointerBytes_append]
  simp

theorem run_appendBlock (hgrants : host.Grants) (hs : Stores host s t')
    (hgrows : t.Grows t' indices) (hfile : s.rootdir.data fh = pointerBytes indices)
    {buffers : List Bytes} (hsize : ∀ buf ∈ buffers, buf.length ≤ maxBlockSize)
    (hlimits : Along (appendBlock host fh) (WithinLimits host) s buffers) :
    ∃ s' t'' all, run (appendBlock host fh) s buffers = .ok s' ∧ Stores host s' t'' ∧
      t.Grows t'' all ∧ all.length = indices.length + buffers.length ∧
      s'.rootdir = s.rootdir.write fh (pointerBytes all) := by
  induction buffers generalizing s t' indices with
  | nil =>
      refine ⟨s, t', indices, rfl, hs, hgrows, rfl, ?_⟩
      rw [← hfile, FileSystem.write, Function.update_eq_self]
  | cons buf buffers ih =>
      have hbuf := hsize buf List.mem_cons_self
      have hrest := fun other hother => hsize other (List.mem_cons_of_mem buf hother)
      rcases appendBlock_stores hgrants hs hbuf hlimits.1 hfile with
        ⟨s₁, hstep, hs₁, hrootdir⟩
      have hroom := (hs.withinLimits_iff hgrants buf).mp hlimits.1
      have hfile₁ : s₁.rootdir.data fh =
          pointerBytes (indices ++ [(t'.store host buf).1]) := by
        simp [hrootdir]
      rcases ih hs₁ (hgrows.store hroom) hfile₁ hrest (hlimits.2 s₁ hstep) with
        ⟨s', t'', all, hrun, hs', hgrows', hlength, hrootdir'⟩
      refine ⟨s', t'', all, by rw [run_cons _ hstep, hrun], hs', hgrows', ?_, ?_⟩
      · simp only [List.length_append, List.length_singleton] at hlength
        rw [hlength, List.length_cons]
        omega
      · rw [hrootdir', hrootdir, FileSystem.write, FileSystem.write, FileSystem.write]
        simp

/-! ## The removal -/

structure Undone (s written s' : BbState) : Prop where
  record_eq : ∀ id, 1 ≤ id → id ≤ s.lastId →
    s'.field id 0 lineTotalLength = s.field id 0 lineTotalLength ∧
      s'.file (.block (padDecimal 3 id)) = s.file (.block (padDecimal 3 id))
  created : ∀ id, s.lastId < id → id ≤ written.lastId →
    s'.counterField id = formatInt 2 0 ∧ s'.file (.block (padDecimal 3 id)) = none
  lookup_eq : ∀ name, s'.rootdir.lookup name = s.rootdir.lookup name
  data_eq : ∀ name node, s.rootdir.lookup name = some node →
    s'.rootdir.data node.inode = s.rootdir.data node.inode

theorem Table.Grows.record_eq (h : t.Grows t' indices) (hs : Stores host s t) {s' : BbState}
    (hs' : Stores host s' (t'.releaseAll indices)) {id : Nat} (hpos : 1 ≤ id)
    (hle : id ≤ s.lastId) :
    s'.field id 0 lineTotalLength = s.field id 0 lineTotalLength ∧
      s'.file (.block (padDecimal 3 id)) = s.file (.block (padDecimal 3 id)) := by
  obtain ⟨index, rfl⟩ : ∃ index, id = index + 1 := ⟨id - 1, by omega⟩
  have hindex : index < t.records.length := by
    rw [hs.lastId_eq] at hle
    omega
  have hrecord := List.getElem?_eq_getElem hindex
  have hrecord' := (h.getElem?_releaseAll hindex).trans hrecord
  constructor
  · rw [hs.field_eq_line hrecord, hs'.field_eq_line hrecord']
  · exact (hs'.block_eq index _ hrecord').trans (hs.block_eq index _ hrecord).symm

theorem Table.Grows.created (h : t.Grows t' indices) {s' : BbState}
    (hs' : Stores host s' (t'.releaseAll indices)) {id : Nat} (hnew : t.records.length < id)
    (hle : id ≤ t'.records.length) :
    s'.counterField id = formatInt 2 0 ∧ s'.file (.block (padDecimal 3 id)) = none := by
  obtain ⟨index, rfl⟩ : ∃ index, id = index + 1 := ⟨id - 1, by omega⟩
  have hcount : (t'.releaseAll indices).count index = 0 :=
    h.count_releaseAll (Nat.lt_succ_iff.mp hnew)
  have hindex : index < (t'.releaseAll indices).records.length := by
    rw [Table.releaseAll_length]
    omega
  constructor
  · rw [hs'.counterField_count hindex, hcount]
    rfl
  · have hrecord := List.getElem?_eq_getElem hindex
    rw [Table.count_eq hrecord] at hcount
    exact (hs'.block_eq index _ hrecord).trans (if_pos hcount)

theorem unlink_new {path : Path} (hnew : s.rootdir.lookup path = none) (content : Bytes) :
    ∃ rootdir, ((bbMknod s path).2.rootdir.write s.rootdir.next content).unlink path =
        .ok rootdir ∧
      (∀ name, rootdir.lookup name = s.rootdir.lookup name) ∧
      ∀ name node, s.rootdir.lookup name = some node →
        rootdir.data node.inode = s.rootdir.data node.inode := by
  have hcreated : (bbMknod s path).2.rootdir =
      s.rootdir.insertNew path .file (fun _ => rfl) [] := by
    simp only [bbMknod, logSyscall, FileSystem.create, hnew]
  rw [hcreated]
  refine ⟨_, by simp [FileSystem.unlink, FileSystem.lookup_insertNew]; rfl, ?_, ?_⟩
  · intro name
    rw [FileSystem.lookup_erase, FileSystem.lookup_write, FileSystem.lookup_insertNew]
    split
    · rename_i hname
      rw [hname, hnew]
    · rfl
  · intro name node hname
    have hlt := s.rootdir.lookup_lt hname
    simp [FileSystem.insertNew, Function.update_of_ne hlt.ne]

end

/--
In every state that is reached, a new file is created, filled with at most 1365
blocks and removed: nothing is left of it but records with the counter 00.
-/
theorem unlink_undoes_writes (sha1 : Bytes → Vector UInt8 20) (requests : List Request)
    (hrun : Along (serve (.granting sha1)) (KeepsTable (.granting sha1)) freshMount requests)
    {s : BbState} (hs : run (serve (.granting sha1)) freshMount requests = .ok s) {path : Path}
    (hnew : s.rootdir.lookup path = none) {fh : Nat}
    (hopen : (bbMknod s path).2.rootdir.resolve path = .ok fh) (buffers : List Bytes)
    (hsize : ∀ buf ∈ buffers, buf.length ≤ maxBlockSize) (hlength : buffers.length ≤ 1365)
    (hlimits : Along (appendBlock (.granting sha1) fh) (WithinLimits (.granting sha1))
      (bbMknod s path).2 buffers) :
    ∃ written s', run (appendBlock (.granting sha1) fh) (bbMknod s path).2 buffers =
        .ok written ∧
      bbUnlink (.granting sha1) written path = .ok (0, s') ∧ Undone s written s' := by
  have hgrants := Host.granting_grants sha1
  rcases exists_stores_of_run hgrants hrun hs with ⟨t, hstores⟩
  obtain rfl : s.rootdir.next = fh := Except.ok.inj ((resolve_mknod hnew).symm.trans hopen)
  have hcreated : Stores (.granting sha1) (bbMknod s path).2 t := hstores.logSyscall _
  have hempty : (bbMknod s path).2.rootdir.data s.rootdir.next = pointerBytes [] := by
    simp [bbMknod, logSyscall, FileSystem.create, hnew, FileSystem.insertNew]
  rcases run_appendBlock hgrants hcreated (Table.Grows.refl t) hempty hsize hlimits with
    ⟨written, t', all, hwritten, hstores', hgrows, hall, hrootdir⟩
  have hfile : written.rootdir.data s.rootdir.next = pointerBytes all := by
    simp [hrootdir]
  have hpath : written.rootdir.resolve path = .ok s.rootdir.next := by
    rw [hrootdir, FileSystem.resolve_write, hopen]
  rcases hstores'.deleteBlocks hgrants hpath hgrows.valid hfile with
    ⟨s', hdelete, hdeleted, hrootdir'⟩
  rw [hgrows.reached_eq (by simpa [hall] using hlength), List.take_length] at hdeleted
  -- the walk has emptied the pointers file, or left it alone
  have hcontent : ∃ content, s'.rootdir =
      (bbMknod s path).2.rootdir.write s.rootdir.next content := by
    rw [hrootdir', hrootdir]
    split
    · exact ⟨[], by simp [FileSystem.write]⟩
    · exact ⟨_, rfl⟩
  rcases hcontent with ⟨content, hcontent⟩
  rcases unlink_new hnew content with ⟨rootdir, hunlink, hlookup, hdata⟩
  rw [← hcontent] at hunlink
  refine ⟨written, { s' with rootdir := rootdir }, hwritten, ?_, ?_, ?_, hlookup, hdata⟩
  · rw [bbUnlink_eq hdelete, if_pos hgrants.unlink, hunlink]
    rfl
  · intro id hpos hle
    exact hgrows.record_eq hstores (hdeleted.setRootdir rootdir) hpos hle
  · intro id hgt hle
    rw [hstores.lastId_eq] at hgt
    rw [hstores'.lastId_eq] at hle
    exact hgrows.created (hdeleted.setRootdir rootdir) hgt hle

def oneBlockRun : List Request := [.mknod "a", .write "a" [97] 0]

/-- A second file shares "a" and has "b" twice. -/
theorem unlink_undoes_writes_oneBlockRun :
    ∃ s written s', run (serve (.granting sampleSha1)) freshMount oneBlockRun = .ok s ∧
      run (appendBlock (.granting sampleSha1) 1) (bbMknod s "b").2 [[97], [98], [98]] =
        .ok written ∧
      bbUnlink (.granting sampleSha1) written "b" = .ok (0, s') ∧ Undone s written s' := by
  have hstart : ∃ s, run (serve (.granting sampleSha1)) freshMount oneBlockRun = .ok s ∧
      s.rootdir.lookup "b" = none ∧ s.rootdir.next = 1 ∧
      Along (appendBlock (.granting sampleSha1) 1) (WithinLimits (.granting sampleSha1))
        (bbMknod s "b").2 [[97], [98], [98]] := by
    decide +kernel
  rcases hstart with ⟨s, hs, hnew, hnext, hlimits⟩
  have hopen := resolve_mknod hnew
  rw [hnext] at hopen
  rcases unlink_undoes_writes sampleSha1 oneBlockRun (by decide +kernel) hs hnew hopen
    [[97], [98], [98]] (by decide) (by decide) hlimits with ⟨written, s', h⟩
  exact ⟨s, written, s', hs, h⟩

def holedRun : List Request := [.mknod "a", .write "a" [97] 8138, .unlink "a"]

/-- The next block that is created outlives its only file. -/
theorem holedRun_not_undone :
    ∃ s written s', run (serve (.granting sampleSha1)) freshMount holedRun = .ok s ∧
      (bbMknod s "b").2.rootdir.resolve "b" = .ok 1 ∧
      Along (appendBlock (.granting sampleSha1) 1) (WithinLimits (.granting sampleSha1))
        (bbMknod s "b").2 [[98]] ∧
      run (appendBlock (.granting sampleSha1) 1) (bbMknod s "b").2 [[98]] = .ok written ∧
      bbUnlink (.granting sampleSha1) written "b" = .ok (0, s') ∧ ¬ Undone s written s' := by
  have hrun : ∃ s, run (serve (.granting sampleSha1)) freshMount holedRun = .ok s ∧
      (bbMknod s "b").2.rootdir.resolve "b" = .ok 1 ∧
      Along (appendBlock (.granting sampleSha1) 1) (WithinLimits (.granting sampleSha1))
        (bbMknod s "b").2 [[98]] ∧
      ∃ written, run (appendBlock (.granting sampleSha1) 1) (bbMknod s "b").2 [[98]] =
          .ok written ∧
        ∃ answer, bbUnlink (.granting sampleSha1) written "b" = .ok answer ∧ answer.1 = 0 ∧
          s.lastId = 1 ∧ written.lastId = 2 ∧
          answer.2.file (.block (padDecimal 3 2)) = some [98] := by
    decide +kernel
  rcases hrun with ⟨s, hs, hopen, hlimits, written, hwritten, ⟨ret, s'⟩, hunlink, rfl, hlast,
    hlast', hfile⟩
  refine ⟨s, written, s', hs, hopen, hlimits, hwritten, hunlink, ?_⟩
  intro hundone
  have hnone := (hundone.created 2 (by omega) (by omega)).2
  rw [hfile] at hnone
  cases hnone

end Ece318.Bbfs
