import Ece318.Bbfs.AnyStore
import Ece318.Bbfs.Dedup
import Ece318.Bbfs.TableRuns

/-!
# A write that cannot open its files

`bb_write` opens up to three files: the hashes file to look for the hash, the
file of a new block, and the hashes file again to write the line.  None of the
functions reports a call that was refused: `compare_hashes` answers 1, which is
an id, `generate_block` answers 0, and `write_hash` answers nothing.
-/

namespace Ece318.Bbfs

open Ece318.Foundation

/-- The entry leads to the buffer, and its counter says one reference more. -/
structure WroteBlock (s s' : BbState) (buf entry : Bytes) : Prop where
  block_eq : s'.file (.block entry) = some buf
  counter_eq : atoi (s'.counterField (atoi entry).toNat) =
    atoi (s.counterField (atoi entry).toNat) + 1

structure Unchanged (s s' : BbState) : Prop where
  lastId_eq : s'.lastId = s.lastId
  file_eq : ∀ name, s'.file name = s.file name
  data_eq : ∀ inode, s'.rootdir.data inode = s.rootdir.data inode

/-- `bb_write` returns the size and has stored the buffer, or an error and has done nothing. -/
def ReportsWrite (host : Host) (s : BbState) (buf : Bytes) (offset fh : Nat) : Prop :=
  ∃ ret s', bbWrite host s buf offset fh = .ok (ret, s') ∧
    (ret = buf.length ∧ WroteBlock s s' buf
        (readAt (s'.rootdir.data fh) (offset / bbfsMaxBlockSize * idLength) idLength) ∨
      ret < 0 ∧ Unchanged s s')

structure Recorded (host : Host) (s : BbState) (buf : Bytes) (id : Nat) : Prop where
  pos : 1 ≤ id
  le : id ≤ s.lastId
  hash_eq : s.hashField id = generateHash host buf
  live : atoi (s.counterField id) ≠ 0

def CanShare (s : BbState) (buf : Bytes) (id : Nat) : Prop :=
  s.file (.block (padDecimal 3 id)) = some buf ∧ atoi (s.counterField id) < 99

/-- The calls that the write needs are granted, and there is room for the reference. -/
def Storable (host : Host) (s : BbState) (buf : Bytes) : Prop :=
  host.grants .writeHash = true ∧
    if host.grants .compareHashes then
      (∃ id, Recorded host s buf id ∧ CanShare s buf id) ∨
        (∀ id, ¬ Recorded host s buf id) ∧ host.grants .generateBlock = true ∧ s.lastId < 999
    else CanShare s buf 1

section

variable {host : Host} {s s' : BbState} {t : Table} {buf text : Bytes} {index : Nat}
  {record : Record}

/-! ## What `bb_write` makes of `write_blocks` -/

theorem reportsWrite_iff (hwrite : writeBlocks host s buf = .ok (text, s'))
    (htext : 3 ≤ text.length) (hsize : buf.length ≤ maxBlockSize) (offset fh : Nat) :
    ReportsWrite host s buf offset fh ↔ WroteBlock s s' buf (text.take 3) := by
  have hbound : buf.length ≤ 4096 := hsize
  have hret : int32 buf.length = buf.length := int32_of_lt (by omega)
  have hentry : readAt (writeAt (s'.rootdir.data fh) text (offset / bbfsMaxBlockSize * idLength))
      (offset / bbfsMaxBlockSize * idLength) idLength = text.take 3 := by
    exact readAt_writeAt_within (s'.rootdir.data fh) (show 0 + 3 ≤ text.length by omega)
  have hrun : bbWrite host s buf offset fh = .ok (int32 buf.length, s'.setPointers fh
      (writeAt (s'.rootdir.data fh) text (offset / bbfsMaxBlockSize * idLength))) := by
    simp only [bbWrite, hwrite]
    rfl
  constructor
  · rintro ⟨ret, final, hok, hresult⟩
    obtain ⟨rfl, rfl⟩ := Prod.mk.inj (Except.ok.inj (hrun.symm.trans hok))
    rcases hresult with ⟨-, hblock, hcounter⟩ | ⟨hneg, -⟩
    · simp only [BbState.rootdir_setPointers, FileSystem.data_write, Function.update_self,
        hentry] at hblock hcounter
      exact ⟨hblock, hcounter⟩
    · omega
  · rintro ⟨hblock, hcounter⟩
    refine ⟨_, _, hrun, Or.inl ⟨hret, ?_⟩⟩
    simp only [BbState.rootdir_setPointers, FileSystem.data_write, Function.update_self, hentry]
    exact ⟨hblock, hcounter⟩

theorem writeBlocks_eq (hsize : buf.length ≤ maxBlockSize) {id : Int}
    (hgenerate : generateBlock host s (buf ++ [0]) = .ok (id, s')) :
    writeBlocks host s buf = .ok (formatInt 3 id, s') := by
  rw [writeBlocks, if_neg (by omega)]
  simp only [hgenerate]
  rfl

/-! ## An id that is not new -/

theorem counterField_writeHash (found : BbState) (hashesfile hash : Bytes) (hindex : index < 999)
    (count : Nat) :
    (found.setFile .hashes (writeAt hashesfile
      (padDecimal 3 (index + 1) ++ padDecimal 2 count ++ hash) (45 * index))).counterField
        (index + 1) = (padDecimal 2 count).take 2 := by
  have hid := idText_length hindex
  have hcounter := le_padDecimal_length 2 count
  have hwindow : readAt (writeAt hashesfile
      (padDecimal 3 (index + 1) ++ padDecimal 2 count ++ hash) (45 * index)) (45 * index + 3) 2 =
      readAt (padDecimal 3 (index + 1) ++ padDecimal 2 count ++ hash) 3 2 := by
    apply readAt_writeAt_within
    simp only [List.length_append]
    omega
  rw [BbState.counterField, BbState.field, BbState.file_setFile, if_pos rfl, Option.getD_some,
    Nat.add_sub_cancel, hwindow, readAt, List.append_assoc, List.drop_left' hid,
    List.take_append_of_le_length hcounter]

theorem atoi_take_counter {count : Nat} (h : count ≤ 99) :
    atoi ((padDecimal 2 (count + 1)).take 2) = count + 1 ↔ count < 99 := by
  rcases Nat.lt_or_ge count 99 with hlt | hge
  · have hwidth : (padDecimal 2 (count + 1)).length = 2 :=
      padDecimal_length (by omega) (by omega)
    rw [List.take_of_length_le hwidth.le, atoi_padDecimal]
    exact iff_of_true (by push_cast; rfl) hlt
  · obtain rfl : count = 99 := by omega
    decide

theorem wroteBlock_old (h : Stores host s t) (hrecord : t.records[index]? = some record)
    {found : BbState} (hblock : ∀ id, found.file (.block id) = s.file (.block id))
    (hashesfile hash : Bytes) :
    WroteBlock s (found.setFile .hashes (writeAt hashesfile
      (padDecimal 3 (index + 1) ++ padDecimal 2 (record.count + 1) ++ hash) (45 * index))) buf
      (padDecimal 3 (index + 1)) ↔ CanShare s buf (index + 1) := by
  have hcounter := counterField_writeHash found hashesfile hash (Table.index_lt_999 hrecord)
    (record.count + 1)
  have hid : (atoi (padDecimal 3 (index + 1))).toNat = index + 1 := by
    rw [atoi_padDecimal, Int.toNat_natCast]
  have hcount : atoi (s.counterField (index + 1)) = record.count := by
    rw [h.counterField hrecord, atoi_padDecimal]
  have hiff := atoi_take_counter record.count_le
  constructor
  · rintro ⟨hfile, hnew⟩
    rw [hid, hcounter, hcount] at hnew
    refine ⟨by simpa [hblock] using hfile, ?_⟩
    rw [hcount]
    exact_mod_cast hiff.mp hnew
  · rintro ⟨hfile, hlt⟩
    rw [hcount] at hlt
    refine ⟨by simpa [hblock] using hfile, ?_⟩
    rw [hid, hcounter, hcount]
    exact hiff.mpr (by exact_mod_cast hlt)

theorem reportsWrite_old (h : Stores host s t) (hsize : buf.length ≤ maxBlockSize)
    (hgrant : host.grants .writeHash = true) (hrecord : t.records[index]? = some record)
    {found : BbState} (hlast : found.lastId = s.lastId)
    (hhashes : found.file .hashes = some (t.bytes host))
    (hblock : ∀ id, found.file (.block id) = s.file (.block id))
    (hcompare : compareHashes host s (generateHash host (buf ++ [0])) =
      ((index : Int) + 1, found)) (offset fh : Nat) :
    ReportsWrite host s buf offset fh ↔ CanShare s buf (index + 1) := by
  have hindex : index < found.lastId := by
    rw [hlast, h.lastId_eq]
    exact Table.index_lt hrecord
  have hwidth := idText_length (Table.index_lt_999 hrecord)
  have hwrite := Stores.writeHash_old hhashes hgrant hrecord hindex (generateHash host (buf ++ [0]))
  have hgenerate := generateBlock_hit hcompare (by omega)
  rw [hwrite] at hgenerate
  rw [reportsWrite_iff (writeBlocks_eq hsize hgenerate) (le_padDecimal_length 3 (index + 1)) hsize,
    ← wroteBlock_old h hrecord hblock (t.bytes host) (generateHash host (buf ++ [0]))]
  have hentry : (formatInt 3 ((index : Int) + 1)).take 3 = padDecimal 3 (index + 1) :=
    List.take_of_length_le hwidth.le
  rw [hentry]

/-! ## A line that is not written -/

theorem WroteBlock.false_of_counterField {entry : Bytes}
    (h : WroteBlock s s' buf entry) (hfield : ∀ id, s'.counterField id = s.counterField id) :
    False := by
  have hcounter := h.counter_eq
  rw [hfield] at hcounter
  omega

theorem not_reportsWrite_of_skip (hsize : buf.length ≤ maxBlockSize) {found : BbState}
    {answer : Nat} (hhashes : (found.file .hashes).getD [] = (s.file .hashes).getD [])
    (hcompare : compareHashes host s (generateHash host (buf ++ [0])) = ((answer : Int), found))
    (hskip : ∀ s' hash id, s'.file .hashes = found.file .hashes →
      writeHash host s' hash id = .ok s') (offset fh : Nat) :
    ¬ ReportsWrite host s buf offset fh := by
  have hgenerate : ∃ (id : Nat) (s' : BbState),
      generateBlock host s (buf ++ [0]) = .ok ((id : Int), s') ∧
        s'.file .hashes = found.file .hashes := by
    by_cases hle : (answer : Int) ≤ found.lastId
    · rw [generateBlock_hit hcompare hle, hskip found _ _ rfl]
      exact ⟨answer, found, rfl, rfl⟩
    · by_cases hgrant : host.grants .generateBlock = true
      · rw [generateBlock_miss hcompare hle hgrant (hskip _ _ _ (by simp))]
        exact ⟨_, _, rfl, by simp⟩
      · exact ⟨0, found, generateBlock_refused hcompare hle hgrant, rfl⟩
  rcases hgenerate with ⟨id, s', hgenerate, hfile⟩
  rw [reportsWrite_iff (writeBlocks_eq hsize hgenerate) (le_padDecimal_length 3 id) hsize]
  intro hwrote
  apply hwrote.false_of_counterField
  intro other
  rw [BbState.counterField, BbState.field, hfile, hhashes]
  rfl

theorem writeHash_refused (hgrant : ¬ host.grants .writeHash = true) (hash : Bytes) (id : Int) :
    writeHash host s hash id = .ok s := by
  simp only [writeHash, openFile, if_neg hgrant]

theorem writeHash_missing (hhashes : s.file .hashes = none) (hash : Bytes) (id : Int) :
    writeHash host s hash id = .ok s := by
  simp only [writeHash, openFile, hhashes, ite_self]

/-! ## A block that is new -/

theorem Stores.file_zero (h : Stores host s t) : s.file (.block (padDecimal 3 0)) = none := by
  by_contra hfile
  rcases h.block_only _ hfile with ⟨index, -, hid⟩
  have hzero := padDecimal_injective 3 hid
  omega

theorem Stores.find_of_file (h : Stores host s t) {id : Bytes} {content : Bytes}
    (hfile : s.file (.block id) = some content) : t.find host content ≠ none := by
  intro hnone
  rcases h.block_only id (by simp [hfile]) with ⟨index, hindex, rfl⟩
  have hrecord := List.getElem?_eq_getElem hindex
  have hblock := h.block_eq index _ hrecord
  rw [show blockOf index = .block (padDecimal 3 (index + 1)) from rfl, hfile] at hblock
  split at hblock
  · contradiction
  · rename_i hlive
    obtain rfl := Option.some.inj hblock
    exact t.find_eq_none host hnone (List.getElem_mem hindex) hlive rfl

theorem Stores.counterField_next (h : Stores host s t) :
    s.counterField (t.records.length + 1) = [] := by
  rw [BbState.counterField, BbState.field, h.hashes_eq, Nat.add_sub_cancel]
  apply List.eq_nil_of_length_eq_zero
  rw [readAt_length, t.bytes_length]
  omega

theorem Stores.compareHashes_new (h : Stores host s t)
    (hgrant : host.grants .compareHashes = true) (hfind : t.find host buf = none) :
    Bbfs.compareHashes host s (generateHash host (buf ++ [0])) =
      ((t.records.length : Int) + 1, s.setFile .hashes (t.bytes host)) := by
  rw [h.compareHashes hgrant, t.store_append_nul, t.store_of_find_none host hfind]

theorem Stores.lt_compareHashes_new (h : Stores host s t) :
    ¬ (((t.records.length : Nat) : Int) + 1 ≤ (s.setFile .hashes (t.bytes host)).lastId) := by
  rw [BbState.lastId_setFile, h.lastId_eq]
  omega

theorem reportsWrite_added (h : Stores host s t) (hsize : buf.length ≤ maxBlockSize)
    (hnul : NulFree buf) (hgrantCompare : host.grants .compareHashes = true)
    (hgrantWrite : host.grants .writeHash = true)
    (hgrantBlock : host.grants .generateBlock = true) (hfind : t.find host buf = none)
    (hlt : t.records.length < 999) (offset fh : Nat) : ReportsWrite host s buf offset fh := by
  have hroom : t.HasRoom host buf := by
    simpa only [Table.HasRoom, hfind] using hlt
  rcases h.writeBlocks_of_granted hsize hgrantCompare (fun _ => hgrantBlock) hgrantWrite hroom
    with ⟨s', hwrite, hstores, -⟩
  rw [t.store_of_find_none host hfind] at hwrite hstores
  have hlength : t.records.length < (t.add buf).records.length := by
    simp [Table.add_records t hlt]
  have hcount : (t.add buf).count t.records.length = 1 := by
    rw [Table.count_add hlt, if_pos rfl]
    simp [Table.count]
  have hdata : (t.add buf).data t.records.length = buf := by
    rw [Table.data_add_self hlt, hnul.cString_eq]
  have hwidth := idText_length hlt
  rw [reportsWrite_iff hwrite (by rw [hwidth]) hsize, List.take_of_length_le hwidth.le]
  constructor
  · have hblock := hstores.block_live (show (t.add buf).count t.records.length ≠ 0 by omega)
    rwa [hdata] at hblock
  · rw [atoi_padDecimal, Int.toNat_natCast, h.counterField_next,
      hstores.counterField_count hlength, hcount]
    decide

theorem not_reportsWrite_full (h : Stores host s t) (hsize : buf.length ≤ maxBlockSize)
    (hgrantCompare : host.grants .compareHashes = true)
    (hgrantWrite : host.grants .writeHash = true)
    (hgrantBlock : host.grants .generateBlock = true) (hfind : t.find host buf = none)
    (hlast : s.lastId = 999) (offset fh : Nat) : ¬ ReportsWrite host s buf offset fh := by
  have hhashes : ((s.setFile .hashes (t.bytes host)).setFile
      (blockOf (s.setFile .hashes (t.bytes host)).lastId) []).file .hashes =
      some (t.bytes host) := by simp
  rcases writeHash_add_any hgrantWrite hhashes (generateHash host (buf ++ [0])) with
    ⟨line, -, hline⟩
  have hgenerate := generateBlock_miss (h.compareHashes_new hgrantCompare hfind)
    h.lt_compareHashes_new hgrantBlock hline
  simp only [BbState.lastId_setFile, hlast] at hgenerate
  rw [reportsWrite_iff (writeBlocks_eq hsize hgenerate) (le_padDecimal_length 3 (999 + 1)) hsize]
  rintro ⟨hblock, -⟩
  have hentry : (formatInt 3 ((999 + 1 : Nat) : Int)).take 3 = padDecimal 3 100 := by decide
  have hother : StorageFile.block (padDecimal 3 100) ≠ blockOf 999 := by decide
  rw [hentry] at hblock
  have hfile : s.file (.block (padDecimal 3 100)) = some buf := by
    simpa [hother] using hblock
  exact h.find_of_file hfile hfind

theorem not_reportsWrite_refused (h : Stores host s t) (hsize : buf.length ≤ maxBlockSize)
    (hgrantCompare : host.grants .compareHashes = true)
    (hgrantBlock : ¬ host.grants .generateBlock = true) (hfind : t.find host buf = none)
    (offset fh : Nat) : ¬ ReportsWrite host s buf offset fh := by
  have hgenerate := generateBlock_refused (h.compareHashes_new hgrantCompare hfind)
    h.lt_compareHashes_new hgrantBlock
  rw [reportsWrite_iff (writeBlocks_eq hsize hgenerate) (le_padDecimal_length 3 0) hsize]
  rintro ⟨hblock, -⟩
  have hzero : (formatInt 3 0).take 3 = padDecimal 3 0 := by decide
  rw [hzero, BbState.file_setFile, if_neg (by simp), h.file_zero] at hblock
  cases hblock

theorem reportsWrite_new (h : Stores host s t) (hsize : buf.length ≤ maxBlockSize)
    (hnul : NulFree buf) (hgrantCompare : host.grants .compareHashes = true)
    (hgrantWrite : host.grants .writeHash = true) (hfind : t.find host buf = none)
    (offset fh : Nat) :
    ReportsWrite host s buf offset fh ↔
      host.grants .generateBlock = true ∧ s.lastId < 999 := by
  have hle := t.length_le
  rw [← h.lastId_eq] at hle
  by_cases hgrantBlock : host.grants .generateBlock = true
  · rcases Nat.lt_or_ge s.lastId 999 with hlt | hge
    · have hlength : t.records.length < 999 := h.lastId_eq ▸ hlt
      exact iff_of_true (reportsWrite_added h hsize hnul hgrantCompare hgrantWrite hgrantBlock
        hfind hlength offset fh) ⟨hgrantBlock, hlt⟩
    · have hlast : s.lastId = 999 := by omega
      exact iff_of_false (not_reportsWrite_full h hsize hgrantCompare hgrantWrite hgrantBlock
        hfind hlast offset fh) fun hstorable => absurd hstorable.2 (by omega)
  · exact iff_of_false (not_reportsWrite_refused h hsize hgrantCompare hgrantBlock hfind
      offset fh) fun hstorable => hgrantBlock hstorable.1

/-! ## Every pattern of refused calls -/

theorem Stores.recorded_iff (h : Stores host s t) (hdistinct : t.Distinct host) :
    Recorded host s buf (index + 1) ↔ t.find host buf = some index := by
  constructor
  · intro hrecorded
    have hindex : index < t.records.length := by
      have hle := hrecorded.le
      rwa [h.lastId_eq] at hle
    have hrecord := List.getElem?_eq_getElem hindex
    have hhash := hrecorded.hash_eq
    have hlive := hrecorded.live
    rw [h.hashField hrecord] at hhash
    rw [h.counterField hrecord, atoi_padDecimal] at hlive
    have hcount : t.records[index].count ≠ 0 := by exact_mod_cast hlive
    cases hfind : t.find host buf with
    | none => exact absurd hhash (t.find_eq_none host hfind (List.getElem_mem hindex) hcount)
    | some found =>
        rcases t.find_eq_some host hfind with ⟨record, hfound, hfoundLive, hfoundHash⟩
        rw [hdistinct found index]
        · rwa [Table.count_eq hfound]
        · rwa [Table.count_eq hrecord]
        · rw [Table.data_eq hfound, Table.data_eq hrecord, hfoundHash, hhash]
  · intro hfind
    rcases t.find_eq_some host hfind with ⟨record, hrecord, hlive, hhash⟩
    constructor
    · omega
    · rw [h.lastId_eq]
      exact Table.index_lt hrecord
    · rw [h.hashField hrecord, hhash]
    · rw [h.counterField hrecord, atoi_padDecimal]
      exact_mod_cast hlive

theorem Stores.storable_iff (h : Stores host s t) (hdistinct : t.Distinct host)
    (hgrantWrite : host.grants .writeHash = true)
    (hgrantCompare : host.grants .compareHashes = true) :
    Storable host s buf ↔
      match t.find host buf with
      | some index => CanShare s buf (index + 1)
      | none => host.grants .generateBlock = true ∧ s.lastId < 999 := by
  have hrecorded : ∀ id, Recorded host s buf id ↔
      ∃ index, t.find host buf = some index ∧ id = index + 1 := by
    intro id
    constructor
    · intro hrecorded
      obtain ⟨index, rfl⟩ : ∃ index, id = index + 1 :=
        ⟨id - 1, (Nat.succ_pred_eq_of_pos hrecorded.pos).symm⟩
      exact ⟨index, (h.recorded_iff hdistinct).mp hrecorded, rfl⟩
    · rintro ⟨index, hfind, rfl⟩
      exact (h.recorded_iff hdistinct).mpr hfind
  simp only [Storable, hgrantWrite, hgrantCompare, if_true, true_and, hrecorded]
  cases t.find host buf with
  | none => simp
  | some index => simp

theorem Stores.exists_compareHashes (h : Stores host s t) (data : Bytes) :
    ∃ (answer : Nat) (found : BbState),
      Bbfs.compareHashes host s (generateHash host data) = ((answer : Int), found) ∧
        (found.file .hashes).getD [] = (s.file .hashes).getD [] := by
  by_cases hgrant : host.grants .compareHashes = true
  · refine ⟨(t.store host data).1 + 1, _, h.compareHashes hgrant data, ?_⟩
    simp [h.hashes_eq]
  · exact ⟨1, s, by simp [Bbfs.compareHashes, hgrant], rfl⟩

theorem Stores.reportsWrite_unseen (h : Stores host s t)
    (hempty : s.lastId = 0 → s.file .hashes = none) (hsize : buf.length ≤ maxBlockSize)
    (hgrantWrite : host.grants .writeHash = true)
    (hgrantCompare : ¬ host.grants .compareHashes = true) (offset fh : Nat) :
    ReportsWrite host s buf offset fh ↔ CanShare s buf 1 := by
  have hcompare : Bbfs.compareHashes host s (generateHash host (buf ++ [0])) =
      (((1 : Nat) : Int), s) := by
    simp [Bbfs.compareHashes, hgrantCompare]
  rcases Nat.eq_zero_or_pos s.lastId with hzero | hpos
  · apply iff_of_false
    · apply not_reportsWrite_of_skip hsize rfl hcompare
      intro s' hash id hfile
      exact writeHash_missing (hfile.trans (hempty hzero)) hash id
    · rintro ⟨hfile, -⟩
      rcases h.block_only _ (Option.ne_none_iff_exists'.mpr ⟨_, hfile⟩) with ⟨index, hindex, -⟩
      rw [h.lastId_eq] at hzero
      omega
  · have hindex : 0 < t.records.length := h.lastId_eq ▸ hpos
    have hrecord := List.getElem?_eq_getElem hindex
    exact reportsWrite_old h hsize hgrantWrite hrecord rfl (h.hashes_of_mem hrecord)
      (fun _ => rfl) hcompare offset fh

theorem Stores.reportsWrite (h : Stores host s t) (hdistinct : t.Distinct host)
    (hempty : s.lastId = 0 → s.file .hashes = none) (hsize : buf.length ≤ maxBlockSize)
    (hnul : NulFree buf) (offset fh : Nat) :
    ReportsWrite host s buf offset fh ↔ Storable host s buf := by
  by_cases hgrantWrite : host.grants .writeHash = true
  · by_cases hgrantCompare : host.grants .compareHashes = true
    · rw [h.storable_iff hdistinct hgrantWrite hgrantCompare]
      cases hfind : t.find host buf with
      | none => exact reportsWrite_new h hsize hnul hgrantCompare hgrantWrite hfind offset fh
      | some index =>
          rcases t.find_eq_some host hfind with ⟨record, hrecord, -⟩
          have hcompare := h.compareHashes hgrantCompare (buf ++ [0])
          rw [t.store_append_nul, t.store_of_find_some host hfind] at hcompare
          have hblock : ∀ id, (s.setFile .hashes (t.bytes host)).file (.block id) =
              s.file (.block id) := by simp
          apply reportsWrite_old h hsize hgrantWrite hrecord _ _ hblock hcompare
          · rfl
          · simp
    · have hstorable : Storable host s buf ↔ CanShare s buf 1 := by
        simp [Storable, hgrantWrite, hgrantCompare]
      rw [hstorable]
      exact h.reportsWrite_unseen hempty hsize hgrantWrite hgrantCompare offset fh
  · rcases h.exists_compareHashes (buf ++ [0]) with ⟨answer, found, hcompare, hhashes⟩
    apply iff_of_false
    · exact not_reportsWrite_of_skip hsize hhashes hcompare
        (fun _ hash id _ => writeHash_refused hgrantWrite hash id) offset fh
    · exact fun hstorable => hgrantWrite hstorable.1

/-! ## Runs -/

theorem hashes_serve (h : Stores host s t) (hgrants : host.Grants) {request : Request}
    (hkeeps : KeepsTable host s request) (hserve : serve host s request = .ok s')
    (hlast : s'.lastId = 0) (hhashes : s.file .hashes = none) : s'.file .hashes = none := by
  cases request with
  | write path buf offset =>
      cases hpath : s.rootdir.resolve path with
      | error errno =>
          simp only [serve, hpath, Except.ok.injEq] at hserve
          rw [← hserve, hhashes]
      | ok fh =>
          simp only [KeepsTable, hpath] at hkeeps
          rcases h.serve_write hgrants hpath hkeeps.1 hkeeps.2 with ⟨s'', hok, hstores⟩
          obtain rfl := Except.ok.inj (hok.symm.trans hserve)
          have hlt := Table.store_lt host ((h.withinLimits_iff hgrants buf).mp hkeeps.2)
          rw [hstores.lastId_eq] at hlast
          omega
  | unlink path =>
      cases hpath : s.rootdir.resolve path with
      | error errno =>
          simp only [KeepsTable, hpath] at hkeeps
          contradiction
      | ok fh =>
          have hdelete : deleteBlocks host s path = .ok s := by
            simp [deleteBlocks, openFile, hhashes, openPath_of_resolve hgrants hpath]
          rw [serve_unlink_eq hdelete] at hserve
          rw [← Except.ok.inj hserve, file_logSyscall, hhashes]
  | truncate path newsize =>
      rw [← Except.ok.inj hserve, bbTruncate]
      split
      · exact hhashes
      · exact hhashes
  | mknod path => rw [← Except.ok.inj hserve, bbMknod, file_logSyscall, hhashes]
  | rename path newpath => rw [← Except.ok.inj hserve, bbRename, file_logSyscall, hhashes]
  | link path newpath => rw [← Except.ok.inj hserve, bbLink, file_logSyscall, hhashes]
  | symlink path link => rw [← Except.ok.inj hserve, bbSymlink, file_logSyscall, hhashes]

end

theorem run_stores_distinct {host : Host} (hgrants : host.Grants) {requests : List Request}
    (hrun : Along (serve host) (KeepsTable host) freshMount requests) :
    ∃ s, run (serve host) freshMount requests = .ok s ∧
      ∃ t, Stores host s t ∧ t.Distinct host ∧ (s.lastId = 0 → s.file .hashes = none) := by
  refine run_invariant (fun s => ∃ t, Stores host s t ∧ t.Distinct host ∧
    (s.lastId = 0 → s.file .hashes = none)) ?_
    ⟨_, stores_freshMount host, distinct_initial host, fun _ => rfl⟩ hrun
  rintro s request ⟨t, hs, hdistinct, hempty⟩ hkeeps
  rcases hs.serve hgrants hkeeps with ⟨s', t', hok, hs', htable⟩
  refine ⟨s', hok, t', hs', ?_, fun hlast => ?_⟩
  · rcases htable with ⟨path, buf, offset, -, hroom, rfl⟩ | rfl | ⟨path, indices, -, rfl, -⟩
    · exact hdistinct.store hroom
    · exact hdistinct
    · exact hdistinct.releaseAll indices
  · apply hashes_serve hs hgrants hkeeps hok hlast
    apply hempty
    rw [hs.lastId_eq]
    rw [hs'.lastId_eq] at hlast
    rcases htable with ⟨path, buf, offset, -, hroom, rfl⟩ | rfl | ⟨path, indices, -, rfl, -⟩
    · have hlt := Table.store_lt host hroom
      omega
    · exact hlast
    · simpa using hlast

/--
In every state that is reached, whatever calls are refused: `bb_write` stores the
buffer or reports an error just where the buffer can be stored.
-/
theorem bbWrite_reports_iff (sha1 : Bytes → Vector UInt8 20) (requests : List Request)
    (hrun : Along (serve (.granting sha1)) (KeepsTable (.granting sha1)) freshMount requests)
    {s : BbState} (hs : run (serve (.granting sha1)) freshMount requests = .ok s)
    (grants : FopenCall → Bool) (mayUnlink nameSlack : Bool) (buf : Bytes)
    (hsize : buf.length ≤ maxBlockSize) (hnul : NulFree buf) (offset fh : Nat) :
    ReportsWrite ⟨sha1, grants, mayUnlink, nameSlack⟩ s buf offset fh ↔
      Storable ⟨sha1, grants, mayUnlink, nameSlack⟩ s buf := by
  rcases run_stores_distinct (Host.granting_grants sha1) hrun with
    ⟨s₀, hs₀, t, hstores, hdistinct, hempty⟩
  obtain rfl := Except.ok.inj (hs₀.symm.trans hs)
  have hstores' : Stores ⟨sha1, grants, mayUnlink, nameSlack⟩ s₀ t := hstores.of_sha1_eq rfl
  exact hstores'.reportsWrite hdistinct hempty hsize hnul offset fh

def withoutBlockFile : Host :=
  ⟨sampleSha1, fun call => call != .generateBlock, true, true⟩

theorem bbWrite_reports_iff_sparseRun :
    ∃ s, run (serve (.granting sampleSha1)) freshMount sparseRun = .ok s ∧
      ReportsWrite withoutBlockFile s [97] 0 1 := by
  have hfields : ∃ s, run (serve (.granting sampleSha1)) freshMount sparseRun = .ok s ∧
      1 ≤ s.lastId ∧ s.hashField 1 = generateHash withoutBlockFile [97] ∧
      s.file (.block (padDecimal 3 1)) = some [97] ∧ atoi (s.counterField 1) = 1 := by
    decide +kernel
  rcases hfields with ⟨s, hs, hle, hhash, hfile, hcounter⟩
  refine ⟨s, hs, ?_⟩
  apply (bbWrite_reports_iff sampleSha1 sparseRun (by decide +kernel) hs
    (fun call => call != .generateBlock) true true [97] (by decide) (by decide) 0 1).mpr
  refine ⟨rfl, Or.inl ⟨1, ⟨le_rfl, hle, hhash, ?_⟩, hfile, ?_⟩⟩
  · rw [hcounter]
    decide
  · rw [hcounter]
    decide

/-- A new block is not stored; its slot is "000", and the answer is the size. -/
theorem sparseRun_not_reportsWrite :
    ∃ s s', run (serve (.granting sampleSha1)) freshMount sparseRun = .ok s ∧
      bbWrite withoutBlockFile s [98] 0 1 = .ok (1, s') ∧
      readAt (s'.rootdir.data 1) 0 3 = [48, 48, 48] ∧
      ¬ ReportsWrite withoutBlockFile s [98] 0 1 := by
  have hrun : ∃ s, run (serve (.granting sampleSha1)) freshMount sparseRun = .ok s ∧
      ∃ answer, bbWrite withoutBlockFile s [98] 0 1 = .ok answer ∧ answer.1 = 1 ∧
        readAt (answer.2.rootdir.data 1) 0 3 = [48, 48, 48] ∧
        answer.2.file (.block [48, 48, 48]) = none := by
    decide +kernel
  rcases hrun with ⟨s, hs, ⟨ret, s'⟩, hwrite, rfl, hentry, hfile⟩
  refine ⟨s, s', hs, hwrite, hentry, ?_⟩
  rintro ⟨ret, final, hok, hresult⟩
  obtain ⟨rfl, rfl⟩ := Prod.mk.inj (Except.ok.inj (hwrite.symm.trans hok))
  rcases hresult with ⟨-, hblock, -⟩ | ⟨hneg, -⟩
  · have hslot : readAt (s'.rootdir.data 1) (0 / bbfsMaxBlockSize * idLength) idLength =
        [48, 48, 48] := hentry
    rw [hslot, hfile] at hblock
    cases hblock
  · exact absurd hneg (by decide)

end Ece318.Bbfs
