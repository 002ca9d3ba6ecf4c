import Ece318.Bbfs.HashesFile

/-!
# Storing a block

`Stores s t` says that `.real_storage` holds exactly what the table `t` says:
its hashes file, and a block file for every live record and for no other.  The
functions that store a block keep it: `generate_block` on the directory is
`Table.store` on the table.
-/

namespace Ece318.Bbfs

open Ece318.Foundation

abbrev blockOf (index : Nat) : StorageFile := .block (padDecimal 3 (index + 1))

theorem blockOf_injective : Function.Injective blockOf :=
  fun _ _ h => idText_injective (StorageFile.block.inj h)

theorem blockOf_inj {first second : Nat} :
    blockOf first = blockOf second ↔ first = second :=
  blockOf_injective.eq_iff

structure Stores (host : Host) (s : BbState) (t : Table) : Prop where
  lastId_eq : s.lastId = t.records.length
  hashes_eq : (s.file .hashes).getD [] = t.bytes host
  hashes_exists : t.records ≠ [] → s.file .hashes ≠ none
  block_eq : ∀ index record, t.records[index]? = some record →
    s.file (blockOf index) = if record.count = 0 then none else some record.data
  block_only : ∀ id, s.file (.block id) ≠ none →
    ∃ index < t.records.length, id = padDecimal 3 (index + 1)

theorem Table.of_share_getElem? {t : Table} {index other : Nat} {record changed : Record}
    (hrecord : t.records[index]? = some record) (hlive : record.count ≠ 0)
    (h : (t.share index).records[other]? = some changed) :
    ∃ old, t.records[other]? = some old ∧ changed.data = old.data ∧
      (changed.count = 0 ↔ old.count = 0) := by
  rw [share_records, modify_eq_set hrecord, List.getElem?_set] at h
  have hshare := record.le_share_count
  split at h
  · subst other
    rw [if_pos (index_lt hrecord), Option.some.injEq] at h
    subst changed
    exact ⟨record, hrecord, record.share_data, by omega⟩
  · exact ⟨changed, h, rfl, Iff.rfl⟩

namespace Stores

variable {host : Host} {s : BbState} {t : Table}

theorem congr (h : Stores host s t) {s' : BbState} (hlast : s'.lastId = s.lastId)
    (hhashes : s'.file .hashes = s.file .hashes)
    (hblock : ∀ id, s'.file (.block id) = s.file (.block id)) : Stores host s' t where
  lastId_eq := hlast.trans h.lastId_eq
  hashes_eq := by rw [hhashes, h.hashes_eq]
  hashes_exists := by rw [hhashes]; exact h.hashes_exists
  block_eq := by
    intro index record hrecord
    rw [hblock, h.block_eq index record hrecord]
  block_only := by
    intro id hid
    rw [hblock] at hid
    exact h.block_only id hid

theorem of_sha1_eq (h : Stores host s t) {other : Host} (hsha1 : other.sha1 = host.sha1) :
    Stores other s t where
  lastId_eq := h.lastId_eq
  hashes_eq := by
    have hline : Record.line other = Record.line host := by
      funext index record
      simp only [Record.line, generateHash, hsha1]
    rw [h.hashes_eq, Table.bytes, Table.bytes, Table.lines, Table.lines, hline]
  hashes_exists := h.hashes_exists
  block_eq := h.block_eq
  block_only := h.block_only

theorem setPointers (h : Stores host s t) (inode : Nat) (content : Bytes) :
    Stores host (s.setPointers inode content) t :=
  h.congr rfl rfl fun _ => rfl

theorem setRootdir (h : Stores host s t) (rootdir : FileSystem Path Bytes) :
    Stores host { s with rootdir := rootdir } t :=
  h.congr rfl rfl fun _ => rfl

theorem setHashes (h : Stores host s t) :
    Stores host (s.setFile .hashes (t.bytes host)) t where
  lastId_eq := h.lastId_eq
  hashes_eq := by simp
  hashes_exists := by simp
  block_eq := by
    intro index record hrecord
    simpa using h.block_eq index record hrecord
  block_only := by
    intro id hid
    exact h.block_only id (by simpa using hid)

theorem hashes_of_mem (h : Stores host s t) {index : Nat} {record : Record}
    (hrecord : t.records[index]? = some record) :
    s.file .hashes = some (t.bytes host) := by
  have hne : t.records ≠ [] := by
    rintro hnil
    simp [hnil] at hrecord
  have hsome := h.hashes_exists hne
  exact (Option.getD_eq_iff.mp h.hashes_eq).resolve_right fun hnone => hsome hnone.1

/-! ## The three steps of `generate_block` -/

theorem compareHashes (h : Stores host s t) (hgrant : host.grants .compareHashes = true)
    (data : Bytes) :
    Bbfs.compareHashes host s (generateHash host data) =
      (((t.store host data).1 : Int) + 1, s.setFile .hashes (t.bytes host)) := by
  simp only [Bbfs.compareHashes, hgrant, if_true, h.hashes_eq, h.lastId_eq,
    t.compareLoop_bytes host]

theorem writeHash_old (hhashes : s.file .hashes = some (t.bytes host))
    (hgrant : host.grants .writeHash = true) {index : Nat} {record : Record}
    (hrecord : t.records[index]? = some record) (hindex : index < s.lastId) (hash : Bytes) :
    writeHash host s hash ((index : Int) + 1) =
      .ok (s.setFile .hashes (writeAt (t.bytes host)
        (padDecimal 3 (index + 1) ++ padDecimal 2 (record.count + 1) ++ hash) (45 * index))) := by
  have hold : ¬ (index : Int) + 1 > s.lastId := by omega
  have hseek : fseek 0 ((((index : Int) + 1) - 1) * lineTotalLength + idLength) =
      45 * index + 3 := by
    apply fseek_eq
    push_cast
    ring
  have hback : fseek (45 * index + 3 + pointersCounterLength)
      ((45 * index + 3 + pointersCounterLength : Nat) - idLength -
        pointersCounterLength : Int) = 45 * index := by
    apply fseek_eq
    push_cast
    ring
  have hline : formatInt 3 ((index : Int) + 1) ++
        formatInt 2 (atoi (padDecimal 2 record.count) + 1) ++ hash =
      padDecimal 3 (index + 1) ++ padDecimal 2 (record.count + 1) ++ hash := by
    rw [atoi_padDecimal, ← formatInt_natCast 3, ← formatInt_natCast 2]
    push_cast
    rfl
  have hwidth := record.counter_length
  simp only [writeHash, openFile, hgrant, if_true, hhashes,
    if_neg hold, hseek, Table.readAt_counter host hrecord, hwidth, ne_eq,
    not_true_eq_false, if_false, hback, hline]

theorem writeHash_share_of_hashes (hhashes : s.file .hashes = some (t.bytes host))
    (hgrant : host.grants .writeHash = true) {index : Nat} {record : Record}
    (hrecord : t.records[index]? = some record) (hroom : record.count < 99)
    (hindex : index < s.lastId) :
    writeHash host s (generateHash host record.data) ((index : Int) + 1) =
      .ok (s.setFile .hashes ((t.share index).bytes host)) := by
  rw [writeHash_old hhashes hgrant hrecord hindex, Table.bytes_share host hrecord, Record.line,
    Record.share_count _ hroom, Record.share_data]

theorem writeHash_share (h : Stores host s t) (hgrant : host.grants .writeHash = true)
    {index : Nat} {record : Record} (hrecord : t.records[index]? = some record)
    (hroom : record.count < 99) :
    writeHash host s (generateHash host record.data) ((index : Int) + 1) =
      .ok (s.setFile .hashes ((t.share index).bytes host)) :=
  writeHash_share_of_hashes (h.hashes_of_mem hrecord) hgrant hrecord hroom
    (h.lastId_eq ▸ Table.index_lt hrecord)

theorem writeHash_add (hhashes : s.file .hashes = some (t.bytes host))
    (hlast : s.lastId = t.records.length) (hgrant : host.grants .writeHash = true)
    (data : Bytes) (hroom : t.records.length < 999) :
    writeHash host s (generateHash host data) (s.lastId + 1) =
      .ok (s.setFile .hashes ((t.add data).bytes host)) := by
  have hline : formatInt 3 ((s.lastId : Int) + 1) ++ [48, 49] ++ generateHash host data =
      Record.line host t.records.length (Record.new data) := by
    rw [Record.line, Record.new_data, Record.new_count, generateHash_cString, hlast,
      ← formatInt_natCast 3]
    push_cast
    rfl
  rw [writeHash, openFile, if_pos hgrant, hhashes]
  simp only [gt_iff_lt, show (s.lastId : Int) < s.lastId + 1 by omega, if_true,
    hline, writeAt_end, Table.bytes_add host hroom]

theorem share (h : Stores host s t) {index : Nat} {record : Record}
    (hrecord : t.records[index]? = some record) (hlive : record.count ≠ 0) :
    Stores host (s.setFile .hashes ((t.share index).bytes host)) (t.share index) where
  lastId_eq := by simpa using h.lastId_eq
  hashes_eq := by simp
  hashes_exists := by simp
  block_eq := by
    intro other changed hchanged
    rcases Table.of_share_getElem? hrecord hlive hchanged with ⟨old, hold, hdata, hcount⟩
    simpa [hdata, hcount] using h.block_eq other old hold
  block_only := by
    intro id hid
    simpa using h.block_only id (by simpa using hid)

theorem add (h : Stores host s t) (data : Bytes) (hroom : t.records.length < 999)
    {s' : BbState} (hlast : s'.lastId = t.records.length + 1)
    (hhashes : s'.file .hashes = some ((t.add data).bytes host))
    (hnew : s'.file (blockOf t.records.length) = some (cString data))
    (hold : ∀ id, id ≠ padDecimal 3 (t.records.length + 1) →
      s'.file (.block id) = s.file (.block id)) :
    Stores host s' (t.add data) where
  lastId_eq := by simp [Table.add_records t hroom, hlast]
  hashes_eq := by simp [hhashes]
  hashes_exists := by simp [hhashes]
  block_eq := by
    intro index record hrecord
    rw [Table.add_records t hroom] at hrecord
    rcases Nat.lt_trichotomy index t.records.length with hlt | rfl | hgt
    · rw [List.getElem?_append_left hlt] at hrecord
      rw [hold _ fun hid => hlt.ne (blockOf_injective (congrArg StorageFile.block hid)),
        h.block_eq index record hrecord]
    · rw [List.getElem?_concat_length, Option.some.injEq] at hrecord
      subst record
      simpa using hnew
    · rw [List.getElem?_eq_none (by simp; omega)] at hrecord
      contradiction
  block_only := by
    intro id hid
    rw [Table.add_records t hroom, List.length_append, List.length_singleton]
    by_cases heq : id = padDecimal 3 (t.records.length + 1)
    · exact ⟨_, Nat.lt_succ_self _, heq⟩
    · rw [hold id heq] at hid
      obtain ⟨index, hlt, hindex⟩ := h.block_only id hid
      exact ⟨index, by omega, hindex⟩

end Stores

namespace Table

variable (host : Host) (t : Table)

theorem find_append_nul (buf : Bytes) : t.find host (buf ++ [0]) = t.find host buf := by
  simp only [find, generateHash_append_nul]

theorem store_append_nul (buf : Bytes) : t.store host (buf ++ [0]) = t.store host buf := by
  simp [store, find_append_nul, add, Record.new]

theorem hasRoom_append_nul (buf : Bytes) :
    t.HasRoom host (buf ++ [0]) ↔ t.HasRoom host buf := by
  simp [HasRoom, find_append_nul]

end Table

/-! ## Hosts that refuse nothing -/

/-- Every call the host makes for the program succeeds, and no name overruns its array. -/
structure Host.Grants (host : Host) : Prop where
  fopen : ∀ call, host.grants call = true
  unlink : host.mayUnlink = true
  slack : host.nameSlack = true

theorem Host.granting_grants (sha1 : Bytes → Vector UInt8 20) :
    (Host.granting sha1).Grants :=
  ⟨fun _ => rfl, rfl, rfl⟩

section

variable {host : Host} {s : BbState} {path : Path}

theorem openPath_of_resolve (hgrants : host.Grants) {inode : Nat}
    (hpath : s.rootdir.resolve path = .ok inode) (call : FopenCall) :
    openPath host s call path = some inode := by
  simp [openPath, hgrants.fopen, hpath, Except.toOption]

theorem openPath_of_error (hgrants : host.Grants) {errno : Errno}
    (hpath : s.rootdir.resolve path = .error errno) (call : FopenCall) :
    openPath host s call path = none := by
  simp [openPath, hgrants.fopen, hpath, Except.toOption]

end

/-! ## `generate_block` and `write_blocks` -/

section

variable {host : Host} {s found : BbState} {blockData : Bytes} {lastID : Int}

theorem generateBlock_hit
    (hcompare : compareHashes host s (generateHash host blockData) = (lastID, found))
    (hle : lastID ≤ found.lastId) :
    generateBlock host s blockData =
      (writeHash host found (generateHash host blockData) lastID).map
        fun s => (lastID, s) := by
  simp only [generateBlock, hcompare, if_pos hle]
  cases writeHash host found (generateHash host blockData) lastID <;> rfl

theorem generateBlock_miss
    (hcompare : compareHashes host s (generateHash host blockData) = (lastID, found))
    (hgt : ¬ lastID ≤ found.lastId) (hgrant : host.grants .generateBlock = true)
    {written : BbState}
    (hwrite : writeHash host (found.setFile (blockOf found.lastId) [])
      (generateHash host blockData) (found.lastId + 1) = .ok written) :
    generateBlock host s blockData =
      .ok ((written.lastId + 1 : Nat),
        (written.setLastId (written.lastId + 1)).setFile (blockOf found.lastId)
          (cString blockData)) := by
  have hname : formatInt 3 ((found.lastId : Int) + 1) = padDecimal 3 (found.lastId + 1) := rfl
  simp only [generateBlock, hcompare, if_neg hgt, if_pos hgrant, hname,
    BbState.lastId_setFile, hwrite]
  rfl

theorem generateBlock_refused
    (hcompare : compareHashes host s (generateHash host blockData) = (lastID, found))
    (hgt : ¬ lastID ≤ found.lastId) (hgrant : ¬ host.grants .generateBlock = true) :
    generateBlock host s blockData = .ok (0, found) := by
  simp only [generateBlock, hcompare, if_neg hgt, if_neg hgrant]
  rfl

end

namespace Stores

variable {host : Host} {s : BbState} {t : Table}

/--
`generate_block` answers the id of the record that stands for its block, if the
calls that it makes are granted.
-/
theorem generateBlock_of_granted (h : Stores host s t) (blockData : Bytes)
    (hgrantsCompare : host.grants .compareHashes = true)
    (hgrantsBlock : t.find host blockData = none → host.grants .generateBlock = true)
    (hgrantsWrite : host.grants .writeHash = true) (hroom : t.HasRoom host blockData) :
    ∃ s', generateBlock host s blockData =
        .ok (((t.store host blockData).1 : Int) + 1, s') ∧
      Stores host s' (t.store host blockData).2 ∧ s'.rootdir = s.rootdir := by
  have hcompare := h.compareHashes hgrantsCompare blockData
  have hset := h.setHashes
  have hlast : (s.setFile .hashes (t.bytes host)).lastId = t.records.length :=
    h.lastId_eq
  cases hfind : t.find host blockData with
  | some index =>
      obtain ⟨record, hrecord, hlive, hhash⟩ := t.find_eq_some host hfind
      have hstore := t.store_of_find_some host hfind
      have hcount : record.count < 99 := by
        simp only [Table.HasRoom, hfind] at hroom
        exact hroom record hrecord
      have hindex := Table.index_lt hrecord
      have hwrite := hset.writeHash_share hgrantsWrite hrecord hcount
      rw [hhash] at hwrite
      rw [hstore] at hcompare ⊢
      rw [generateBlock_hit hcompare (by rw [hlast]; simp only; omega), hwrite]
      exact ⟨_, rfl, hset.share hrecord hlive, rfl⟩
  | none =>
      have hstore := t.store_of_find_none host hfind
      have hlt : t.records.length < 999 := by
        simpa only [Table.HasRoom, hfind] using hroom
      -- the new block file is there before the line, and filled after it
      have hwrite := writeHash_add (t := t)
        (s := (s.setFile .hashes (t.bytes host)).setFile
          (blockOf (s.setFile .hashes (t.bytes host)).lastId) [])
        (by simp) hlast hgrantsWrite blockData hlt
      rw [hstore] at hcompare ⊢
      rw [generateBlock_miss hcompare (by rw [hlast]; simp only; omega)
        (hgrantsBlock hfind) hwrite]
      simp only [BbState.lastId_setFile] at hlast ⊢
      simp only [hlast, Nat.cast_add, Nat.cast_one]
      refine ⟨_, rfl, h.add blockData hlt (by simp) (by simp) (by simp) ?_, rfl⟩
      intro id hid
      simp [hid]

theorem generateBlock (h : Stores host s t) (hgrants : host.Grants) (blockData : Bytes)
    (hroom : t.HasRoom host blockData) :
    ∃ s', Bbfs.generateBlock host s blockData =
        .ok (((t.store host blockData).1 : Int) + 1, s') ∧
      Stores host s' (t.store host blockData).2 ∧ s'.rootdir = s.rootdir :=
  h.generateBlock_of_granted blockData (hgrants.fopen _) (fun _ => hgrants.fopen _)
    (hgrants.fopen _) hroom

theorem writeBlocks_of_granted (h : Stores host s t) {buf : Bytes} (hsize : buf.length ≤ 4096)
    (hgrantsCompare : host.grants .compareHashes = true)
    (hgrantsBlock : t.find host buf = none → host.grants .generateBlock = true)
    (hgrantsWrite : host.grants .writeHash = true) (hroom : t.HasRoom host buf) :
    ∃ s', Bbfs.writeBlocks host s buf =
        .ok (padDecimal 3 ((t.store host buf).1 + 1), s') ∧
      Stores host s' (t.store host buf).2 ∧ s'.rootdir = s.rootdir := by
  obtain ⟨s', hgenerate, hstores, hrootdir⟩ := h.generateBlock_of_granted (buf ++ [0])
    hgrantsCompare (by rwa [t.find_append_nul]) hgrantsWrite
    ((t.hasRoom_append_nul host buf).mpr hroom)
  rw [Table.store_append_nul] at hgenerate hstores
  refine ⟨s', ?_, hstores, hrootdir⟩
  rw [Bbfs.writeBlocks, if_neg (by simpa using hsize)]
  simp only [hgenerate]
  rfl

theorem writeBlocks (h : Stores host s t) (hgrants : host.Grants) {buf : Bytes}
    (hsize : buf.length ≤ 4096) (hroom : t.HasRoom host buf) :
    ∃ s', Bbfs.writeBlocks host s buf =
        .ok (padDecimal 3 ((t.store host buf).1 + 1), s') ∧
      Stores host s' (t.store host buf).2 ∧ s'.rootdir = s.rootdir :=
  h.writeBlocks_of_granted hsize (hgrants.fopen _) (fun _ => hgrants.fopen _) (hgrants.fopen _)
    hroom

end Stores

end Ece318.Bbfs
