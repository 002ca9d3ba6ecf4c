import Ece318.Bbfs.Lookup
import Ece318.Bbfs.Restarts

/-!
# The writes after a stop that is not settled

A line whose block is empty stands in the hashes file for the block that it should
have: when the write is tried again it is answered as if the block were stored.  A
block file without a line sets `last_id` one too high, and the next line is looked for
one line too far down.
-/

namespace Ece318.Bbfs

open Ece318.Foundation

/-! ## Reading a file with one new slot -/

section

variable {host : Host} {contents : Set Bytes} {s s' : BbState} {files : PathMap}

theorem readFile_of_blocks (hgrants : host.Grants) {path : Path} {inode : Nat}
    {indices : List Nat} {data : Nat → Bytes} (hpath : s.rootdir.resolve path = .ok inode)
    (hfile : s.rootdir.data inode = pointerBytes indices) (hlt : ∀ index ∈ indices, index < 999)
    (hlength : indices.length ≤ 99 * 999 + 1)
    (hblock : ∀ index ∈ indices,
      s.file (blockOf index) = some (data index) ∧ IsBlock (data index)) :
    readFile host s path = .ok (some (indices.map data).flatten) := by
  have hblocks : ∀ content ∈ indices.map data, IsBlock content := by
    intro content hcontent
    obtain ⟨index, hindex, rfl⟩ := List.mem_map.mp hcontent
    exact (hblock index hindex).2
  have hsize := flatten_length_le fun content hcontent => (hblocks content hcontent).2
  rw [List.length_map, maxBlockSize] at hsize
  refine readFile_eq hgrants hpath ?_ hblocks (by omega)
  rw [hfile, pointerBytes, entries_flatten (uniform_pointers hlt) (by decide)]
  clear hfile hlength hblocks hsize hlt
  induction indices with
  | nil => exact .nil
  | cons index indices ih =>
      rw [List.forall_mem_cons] at hblock
      refine .cons ?_ (ih hblock.2)
      rw [cString_padDecimal]
      exact hblock.1.1

def Table.dataWith (t : Table) (content : Bytes) (index : Nat) : Bytes :=
  if index < t.records.length then t.data index else content

theorem Table.map_dataWith {t : Table} {indices : List Nat} (h : t.Valid indices)
    (content : Bytes) : indices.map (t.dataWith content) = indices.map t.data :=
  List.map_congr_left fun index hindex => if_pos (h index hindex)

/-- `id` is given to `path` at `slot`, and stands for what its block file holds. -/
structure Puts (s s' : BbState) (path : Path) (slot id : Nat) (content : Bytes) : Prop where
  rootdir_eq : ∀ inode, s.rootdir.resolve path = .ok inode → s'.rootdir =
    s.rootdir.write inode (writeAt (s.rootdir.data inode) (padDecimal 3 (id + 1))
      (slot * idLength))
  old : ∀ index < s.lastId, s'.file (blockOf index) = s.file (blockOf index)
  new : s'.file (blockOf id) = some content

theorem Puts.of_written {path : Path} {inode slot id : Nat} {content : Bytes}
    {written : BbState} (hpath : s.rootdir.resolve path = .ok inode)
    (hrootdir : written.rootdir = s.rootdir)
    (hold : ∀ index < s.lastId, written.file (blockOf index) = s.file (blockOf index))
    (hnew : written.file (blockOf id) = some content) :
    Puts s (written.setPointers inode (writeAt (written.rootdir.data inode)
      (padDecimal 3 (id + 1)) (slot * idLength))) path slot id content where
  rootdir_eq := by
    intro other hother
    obtain rfl := Except.ok.inj (hpath.symm.trans hother)
    rw [BbState.rootdir_setPointers, hrootdir]
  old := hold
  new := hnew

theorem Carries.readFile_puts (h : Carries host contents s files) (hgrants : host.Grants)
    {path : Path} {slot id : Nat} {content : Bytes} {blocks : List Bytes}
    (hputs : Puts s s' path slot id content) (hpath : files path = some blocks)
    (hslot : slot ≤ blocks.length) (hlow : s.lastId ≤ id) (hhigh : id < 999)
    (hcontent : IsBlock content) (other : Path) :
    readFile host s' other =
      .ok ((Function.update files path (some (putSlot blocks slot content)) other).map
        List.flatten) := by
  obtain ⟨-, m, hs, hm⟩ := h
  have hlast := hs.stores.lastId_eq
  obtain ⟨inode, hlookup, rfl⟩ : ∃ inode, m.rootdir.lookup path = some (.file inode) ∧
      blocks = (m.rootdir.data inode).map m.table.data := by
    have hfile := hm.files_eq path
    rw [hpath] at hfile
    obtain ⟨node, hnode, heq⟩ := Option.map_eq_some_iff.mp hfile.symm
    obtain ⟨inode, rfl⟩ := hm.noLinks.regular path node hnode
    exact ⟨inode, hnode, heq.symm⟩
  have hresolve := FileSystem.resolve_file _ hlookup
  have hrootdir := hputs.rootdir_eq inode ((hs.resolve_eq path).trans hresolve)
  have hlinked := Ledger.linked_of_resolve hresolve
  have hvalid := hs.valid inode
  rw [List.length_map] at hslot
  by_cases heq : other = path
  · subst path
    have hslots := hm.slots_length_le hvalid hlinked
    have hnew : m.table.dataWith content id = content := if_neg (by omega)
    have hpath' : s'.rootdir.resolve other = .ok inode := by
      rw [hrootdir, FileSystem.resolve_write, hs.resolve_eq, hresolve]
    have hfile : s'.rootdir.data inode =
        pointerBytes (putSlot (m.rootdir.data inode) slot id) := by
      rw [hrootdir, FileSystem.data_write, Function.update_self, hs.writeAt_pointers hslot hhigh]
    have hread : readFile host s' other = .ok (some
        ((putSlot (m.rootdir.data inode) slot id).map (m.table.dataWith content)).flatten) := by
      refine readFile_of_blocks hgrants hpath' hfile ?_ ?_ ?_
      · intro index hindex
        rcases mem_putSlot hindex with hmem | rfl
        · exact (hvalid index hmem).trans_le m.table.length_le
        · exact hhigh
      · exact (putSlot_length_le _ _ _).trans (Nat.succ_le_succ hslots)
      · intro index hindex
        rcases mem_putSlot hindex with hmem | rfl
        · have hlt := hvalid index hmem
          have hlive := hm.covered.live hlinked index hmem
          rw [Table.dataWith, if_pos hlt, hputs.old index (hlast ▸ hlt),
            hs.stores.block_live hlive]
          exact ⟨rfl, m.table.nulFree_data index, hm.fits.data hlt⟩
        · rw [hnew, hputs.new]
          exact ⟨rfl, hcontent⟩
    rw [hread, Function.update_self, Option.map_some, putSlot_map, Table.map_dataWith hvalid,
      hnew]
  · rw [Function.update_of_ne heq, ← hm.readFile hgrants hs other]
    refine readFile_congr hgrants ?_ ?_ ?_
    · rw [hrootdir, FileSystem.resolve_write]
    · intro inode' hinode'
      have hne := hs.inode_ne hm ((hs.resolve_eq path).trans hresolve) hinode' heq
      rw [hrootdir, FileSystem.data_write, Function.update_of_ne hne]
    · intro inode' hinode' entry hentry
      rw [hs.data_eq, entries_pointerBytes (hs.valid inode')] at hentry
      obtain ⟨index, hindex, rfl⟩ := List.mem_map.mp hentry
      rw [cString_padDecimal]
      refine hputs.old index ?_
      rw [hlast]
      exact hs.valid inode' index hindex

/-! ## A line whose block is empty -/

section

variable {t : Table} {buf : Bytes}

theorem Table.find_add_self (hfind : t.find host buf = none) (hlt : t.records.length < 999) :
    (t.add buf).find host buf = some t.records.length := by
  unfold Table.find at hfind ⊢
  rw [Table.add_records t hlt, List.findIdx?_append, hfind]
  simp

theorem writeBlocks_of_generateBlock (hsize : buf.length ≤ maxBlockSize) {id : Int}
    (hgenerate : generateBlock host s (buf ++ [0]) = .ok (id, s')) :
    writeBlocks host s buf = .ok (formatInt 3 id, s') := by
  rw [writeBlocks, if_neg (by omega)]
  simp only [hgenerate]
  rfl

theorem writeBlocks_forgotten (hgrants : host.Grants) (hsize : buf.length ≤ maxBlockSize)
    (hfind : t.find host buf = none) (hlt : t.records.length < 999)
    (hlast : s.lastId = t.records.length + 1)
    (hhashes : s.file .hashes = some ((t.add buf).bytes host)) :
    ∃ s', writeBlocks host s buf = .ok (padDecimal 3 (t.records.length + 1), s') ∧
      s'.rootdir = s.rootdir ∧ ∀ id, s'.file (.block id) = s.file (.block id) := by
  have hrecord : (t.add buf).records[t.records.length]? = some (Record.new buf) := by
    simp [Table.add_records t hlt]
  have hcompare : compareHashes host s (generateHash host (buf ++ [0])) =
      ((t.records.length : Int) + 1, s.setFile .hashes ((t.add buf).bytes host)) := by
    simp only [compareHashes, hgrants.fopen, if_true, hhashes, Option.getD_some,
      generateHash_append_nul, Table.compareLoop_find, Table.find_add_self hfind hlt]
  have hold : (t.records.length : Int) + 1 ≤
      (s.setFile .hashes ((t.add buf).bytes host)).lastId := by
    rw [BbState.lastId_setFile, hlast]
    omega
  have hwrite := Stores.writeHash_share_of_hashes
    (s := s.setFile .hashes ((t.add buf).bytes host)) (by simp) (hgrants.fopen _) hrecord
    (by simp) (by rw [BbState.lastId_setFile, hlast]; omega)
  rw [Record.new_data, generateHash_cString] at hwrite
  have hgenerate := generateBlock_hit hcompare hold
  rw [generateHash_append_nul, hwrite] at hgenerate
  exact ⟨_, writeBlocks_of_generateBlock hsize hgenerate, rfl, by simp⟩

/-! ## A block file without a line -/

theorem writeHash_behind (hgrants : host.Grants) (hashesfile : Bytes)
    (hhashes : s.file .hashes = some hashesfile) (hash : Bytes) :
    writeHash host s hash (s.lastId + 1) = .ok (s.setFile .hashes
      (hashesfile ++ (padDecimal 3 (s.lastId + 1) ++ [48, 49] ++ hash))) := by
  rw [writeHash, openFile, if_pos (hgrants.fopen _), hhashes]
  simp only [gt_iff_lt, show (s.lastId : Int) < s.lastId + 1 by omega, if_true, writeAt_end]
  rfl

theorem writeHash_beyond (hgrants : host.Grants) (hashesfile : Bytes)
    (hhashes : s.file .hashes = some hashesfile) (index : Nat) (hindex : index < s.lastId)
    (hlength : hashesfile.length ≤ 45 * index) (hash : Bytes) :
    writeHash host s hash ((index : Int) + 1) = .error .uninitialised := by
  have hold : ¬ (index : Int) + 1 > s.lastId := by omega
  have hseek : fseek 0 ((((index : Int) + 1) - 1) * lineTotalLength + idLength) =
      45 * index + 3 := by
    apply fseek_eq
    push_cast
    ring
  have hshort : (readAt hashesfile (45 * index + 3) pointersCounterLength).length ≠
      pointersCounterLength := by
    rw [readAt_length]
    simp only [pointersCounterLength]
    omega
  simp only [writeHash, openFile, hgrants.fopen, if_true, hhashes, if_neg hold, hseek]
  rw [if_pos hshort]

theorem nextId_length (t : Table) (hlt : t.records.length + 1 < 999) :
    (padDecimal 3 (t.records.length + 2)).length = idLength :=
  idText_length hlt

theorem firstCounter_length : ([48, 49] : Bytes).length = pointersCounterLength := rfl

def misplacedLine (host : Host) (t : Table) (hlt : t.records.length + 1 < 999) (buf : Bytes) :
    HashLine where
  id := padDecimal 3 (t.records.length + 2)
  counter := [48, 49]
  hash := generateHash host buf
  id_length := nextId_length t hlt
  counter_length := firstCounter_length
  hash_length := generateHash_length host buf

theorem wellFormed_hashLines (host : Host) (t : Table) :
    ∀ line ∈ t.hashLines host, line.WellFormed := by
  intro line hline
  obtain ⟨index, rfl⟩ := List.mem_ofFn.mp hline
  exact ⟨fun byte hbyte => isDigit_of_mem_padDecimal hbyte,
    fun byte hbyte => isDigit_of_mem_padDecimal hbyte, nulFree_generateHash host _⟩

theorem wellFormed_misplacedLine (host : Host) (t : Table) (hlt : t.records.length + 1 < 999)
    (buf : Bytes) : (misplacedLine host t hlt buf).WellFormed where
  id_digits := fun _ hbyte => isDigit_of_mem_padDecimal hbyte
  counter_digits := List.all_eq_true.mp rfl
  hash_nulFree := nulFree_generateHash host buf

theorem lookup_hashLines (hfind : t.find host buf = none) :
    HashLine.lookup (t.hashLines host) (generateHash host buf) = none := by
  refine List.find?_eq_none.mpr fun line hline => ?_
  obtain ⟨index, rfl⟩ := List.mem_ofFn.mp hline
  simp only [decide_eq_true_eq, not_and]
  intro hhash hcounter
  refine t.find_eq_none host hfind (List.getElem_mem index.isLt) (fun hzero => hcounter ?_) hhash
  exact congrArg (padDecimal 2) hzero

theorem compareHashes_misplaced (hgrants : host.Grants) (hfind : t.find host buf = none)
    (hlt : t.records.length + 1 < 999)
    (hhashes : s.file .hashes = some (t.bytes host ++ (misplacedLine host t hlt buf).bytes)) :
    compareHashes host s (generateHash host buf) =
      ((t.records.length : Int) + 2,
        s.setFile .hashes (t.bytes host ++ (misplacedLine host t hlt buf).bytes)) := by
  have hbytes : t.bytes host ++ (misplacedLine host t hlt buf).bytes =
      ((t.hashLines host ++ [misplacedLine host t hlt buf]).map HashLine.bytes).flatten := by
    rw [Table.bytes_eq, List.map_append, List.flatten_append]
    simp
  have hlines : ∀ line ∈ t.hashLines host ++ [misplacedLine host t hlt buf],
      line.WellFormed := by
    intro line hline
    rcases List.mem_append.mp hline with hold | hnew
    · exact wellFormed_hashLines host t line hold
    · rw [List.mem_singleton.mp hnew]
      exact wellFormed_misplacedLine host t hlt buf
  have hlookup : HashLine.lookup (t.hashLines host ++ [misplacedLine host t hlt buf])
      (generateHash host buf) = some (misplacedLine host t hlt buf) := by
    have hnone := lookup_hashLines hfind
    unfold HashLine.lookup at hnone ⊢
    rw [List.find?_append, hnone]
    simp [misplacedLine]
  rw [hbytes] at hhashes ⊢
  rw [compareHashes_eq_lookup (hgrants.fopen _) hlines hhashes, hlookup]
  simp only [misplacedLine, atoi_padDecimal, Nat.cast_add, Nat.cast_ofNat]

theorem writeBlocks_created (hgrants : host.Grants) (hsize : buf.length ≤ maxBlockSize)
    (hfind : t.find host buf = none) (hlt : t.records.length + 1 < 999)
    (hlast : s.lastId = t.records.length + 1) (hhashes : s.file .hashes = some (t.bytes host)) :
    ∃ s', writeBlocks host s buf = .ok (padDecimal 3 (t.records.length + 2), s') ∧
      s'.rootdir = s.rootdir ∧ s'.lastId = t.records.length + 2 ∧
      s'.file .hashes = some (t.bytes host ++ (misplacedLine host t hlt buf).bytes) ∧
      s'.file (blockOf (t.records.length + 1)) = some (cString buf) ∧
      ∀ index, index ≠ t.records.length + 1 →
        s'.file (blockOf index) = s.file (blockOf index) := by
  have hcompare : compareHashes host s (generateHash host (buf ++ [0])) =
      ((t.records.length : Int) + 2, s.setFile .hashes (t.bytes host)) := by
    simp only [compareHashes, hgrants.fopen, if_true, hhashes, Option.getD_some,
      generateHash_append_nul, Table.compareLoop_find, hfind, hlast, Nat.cast_add, Nat.cast_one,
      add_assoc, one_add_one_eq_two]
  have hnew : ¬ (t.records.length : Int) + 2 ≤ (s.setFile .hashes (t.bytes host)).lastId := by
    rw [BbState.lastId_setFile, hlast]
    omega
  have hwrite := writeHash_behind
    (s := (s.setFile .hashes (t.bytes host)).setFile (blockOf s.lastId) []) hgrants
    (t.bytes host) (by simp) (generateHash host (buf ++ [0]))
  have hgenerate := generateBlock_miss hcompare hnew (hgrants.fopen _) hwrite
  simp only [BbState.lastId_setFile, generateHash_append_nul, cString_append_nul, hlast]
    at hgenerate
  have hwrites := writeBlocks_of_generateBlock hsize hgenerate
  refine ⟨_, hwrites, rfl, rfl, ?_, ?_, fun index hindex => ?_⟩
  · simp [misplacedLine, HashLine.bytes]
  · simp
  · have hne : blockOf index ≠ blockOf (t.records.length + 1) :=
      fun heq => hindex (blockOf_inj.mp heq)
    simp [hne]

theorem writeBlocks_misplaced (hgrants : host.Grants) (hsize : buf.length ≤ maxBlockSize)
    (hfind : t.find host buf = none) (hlt : t.records.length + 1 < 999)
    (hlast : s.lastId = t.records.length + 2)
    (hhashes : s.file .hashes = some (t.bytes host ++ (misplacedLine host t hlt buf).bytes)) :
    writeBlocks host s buf = .error .uninitialised := by
  have hcompare := compareHashes_misplaced hgrants hfind hlt hhashes
  rw [← generateHash_append_nul] at hcompare
  have hold : (t.records.length : Int) + 2 ≤ (s.setFile .hashes
      (t.bytes host ++ (misplacedLine host t hlt buf).bytes)).lastId := by
    rw [BbState.lastId_setFile, hlast]
    omega
  have hid : (t.records.length : Int) + 2 = ((t.records.length + 1 : Nat) : Int) + 1 := by
    push_cast
    ring
  have hwrite := writeHash_beyond
    (s := s.setFile .hashes (t.bytes host ++ (misplacedLine host t hlt buf).bytes)) hgrants
    (t.bytes host ++ (misplacedLine host t hlt buf).bytes) (by simp) (t.records.length + 1)
    (by rw [BbState.lastId_setFile, hlast]; omega)
    (by rw [List.length_append, Table.bytes_length, HashLine.bytes_length]; omega)
    (generateHash host (buf ++ [0]))
  have hgenerate := generateBlock_hit hcompare hold
  rw [hid, hwrite] at hgenerate
  rw [writeBlocks, if_neg (by omega)]
  simp only [hgenerate]
  rfl

end

/-! ## Stops in a session -/

variable {t : Table} {buf : Bytes} {steps : Nat}

theorem Stores.find_eq_none (h : Stores host s t) (hgrants : host.Grants)
    (hnew : s.lastId < (Bbfs.compareHashes host s (generateHash host buf)).1) :
    t.find host buf = none := by
  rw [h.compareHashes (hgrants.fopen _) buf, h.lastId_eq, Table.store] at hnew
  cases hfind : t.find host buf with
  | none => rfl
  | some index =>
      obtain ⟨record, hrecord, -⟩ := t.find_eq_some host hfind
      have hindex := Table.index_lt hrecord
      simp only [hfind] at hnew
      omega

end

/--
A write that is stopped between its line and its block cannot be tried again: the next
write of the block is answered as done, and what every path then reads is as if the
empty block had been written.
-/
theorem stop_forgets (sha1 : Bytes → Vector UInt8 20) (events : List Event)
    (hinj : Set.InjOn sha1 (handedOver events))
    (hrun : Along (serveEvent (.granting sha1)) (Resumable (.granting sha1)) freshMount events)
    {s : BbState} (hok : run (serveEvent (.granting sha1)) freshMount events = .ok s)
    {buf : Bytes} {steps : Nat} (hsize : buf.length ≤ maxBlockSize) (hlimit : s.lastId < 999)
    (hwhole : s.Whole)
    (hnew : s.lastId < (compareHashes (.granting sha1) s (generateHash (.granting sha1) buf)).1)
    (hlow : 3 ≤ steps) (hhigh : steps ≤ 4) :
    ∃ s', serveEvent (.granting sha1) s (.stop buf steps) = .ok s' ∧
      ∀ path offset blocks, events.foldl PathMap.serveEvent .empty path = some blocks →
        offset / bbfsMaxBlockSize ≤ blocks.length →
          ∃ s'', serve (.granting sha1) s' (.write path buf offset) = .ok s'' ∧
            ∀ other, readFile (.granting sha1) s'' other =
              .ok ((Function.update (events.foldl PathMap.serveEvent PathMap.empty) path
                (some (putSlot blocks (offset / bbfsMaxBlockSize) [])) other).map
                  List.flatten) := by
  have hgrants := Host.granting_grants sha1
  obtain ⟨s₀, hok₀, hcarries⟩ := session_carries hgrants hinj subset_rfl hrun
  obtain rfl := Except.ok.inj (hok₀.symm.trans hok)
  have ⟨htidy, m, hs, _⟩ := hcarries
  have hlast := hs.stores.lastId_eq
  have hlt : m.table.records.length < 999 := hlast ▸ hlimit
  have hfind := hs.stores.find_eq_none hgrants hnew
  have hroom : m.table.HasRoom (.granting sha1) buf := by
    simpa only [Table.HasRoom, hfind] using hlt
  obtain ⟨stopped, hstop, htouched, hempty, hhashes⟩ :=
    hs.stores.stoppedWrite_between hgrants hsize hroom hfind (by omega) hhigh
  rw [if_neg (by omega)] at hhashes
  have hmount : mount stopped = stopped.setLastId (m.table.records.length + 1) := by
    rw [htidy.mount_touched htouched hwhole, hs.stores.nextLastId_of_made hempty]
  refine ⟨mount stopped, by rw [serveEvent, hstop]; rfl, ?_⟩
  rw [hmount]
  intro path offset blocks hpath hslot
  obtain ⟨inode, hresolve⟩ := hcarries.resolve hpath
  obtain ⟨written, hwrite, hrootdir, hblock⟩ := writeBlocks_forgotten
    (s := stopped.setLastId (m.table.records.length + 1)) hgrants hsize hfind hlt rfl hhashes
  have hserve := serve_write_eq (by rw [BbState.rootdir_setLastId, htouched.rootdir_eq, hresolve])
    hwrite offset
  refine ⟨_, hserve, fun other => ?_⟩
  refine hcarries.readFile_puts hgrants (Puts.of_written hresolve ?_ ?_ ?_) hpath hslot hlast.le
    hlt ⟨nulFree_nil, by simp⟩ other
  · rw [hrootdir, BbState.rootdir_setLastId, htouched.rootdir_eq]
  · intro index hindex
    rw [hblock, BbState.file_setLastId]
    exact htouched.file_eq _ (by simp) fun heq => hindex.ne (blockOf_inj.mp heq)
  · rw [hblock, BbState.file_setLastId, hempty]

def retriedSession : List Event :=
  [.request (.mknod "a"), .request (.write "a" [97] 0)]

theorem handedOver_retriedSession : handedOver retriedSession ⊆ {[97], [98]} := by
  rintro content (⟨path, buf, offset, hmem, rfl⟩ | ⟨buf, steps, hmem, rfl⟩)
  · simp only [retriedSession, List.mem_cons, Event.request.injEq, Request.write.injEq,
      List.not_mem_nil, reduceCtorEq, false_or, or_false] at hmem
    obtain ⟨-, rfl, -⟩ := hmem
    decide
  · simp [retriedSession] at hmem

theorem run_retriedSession :
    ∃ s, run (serveEvent (.granting sampleSha1)) freshMount retriedSession = .ok s ∧
      s.lastId + 1 < 999 ∧ s.Whole ∧ (s.lastId : Int) <
        (compareHashes (.granting sampleSha1) s (generateHash (.granting sampleSha1) [98])).1 := by
  decide +kernel

theorem stop_forgets_retriedSession :
    ∃ s s' s'', run (serveEvent (.granting sampleSha1)) freshMount retriedSession = .ok s ∧
      serveEvent (.granting sampleSha1) s (.stop [98] 3) = .ok s' ∧
      serve (.granting sampleSha1) s' (.write "a" [98] 4069) = .ok s'' ∧
      readFile (.granting sampleSha1) s'' "a" = .ok (some [97]) := by
  obtain ⟨s, hok, hlimit, hwhole, hnew⟩ := run_retriedSession
  obtain ⟨s', hstop, hwrites⟩ := stop_forgets sampleSha1 retriedSession
    (sampleSha1_injOn.mono handedOver_retriedSession) (by decide +kernel) hok (by decide)
    (by omega) hwhole hnew (le_refl 3) (by decide)
  obtain ⟨s'', hserve, hread⟩ := hwrites "a" 4069 [[97]] rfl (by decide)
  exact ⟨s, s', s'', hok, hstop, hserve, hread "a"⟩

end Ece318.Bbfs
