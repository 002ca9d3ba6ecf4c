import Ece318.Bbfs.DeleteSpec
import Ece318.Bbfs.Operations

/-!
# The store without its bytes

A `Ledger` keeps what the three kinds of files say: the records of the hashes
file, and for every pointers file the records its slots name.  `serve` on the
disk simulates `Ledger.serve` as long as the requests are orderly: writes
append or overwrite a slot, truncations are to 0, and neither an id nor a
counter runs out of digits.
-/

namespace Ece318.Bbfs

open Ece318.Foundation

/-! ## Orderly requests -/

def BbState.field (s : BbState) (id offset count : Nat) : Bytes :=
  readAt ((s.file .hashes).getD []) (45 * (id - 1) + offset) count

def BbState.idField (s : BbState) (id : Nat) : Bytes := s.field id 0 3

def BbState.counterField (s : BbState) (id : Nat) : Bytes := s.field id 3 2

def BbState.hashField (s : BbState) (id : Nat) : Bytes := s.field id 5 40

section

variable (host : Host) (s : BbState)

/-- After a write of `buf`, `last_id` is at most 999 and the counters at most 99. -/
def WithinLimits (buf : Bytes) : Prop :=
  if (compareHashes host s (generateHash host buf)).1 ≤ s.lastId then
    atoi (s.counterField (compareHashes host s (generateHash host buf)).1.toNat) < 99
  else s.lastId < 999

instance (buf : Bytes) : Decidable (WithinLimits host s buf) := by
  unfold WithinLimits
  infer_instance

def Orderly : Request → Prop
  | .write path buf offset =>
      match s.rootdir.resolve path with
      | .error _ => True
      | .ok fh =>
          buf.length ≤ maxBlockSize ∧ WithinLimits host s buf ∧
            offset / bbfsMaxBlockSize * idLength ≤ (s.rootdir.data fh).length
  | .truncate _ newsize => newsize = 0
  | .unlink path => (s.rootdir.resolve path).isOk = true
  | .mknod _ | .rename _ _ | .link _ _ | .symlink _ _ => True

instance (request : Request) : Decidable (Orderly host s request) :=
  match request with
  | .write path buf offset =>
      match hpath : s.rootdir.resolve path with
      | .error _ => .isTrue (by simp only [Orderly, hpath])
      | .ok fh => decidable_of_iff (buf.length ≤ maxBlockSize ∧ WithinLimits host s buf ∧
            offset / bbfsMaxBlockSize * idLength ≤ (s.rootdir.data fh).length)
          (by simp only [Orderly, hpath])
  | .truncate _ newsize => inferInstanceAs (Decidable (newsize = 0))
  | .unlink path => inferInstanceAs (Decidable ((s.rootdir.resolve path).isOk = true))
  | .mknod _ | .rename _ _ | .link _ _ | .symlink _ _ => .isTrue trivial

end

section

variable {host : Host} {s : BbState} {t : Table} {index : Nat} {record : Record}

namespace Stores

theorem idField (h : Stores host s t) (hrecord : t.records[index]? = some record) :
    s.idField (index + 1) = padDecimal 3 (index + 1) := by
  rw [BbState.idField, BbState.field, h.hashes_eq]
  exact Table.readAt_id host hrecord

theorem counterField (h : Stores host s t) (hrecord : t.records[index]? = some record) :
    s.counterField (index + 1) = padDecimal 2 record.count := by
  rw [BbState.counterField, BbState.field, h.hashes_eq]
  exact Table.readAt_counter host hrecord

theorem counterField_count (h : Stores host s t) (hindex : index < t.records.length) :
    s.counterField (index + 1) = padDecimal 2 (t.count index) := by
  have hrecord := List.getElem?_eq_getElem hindex
  rw [h.counterField hrecord, Table.count_eq hrecord]

theorem hashField (h : Stores host s t) (hrecord : t.records[index]? = some record) :
    s.hashField (index + 1) = generateHash host record.data := by
  rw [BbState.hashField, BbState.field, h.hashes_eq]
  exact Table.readAt_hash host hrecord

theorem withinLimits_iff (h : Stores host s t) (hgrants : host.Grants) (buf : Bytes) :
    WithinLimits host s buf ↔ t.HasRoom host buf := by
  rw [WithinLimits, h.compareHashes (hgrants.fopen _) buf, h.lastId_eq, Table.HasRoom,
    Table.store]
  cases hfind : t.find host buf with
  | none => simp
  | some index =>
      obtain ⟨record, hrecord, -⟩ := t.find_eq_some host hfind
      have hindex := Table.index_lt hrecord
      have hcounter := h.counterField hrecord
      have hnat : ((index : Int) + 1).toNat = index + 1 := by omega
      rw [if_pos (by simp only; omega)]
      simp only [hnat, hcounter, atoi_padDecimal, hrecord, Option.some.injEq,
        forall_eq']
      omega

end Stores

end

/-! ## The ledger -/

structure Ledger where
  table : Table
  rootdir : FileSystem Path (List Nat)

namespace Ledger

def initial : Ledger := ⟨Table.empty, FileSystem.empty []⟩

variable (host : Host) (m : Ledger)

def logSyscall (result : Except Errno (FileSystem Path (List Nat))) : Ledger :=
  match result with
  | .ok rootdir => { m with rootdir := rootdir }
  | .error _ => m

def setPointers (inode : Nat) (indices : List Nat) : Ledger :=
  { m with rootdir := m.rootdir.write inode indices }

def write (path : Path) (buf : Bytes) (slot : Nat) : Ledger :=
  match m.rootdir.resolve path with
  | .error _ => m
  | .ok inode =>
      { table := (m.table.store host buf).2
        rootdir := m.rootdir.write inode
          (putSlot (m.rootdir.data inode) slot (m.table.store host buf).1) }

def truncate (path : Path) : Ledger :=
  match m.rootdir.resolve path with
  | .error _ => m
  | .ok inode => m.setPointers inode []

def seen (inode : Nat) : List Nat :=
  (m.rootdir.data inode).take
    (Table.reached (m.rootdir.data inode).length m.table 0 (m.rootdir.data inode))

def deleteBlocks (path : Path) : Ledger :=
  match m.rootdir.resolve path with
  | .error _ => m
  | .ok inode =>
      { table := m.table.releaseAll (m.seen inode)
        rootdir :=
          if m.table.frees (m.rootdir.data inode) then m.rootdir.write inode []
          else m.rootdir }

def serve : Request → Ledger
  | .mknod path => m.logSyscall (m.rootdir.create path [])
  | .write path buf offset => m.write host path buf (offset / bbfsMaxBlockSize)
  | .truncate path _ => m.truncate path
  | .rename path newpath => m.logSyscall (m.rootdir.rename path newpath)
  | .unlink path =>
      (m.deleteBlocks path).logSyscall ((m.deleteBlocks path).rootdir.unlink path)
  | .link path newpath => m.logSyscall (m.rootdir.link path newpath)
  | .symlink path link => m.logSyscall (m.rootdir.symlink path link [])

section

variable {host} {m} {path : Path} {errno : Errno} {inode : Nat}

theorem serve_write_of_error (h : m.rootdir.resolve path = .error errno) (buf : Bytes)
    (offset : Nat) : m.serve host (.write path buf offset) = m := by
  simp only [serve, write, h]

theorem serve_write_of_resolve (h : m.rootdir.resolve path = .ok inode) (buf : Bytes)
    (offset : Nat) :
    m.serve host (.write path buf offset) =
      { table := (m.table.store host buf).2
        rootdir := m.rootdir.write inode (putSlot (m.rootdir.data inode)
          (offset / bbfsMaxBlockSize) (m.table.store host buf).1) } := by
  simp only [serve, write, h]

theorem serve_truncate_of_error (h : m.rootdir.resolve path = .error errno) (newsize : Nat) :
    m.serve host (.truncate path newsize) = m := by
  simp only [serve, truncate, h]

theorem serve_truncate_of_resolve (h : m.rootdir.resolve path = .ok inode) (newsize : Nat) :
    m.serve host (.truncate path newsize) = m.setPointers inode [] := by
  simp only [serve, truncate, h]

theorem deleteBlocks_of_error (h : m.rootdir.resolve path = .error errno) :
    m.deleteBlocks path = m := by
  rw [deleteBlocks, h]

theorem deleteBlocks_of_resolve (h : m.rootdir.resolve path = .ok inode) :
    m.deleteBlocks path =
      { table := m.table.releaseAll (m.seen inode)
        rootdir :=
          if m.table.frees (m.rootdir.data inode) then m.rootdir.write inode []
          else m.rootdir } := by
  rw [deleteBlocks, h]

end

end Ledger

/-! ## The disk simulates the ledger -/

structure Represents (host : Host) (s : BbState) (m : Ledger) : Prop where
  stores : Stores host s m.table
  rootdir_eq : s.rootdir = m.rootdir.map pointerBytes
  valid : ∀ inode, m.table.Valid (m.rootdir.data inode)

namespace Table

variable {t : Table}

theorem valid_nil (t : Table) : t.Valid [] := by simp [Valid]

theorem Valid.mono {t' : Table} {indices : List Nat} (h : t.Valid indices)
    (hle : t.records.length ≤ t'.records.length) : t'.Valid indices :=
  fun index hindex => (h index hindex).trans_le hle

theorem store_length_le (host : Host) (t : Table) (buf : Bytes) :
    t.records.length ≤ (t.store host buf).2.records.length := by
  unfold store add
  split
  · simp
  · split <;> simp

theorem store_lt (host : Host) {buf : Bytes} (hroom : t.HasRoom host buf) :
    (t.store host buf).1 < (t.store host buf).2.records.length := by
  unfold HasRoom at hroom
  unfold store
  cases hfind : t.find host buf with
  | some index =>
      obtain ⟨record, hrecord, -⟩ := t.find_eq_some host hfind
      simpa using index_lt hrecord
  | none =>
      simp only [hfind] at hroom
      simp [add_records t hroom]

end Table

namespace Represents

variable {host : Host} {s : BbState} {m : Ledger}

theorem resolve_eq (h : Represents host s m) (path : Path) :
    s.rootdir.resolve path = m.rootdir.resolve path := by
  rw [h.rootdir_eq, FileSystem.resolve_map]

theorem data_eq (h : Represents host s m) (inode : Nat) :
    s.rootdir.data inode = pointerBytes (m.rootdir.data inode) := by
  rw [h.rootdir_eq, FileSystem.data_map]

theorem data_length (h : Represents host s m) (inode : Nat) :
    (s.rootdir.data inode).length = 3 * (m.rootdir.data inode).length := by
  rw [h.data_eq, (h.valid inode).length]

theorem setPointers (h : Represents host s m) (inode : Nat) {indices : List Nat}
    (hvalid : m.table.Valid indices) :
    Represents host (s.setPointers inode (pointerBytes indices))
      (m.setPointers inode indices) where
  stores := h.stores.setPointers inode _
  rootdir_eq := by
    rw [BbState.rootdir_setPointers, h.rootdir_eq, ← FileSystem.map_write]
    rfl
  valid := by
    intro other
    by_cases heq : other = inode
    · subst other
      simpa [Ledger.setPointers] using hvalid
    · simpa [Ledger.setPointers, Function.update_of_ne heq] using h.valid other

theorem logSyscall (h : Represents host s m)
    {result : Except Errno (FileSystem Path (List Nat))}
    (hvalid : ∀ rootdir, result = .ok rootdir → ∀ inode,
      m.table.Valid (rootdir.data inode)) :
    Represents host
      (Bbfs.logSyscall s (result.map (FileSystem.map pointerBytes))).2
      (m.logSyscall result) := by
  cases result with
  | error errno => exact h
  | ok rootdir => exact ⟨h.stores.setRootdir _, rfl, hvalid rootdir rfl⟩

theorem valid_of_data (h : Represents host s m) {inode : Nat} {indices : List Nat}
    (hdata : indices = [] ∨ indices = m.rootdir.data inode) : m.table.Valid indices := by
  rcases hdata with rfl | rfl
  · exact m.table.valid_nil
  · exact h.valid inode

theorem create (h : Represents host s m) (path : Path) :
    Represents host (bbMknod s path).2 (m.serve host (.mknod path)) := by
  rw [bbMknod, h.rootdir_eq, ← pointerBytes_nil, FileSystem.create_map]
  exact h.logSyscall fun rootdir hok inode =>
    h.valid_of_data (FileSystem.data_of_create hok inode)

theorem symlink (h : Represents host s m) (path link : Path) :
    Represents host (bbSymlink s path link).2 (m.serve host (.symlink path link)) := by
  rw [bbSymlink, h.rootdir_eq, ← pointerBytes_nil, FileSystem.symlink_map]
  exact h.logSyscall fun rootdir hok inode =>
    h.valid_of_data (FileSystem.data_of_symlink hok inode)

theorem rename (h : Represents host s m) (path newpath : Path) :
    Represents host (bbRename s path newpath).2 (m.serve host (.rename path newpath)) := by
  rw [bbRename, h.rootdir_eq, FileSystem.rename_map]
  refine h.logSyscall fun rootdir hok inode => ?_
  rw [(FileSystem.linked_rename_subset hok).2]
  exact h.valid inode

theorem link (h : Represents host s m) (path newpath : Path) :
    Represents host (bbLink s path newpath).2 (m.serve host (.link path newpath)) := by
  rw [bbLink, h.rootdir_eq, FileSystem.link_map]
  refine h.logSyscall fun rootdir hok inode => ?_
  rw [FileSystem.data_of_link hok]
  exact h.valid inode

theorem truncate (h : Represents host s m) (path : Path) :
    Represents host (bbTruncate s path 0).2 (m.serve host (.truncate path 0)) := by
  rw [bbTruncate, h.resolve_eq]
  cases hpath : m.rootdir.resolve path with
  | error errno =>
      rw [Ledger.serve_truncate_of_error hpath]
      exact h
  | ok inode =>
      rw [Ledger.serve_truncate_of_resolve hpath]
      simp only [resize_zero]
      exact h.setPointers inode m.table.valid_nil

theorem write (h : Represents host s m) (hgrants : host.Grants) {path : Path} {buf : Bytes}
    {offset : Nat} (horderly : Orderly host s (.write path buf offset)) :
    ∃ s', Bbfs.serve host s (.write path buf offset) = .ok s' ∧
      Represents host s' (m.serve host (.write path buf offset)) := by
  have hledger := (h.resolve_eq path).symm
  cases hpath : s.rootdir.resolve path with
  | error errno =>
      rw [Ledger.serve_write_of_error (hledger.trans hpath)]
      exact ⟨s, by simp only [Bbfs.serve, hpath], h⟩
  | ok inode =>
      simp only [Orderly, hpath] at horderly
      obtain ⟨hsize, hlimits, hslot⟩ := horderly
      have hroom := (h.stores.withinLimits_iff hgrants buf).mp hlimits
      obtain ⟨s', hwrite, hstores, hrootdir⟩ := h.stores.writeBlocks hgrants hsize hroom
      have hlt := Table.store_lt host hroom
      have hwidth := idText_length (hlt.trans_le (m.table.store host buf).2.length_le)
      have hvalid : ∀ other, (m.table.store host buf).2.Valid (m.rootdir.data other) :=
        fun other => (h.valid other).mono (Table.store_length_le host _ buf)
      have hput : writeAt (s'.rootdir.data inode)
          (padDecimal 3 ((m.table.store host buf).1 + 1))
          (offset / bbfsMaxBlockSize * idLength) =
          pointerBytes (putSlot (m.rootdir.data inode) (offset / bbfsMaxBlockSize)
            (m.table.store host buf).1) := by
        have hle : offset / bbfsMaxBlockSize ≤ (m.rootdir.data inode).length := by
          rw [h.data_length] at hslot
          simp only [idLength] at hslot
          omega
        rw [hrootdir, h.data_eq, pointerBytes, pointerBytes, putSlot_map, Nat.mul_comm]
        exact writeAt_putSlot (h.valid inode).uniform (by simpa using hle) hwidth (by omega)
      have hnew : Represents host s' ⟨(m.table.store host buf).2, m.rootdir⟩ :=
        ⟨hstores, hrootdir.trans h.rootdir_eq, hvalid⟩
      refine ⟨_, serve_write_eq hpath hwrite offset, ?_⟩
      rw [Ledger.serve_write_of_resolve (hledger.trans hpath), hput]
      refine hnew.setPointers inode fun index hindex => ?_
      rcases mem_putSlot hindex with hold | rfl
      · exact hvalid inode index hold
      · exact hlt

theorem deleteBlocks (h : Represents host s m) (hgrants : host.Grants) {path : Path}
    {inode : Nat} (hpath : m.rootdir.resolve path = .ok inode) :
    ∃ s', Bbfs.deleteBlocks host s path = .ok s' ∧
      Represents host s' (m.deleteBlocks path) := by
  obtain ⟨s', hrun, hstores, hrootdir⟩ := h.stores.deleteBlocks hgrants
    ((h.resolve_eq path).trans hpath) (h.valid inode) (h.data_eq inode)
  have hvalid : ∀ other, (m.table.releaseAll (m.seen inode)).Valid (m.rootdir.data other) :=
    fun other => (h.valid other).mono (by simp)
  have hkept : Represents host { s' with rootdir := s.rootdir }
      ⟨m.table.releaseAll (m.seen inode), m.rootdir⟩ :=
    ⟨hstores.setRootdir _, h.rootdir_eq, hvalid⟩
  refine ⟨s', hrun, ?_⟩
  rw [Ledger.deleteBlocks_of_resolve hpath]
  by_cases hfrees : m.table.frees (m.rootdir.data inode) = true
  · -- a counter has reached 0, and the file has lost all its slots
    have hemptied := hkept.setPointers inode (Table.valid_nil _)
    simp only [hfrees, if_true] at hrootdir ⊢
    exact ⟨hstores, hrootdir.trans hemptied.rootdir_eq, hemptied.valid⟩
  · simp only [hfrees] at hrootdir ⊢
    exact ⟨hstores, hrootdir.trans h.rootdir_eq, hvalid⟩

theorem unlink (h : Represents host s m) (hgrants : host.Grants) {path : Path}
    {inode : Nat} (hpath : m.rootdir.resolve path = .ok inode) :
    ∃ s', Bbfs.serve host s (.unlink path) = .ok s' ∧
      Represents host s' (m.serve host (.unlink path)) := by
  obtain ⟨s', hrun, hdeleted⟩ := h.deleteBlocks hgrants hpath
  refine ⟨_, serve_unlink_eq hrun, ?_⟩
  rw [if_pos hgrants.unlink, hdeleted.rootdir_eq, FileSystem.unlink_map]
  refine hdeleted.logSyscall fun rootdir hok other => ?_
  rw [FileSystem.data_of_unlink hok]
  exact hdeleted.valid other

/-- Every orderly request on the disk is the request on the ledger. -/
theorem serve (h : Represents host s m) (hgrants : host.Grants) {request : Request}
    (horderly : Orderly host s request) :
    ∃ s', Bbfs.serve host s request = .ok s' ∧
      Represents host s' (m.serve host request) := by
  cases request with
  | mknod path => exact ⟨_, rfl, h.create path⟩
  | write path buf offset => exact h.write hgrants horderly
  | truncate path newsize =>
      have hzero : newsize = 0 := horderly
      subst newsize
      exact ⟨_, rfl, h.truncate path⟩
  | rename path newpath => exact ⟨_, rfl, h.rename path newpath⟩
  | unlink path =>
      cases hpath : s.rootdir.resolve path with
      | error errno => simp [Orderly, hpath, Except.isOk, Except.toBool] at horderly
      | ok inode => exact h.unlink hgrants ((h.resolve_eq path).symm.trans hpath)
  | link path newpath => exact ⟨_, rfl, h.link path newpath⟩
  | symlink path link => exact ⟨_, rfl, h.symlink path link⟩

end Represents

theorem stores_freshMount (host : Host) : Stores host freshMount .empty where
  lastId_eq := rfl
  hashes_eq := rfl
  hashes_exists := fun h => absurd rfl h
  block_eq := by simp [Table.empty]
  block_only := by simp [freshMount, mount, BbState.setLastId, BbState.file]

theorem represents_freshMount (host : Host) : Represents host freshMount .initial where
  stores := stores_freshMount host
  rootdir_eq := rfl
  valid := fun _ => Table.valid_nil _

end Ece318.Bbfs
