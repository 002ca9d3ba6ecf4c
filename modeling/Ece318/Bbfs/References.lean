import Ece318.Bbfs.Ledger

/-!
# References and counters

`references index` counts the slots that name a record, over all files that
still have a name.  A counter covers its references as long as `unlink` is not
asked to remove one of several names of a file that holds blocks.  It is exact
as long as, besides, nothing but `unlink` takes a reference away.
-/

namespace Ece318.Bbfs

open Ece318.Foundation

namespace Table

variable {host : Host} {t : Table}

theorem count_share {index : Nat} {record : Record}
    (hrecord : t.records[index]? = some record) (hroom : record.count < 99) (other : Nat) :
    (t.share index).count other = t.count other + if index = other then 1 else 0 := by
  rw [count, count, share_records, List.getElem?_modify]
  by_cases heq : index = other
  · subst other
    simp [hrecord, Record.share_count _ hroom]
  · cases t.records[other]? <;> simp [heq]

theorem count_add {data : Bytes} (hroom : t.records.length < 999) (other : Nat) :
    (t.add data).count other =
      t.count other + if t.records.length = other then 1 else 0 := by
  rw [count, count, add_records t hroom]
  rcases Nat.lt_trichotomy other t.records.length with hlt | rfl | hgt
  · rw [List.getElem?_append_left hlt, if_neg hlt.ne', Nat.add_zero]
  · simp
  · rw [List.getElem?_eq_none (by simp; omega), List.getElem?_eq_none hgt.le, if_neg hgt.ne]

theorem count_store {buf : Bytes} (hroom : t.HasRoom host buf) (other : Nat) :
    (t.store host buf).2.count other =
      t.count other + if (t.store host buf).1 = other then 1 else 0 := by
  unfold HasRoom at hroom
  unfold store
  cases hfind : t.find host buf with
  | some index =>
      obtain ⟨record, hrecord, -⟩ := t.find_eq_some host hfind
      simp only [hfind] at hroom
      exact count_share hrecord (hroom record hrecord) other
  | none =>
      simp only [hfind] at hroom
      exact count_add hroom other

end Table

namespace Ledger

variable {host : Host} {m : Ledger}

/-- What `Orderly` says about the ledger. -/
def Admits (host : Host) (m : Ledger) : Request → Prop
  | .write path buf offset => ∀ inode, m.rootdir.resolve path = .ok inode →
      buf.length ≤ maxBlockSize ∧ m.table.HasRoom host buf ∧
        offset / bbfsMaxBlockSize ≤ (m.rootdir.data inode).length
  | _ => True

theorem Admits.of_orderly {s : BbState} (h : Represents host s m) (hgrants : host.Grants)
    {request : Request} (horderly : Orderly host s request) : m.Admits host request := by
  cases request with
  | write path buf offset =>
      intro inode hpath
      simp only [Orderly, h.resolve_eq, hpath] at horderly
      obtain ⟨hsize, hlimits, hslot⟩ := horderly
      refine ⟨hsize, (h.stores.withinLimits_iff hgrants buf).mp hlimits, ?_⟩
      rw [h.data_length] at hslot
      simp only [idLength] at hslot
      omega
  | _ => trivial

def references (m : Ledger) (index : Nat) : Nat := m.rootdir.total (List.count index)

def Covered (m : Ledger) : Prop := ∀ index, m.references index ≤ m.table.count index

def Exact (m : Ledger) : Prop := ∀ index, m.references index = m.table.count index

theorem exact_initial : initial.Exact := by
  intro index
  simp [references, initial, Table.count, Table.empty]

theorem Exact.covered (h : m.Exact) : m.Covered := fun index => (h index).le

/-! ## What a request does to the references -/

theorem linked_of_resolve {path : Path} {inode : Nat}
    (h : m.rootdir.resolve path = .ok inode) : inode ∈ m.rootdir.linked :=
  FileSystem.mem_linked.mpr (FileSystem.follow_lt m.rootdir h).2

theorem references_setPointers {inode : Nat} (h : inode ∈ m.rootdir.linked)
    (indices : List Nat) (index : Nat) :
    (m.setPointers inode indices).references index + (m.rootdir.data inode).count index =
      m.references index + indices.count index :=
  FileSystem.total_write (List.count index) indices h

theorem references_logSyscall
    {result : Except Errno (FileSystem Path (List Nat))} {index : Nat}
    (h : ∀ rootdir, result = .ok rootdir →
      rootdir.total (List.count index) ≤ m.references index) :
    (m.logSyscall result).references index ≤ m.references index := by
  cases result with
  | error errno => exact le_rfl
  | ok rootdir => exact h rootdir rfl

@[simp] theorem table_logSyscall (result : Except Errno (FileSystem Path (List Nat))) :
    (m.logSyscall result).table = m.table := by
  cases result <;> rfl

theorem references_mknod (host : Host) (path : Path) (index : Nat) :
    (m.serve host (.mknod path)).references index = m.references index := by
  simp only [serve, FileSystem.create]
  cases hpath : m.rootdir.lookup path with
  | some node => rfl
  | none => exact FileSystem.total_insertNew (List.count index) path [] hpath

theorem references_symlink (host : Host) (path link : Path) (index : Nat) :
    (m.serve host (.symlink path link)).references index = m.references index := by
  simp only [serve, FileSystem.symlink]
  cases hlink : m.rootdir.lookup link with
  | some node => rfl
  | none => exact FileSystem.total_insertNew_symlink (List.count index) link path [] hlink

theorem references_link (host : Host) (path newpath : Path) (index : Nat) :
    (m.serve host (.link path newpath)).references index ≤ m.references index := by
  refine references_logSyscall fun rootdir hok => ?_
  unfold FileSystem.link at hok
  split at hok
  · contradiction
  · rename_i node hpath
    split at hok
    · contradiction
    · cases hok
      exact FileSystem.total_le_of_linked _
        (FileSystem.linked_insertOld_subset hpath (m.rootdir.lookup_lt hpath)) rfl

theorem references_rename (host : Host) (path newpath : Path) (index : Nat) :
    (m.serve host (.rename path newpath)).references index ≤ m.references index := by
  refine references_logSyscall fun rootdir hok => ?_
  obtain ⟨hlinked, hdata⟩ := FileSystem.linked_rename_subset hok
  exact FileSystem.total_le_of_linked _ hlinked hdata

theorem references_write (host : Host) {path : Path} (buf : Bytes) {offset inode : Nat}
    (hpath : m.rootdir.resolve path = .ok inode)
    (hslot : offset / bbfsMaxBlockSize ≤ (m.rootdir.data inode).length) (index : Nat) :
    (m.serve host (.write path buf offset)).references index +
        (if (m.rootdir.data inode)[offset / bbfsMaxBlockSize]? = some index then 1 else 0) =
      m.references index + if (m.table.store host buf).1 = index then 1 else 0 := by
  have hput := count_putSlot (m.table.store host buf).1 index hslot
  have htotal := m.references_setPointers (linked_of_resolve hpath)
    (putSlot (m.rootdir.data inode) (offset / bbfsMaxBlockSize) (m.table.store host buf).1)
    index
  have hserve : (m.serve host (.write path buf offset)).references index =
      (m.setPointers inode (putSlot (m.rootdir.data inode) (offset / bbfsMaxBlockSize)
        (m.table.store host buf).1)).references index := by
    rw [serve_write_of_resolve hpath]
    rfl
  omega

theorem table_write {path : Path} {buf : Bytes} {offset inode : Nat}
    (hpath : m.rootdir.resolve path = .ok inode) :
    (m.serve host (.write path buf offset)).table = (m.table.store host buf).2 := by
  rw [serve_write_of_resolve hpath]

/-! ## `unlink` -/

theorem deleteBlocks_nil {path : Path} {inode : Nat}
    (hpath : m.rootdir.resolve path = .ok inode) (hnil : m.rootdir.data inode = []) :
    m.deleteBlocks path = m := by
  rw [deleteBlocks_of_resolve hpath, seen, hnil]
  rfl

theorem references_unlink (host : Host) {path : Path} {inode : Nat}
    (hname : m.rootdir.IsOnlyName path inode) (index : Nat) :
    (m.serve host (.unlink path)).references index + (m.rootdir.data inode).count index =
      m.references index := by
  have hlookup := (hname path).mpr rfl
  have hpath := FileSystem.resolve_file _ hlookup
  have herase := FileSystem.total_erase (List.count index) hname
  have hwrite := FileSystem.total_erase_write (List.count index) hname []
  rw [references, serve, deleteBlocks_of_resolve hpath]
  split
  · simp only [FileSystem.unlink, FileSystem.lookup_write, hlookup, logSyscall, hwrite]
    exact herase
  · simp only [FileSystem.unlink, hlookup, logSyscall]
    exact herase

theorem table_unlink {path : Path} {inode : Nat}
    (hpath : m.rootdir.resolve path = .ok inode) :
    (m.serve host (.unlink path)).table = m.table.releaseAll (m.seen inode) := by
  rw [serve, table_logSyscall, deleteBlocks_of_resolve hpath]

theorem count_seen_le (inode index : Nat) :
    (m.seen inode).count index ≤ (m.rootdir.data inode).count index :=
  (List.take_sublist _ _).count_le _

/-! ## Counters cover the references -/

def Releases (m : Ledger) : Request → Prop
  | .unlink path => ∀ inode, m.rootdir.resolve path = .ok inode →
      m.rootdir.IsOnlyName path inode ∨ m.rootdir.data inode = []
  | _ => True

theorem Covered.unlink (h : m.Covered) {path : Path} (hreleases : m.Releases (.unlink path)) :
    (m.serve host (.unlink path)).Covered := by
  have herase : ∀ index, (m.logSyscall (m.rootdir.unlink path)).references index ≤
      m.references index := by
    intro index
    refine references_logSyscall fun rootdir hok => ?_
    unfold FileSystem.unlink at hok
    split at hok
    · contradiction
    · cases hok
      exact FileSystem.total_le_of_linked _ (FileSystem.linked_erase_subset path) rfl
  intro index
  cases hpath : m.rootdir.resolve path with
  | error errno =>
      rw [serve, deleteBlocks_of_error hpath, table_logSyscall]
      exact (herase index).trans (h index)
  | ok inode =>
      rcases hreleases inode hpath with hname | hnil
      · -- the walk releases no more than the slots that disappear
        have hunlink := references_unlink host hname index
        have hseen := m.count_seen_le inode index
        have hcount := h index
        rw [table_unlink hpath, Table.count_releaseAll]
        omega
      · rw [serve, deleteBlocks_nil hpath hnil, table_logSyscall]
        exact (herase index).trans (h index)

theorem Covered.serve (h : m.Covered) {request : Request} (hadmits : m.Admits host request)
    (hreleases : m.Releases request) : (m.serve host request).Covered := by
  cases request with
  | mknod path =>
      intro index
      rw [references_mknod, Ledger.serve, table_logSyscall]
      exact h index
  | write path buf offset =>
      intro index
      cases hpath : m.rootdir.resolve path with
      | error errno =>
          rw [serve_write_of_error hpath]
          exact h index
      | ok inode =>
          obtain ⟨-, hroom, hslot⟩ := hadmits inode hpath
          have hreferences := references_write host buf hpath hslot index
          have hcount := h index
          rw [table_write hpath, Table.count_store hroom]
          omega
  | truncate path newsize =>
      intro index
      cases hpath : m.rootdir.resolve path with
      | error errno =>
          rw [serve_truncate_of_error hpath]
          exact h index
      | ok inode =>
          have htotal := m.references_setPointers (linked_of_resolve hpath) [] index
          have hcount := h index
          rw [List.count_nil] at htotal
          rw [serve_truncate_of_resolve hpath]
          exact (by omega : (m.setPointers inode []).references index ≤ m.table.count index)
  | rename path newpath =>
      intro index
      have hrename := m.references_rename host path newpath index
      rw [Ledger.serve, table_logSyscall]
      exact hrename.trans (h index)
  | unlink path => exact h.unlink hreleases
  | link path newpath =>
      intro index
      have hlink := m.references_link host path newpath index
      rw [Ledger.serve, table_logSyscall]
      exact hlink.trans (h index)
  | symlink path link =>
      intro index
      rw [references_symlink, Ledger.serve, table_logSyscall]
      exact h index

end Ledger

/-! ## Directories without links -/

def Request.IsLinkFree : Request → Prop
  | .link _ _ | .symlink _ _ => False
  | _ => True

instance (request : Request) : Decidable request.IsLinkFree :=
  match request with
  | .link _ _ | .symlink _ _ => .isFalse id
  | .mknod _ | .write _ _ _ | .truncate _ _ | .rename _ _ | .unlink _ => .isTrue trivial

namespace Ledger

variable {host : Host} {m : Ledger}

theorem noLinks_serve (h : m.rootdir.NoLinks) {request : Request}
    (hlinks : request.IsLinkFree) : (m.serve host request).rootdir.NoLinks := by
  cases request with
  | mknod path =>
      simp only [serve, FileSystem.create]
      split
      · exact h
      · exact h.insertNew path []
  | write path buf offset =>
      simp only [serve, write]
      split
      · exact h
      · exact h.write _ _
  | truncate path newsize =>
      simp only [serve, truncate]
      split
      · exact h
      · exact h.write _ _
  | rename path newpath =>
      simp only [serve]
      cases hrename : m.rootdir.rename path newpath with
      | error errno => exact h
      | ok rootdir =>
          obtain ⟨node, hnode, ⟨-, rfl⟩ | ⟨-, hlt, rfl⟩⟩ := FileSystem.rename_cases hrename
          · exact h
          · obtain ⟨inode, rfl⟩ := h.regular path node hnode
            exact h.insertOld hnode hlt
  | unlink path =>
      have hdelete : (m.deleteBlocks path).rootdir.NoLinks := by
        unfold deleteBlocks
        split
        · exact h
        · split
          · exact h.write _ _
          · exact h
      simp only [serve, FileSystem.unlink]
      split
      · exact hdelete
      · exact hdelete.erase path
  | link path newpath => exact hlinks.elim
  | symlink path link => exact hlinks.elim

theorem lookup_of_resolve (h : m.rootdir.NoLinks) {path : Path} {inode : Nat}
    (hpath : m.rootdir.resolve path = .ok inode) :
    m.rootdir.lookup path = some (.file inode) := by
  cases hlookup : m.rootdir.lookup path with
  | none => simp [FileSystem.resolve_none _ hlookup] at hpath
  | some node =>
      obtain ⟨other, rfl⟩ := h.regular path node hlookup
      rw [FileSystem.resolve_file _ hlookup, Except.ok.injEq] at hpath
      rw [hpath]

theorem lookup_of_resolve_error (h : m.rootdir.NoLinks) {path : Path} {errno : Errno}
    (hpath : m.rootdir.resolve path = .error errno) : m.rootdir.lookup path = none := by
  cases hlookup : m.rootdir.lookup path with
  | none => rfl
  | some node =>
      obtain ⟨other, rfl⟩ := h.regular path node hlookup
      simp [FileSystem.resolve_file _ hlookup] at hpath

theorem releases_of_noLinks (h : m.rootdir.NoLinks) (request : Request) :
    m.Releases request := by
  cases request with
  | unlink path => exact fun inode hpath => .inl (h.isOnlyName (lookup_of_resolve h hpath))
  | _ => trivial

end Ledger

/-! ## What the records hold -/

def storedContents (requests : List Request) : Set Bytes :=
  {content | ∃ path buf offset, Request.write path buf offset ∈ requests ∧
    cString buf = content}

namespace Table

variable {host : Host} {t : Table}

def All (P : Bytes → Prop) (t : Table) : Prop := ∀ record ∈ t.records, P record.data

theorem All.data {P : Bytes → Prop} (h : t.All P) {index : Nat}
    (hindex : index < t.records.length) : P (t.data index) := by
  rw [data_eq (List.getElem?_eq_getElem hindex)]
  exact h _ (List.getElem_mem hindex)

theorem mem_modify {f : Record → Record} {index : Nat} {record : Record}
    (h : record ∈ t.records.modify index f) :
    record ∈ t.records ∨ ∃ old ∈ t.records, record = f old := by
  obtain ⟨other, hother⟩ := List.getElem?_of_mem h
  rw [List.getElem?_modify] at hother
  obtain ⟨old, hold, rfl⟩ := Option.map_eq_some_iff.mp hother
  have hmem := List.mem_of_getElem? hold
  split
  · exact .inr ⟨old, hmem, rfl⟩
  · exact .inl hmem

theorem All.store {P : Bytes → Prop} (h : t.All P) {buf : Bytes} (hbuf : P (cString buf)) :
    (t.store host buf).2.All P := by
  unfold Table.store add
  intro record hrecord
  split at hrecord
  · rcases mem_modify hrecord with hold | ⟨old, hold, rfl⟩
    · exact h record hold
    · rw [Record.share_data]
      exact h old hold
  · split at hrecord
    · rcases List.mem_append.mp hrecord with hold | hnew
      · exact h record hold
      · rw [List.mem_singleton] at hnew
        subst record
        exact hbuf
    · exact h record hrecord

theorem All.releaseAll {P : Bytes → Prop} (h : t.All P) (indices : List Nat) :
    (t.releaseAll indices).All P := by
  induction indices generalizing t with
  | nil => exact h
  | cons index indices ih =>
      refine ih fun record hrecord => ?_
      rcases mem_modify hrecord with hold | ⟨old, hold, rfl⟩
      · exact h record hold
      · exact h old hold

@[simp] theorem data_share (index other : Nat) : (t.share index).data other = t.data other := by
  rw [data, data, share_records, List.getElem?_modify]
  cases t.records[other]? with
  | none => rfl
  | some record => by_cases heq : index = other <;> simp [heq]

theorem data_add {buf : Bytes} {index : Nat} (hindex : index < t.records.length) :
    (t.add buf).data index = t.data index := by
  unfold add
  split
  · rw [data, data, List.getElem?_append_left hindex]
  · rfl

theorem data_add_self {buf : Bytes} (hroom : t.records.length < 999) :
    (t.add buf).data t.records.length = cString buf := by
  simp [data, add_records t hroom]

theorem data_store {buf : Bytes} {index : Nat} (hindex : index < t.records.length) :
    (t.store host buf).2.data index = t.data index := by
  unfold store
  split
  · exact data_share _ _
  · exact data_add hindex

theorem data_store_self {contents : Set Bytes} (hinj : Set.InjOn host.sha1 contents)
    (hall : t.All (· ∈ contents)) {buf : Bytes} (hbuf : cString buf ∈ contents)
    (hroom : t.HasRoom host buf) :
    (t.store host buf).2.data (t.store host buf).1 = cString buf := by
  unfold HasRoom at hroom
  cases hfind : t.find host buf with
  | some index =>
      obtain ⟨record, hrecord, -, hhash⟩ := t.find_eq_some host hfind
      have hstore := t.store_of_find_some host hfind
      have hmem := hall record (List.mem_of_getElem? hrecord)
      rw [← record.nulFree.cString_eq] at hmem
      have hkept : (t.store host buf).2.data index = t.data index :=
        data_store (index_lt hrecord)
      rw [hstore] at hkept ⊢
      rw [hkept, data_eq hrecord, ← record.nulFree.cString_eq]
      exact cString_eq_of_generateHash_eq hinj hmem hbuf hhash
  | none =>
      simp only [hfind] at hroom
      rw [t.store_of_find_none host hfind]
      exact data_add_self hroom

end Table

theorem Stores.block_live {host : Host} {s : BbState} {t : Table} (h : Stores host s t)
    {index : Nat} (hlive : t.count index ≠ 0) : s.file (blockOf index) = some (t.data index) := by
  cases hrecord : t.records[index]? with
  | none => simp [Table.count, hrecord] at hlive
  | some record =>
      rw [Table.count_eq hrecord] at hlive
      rw [h.block_eq index record hrecord, if_neg hlive, Table.data_eq hrecord]

theorem Ledger.all_serve {host : Host} {m : Ledger} {P : Bytes → Prop}
    (h : m.table.All P) {request : Request}
    (hbuf : ∀ path buf offset inode, request = .write path buf offset →
      m.rootdir.resolve path = .ok inode → P (cString buf)) :
    (m.serve host request).table.All P := by
  cases request with
  | write path buf offset =>
      cases hpath : m.rootdir.resolve path with
      | error errno =>
          rw [serve_write_of_error hpath]
          exact h
      | ok inode =>
          rw [table_write hpath]
          exact h.store (hbuf path buf offset inode rfl hpath)
  | truncate path newsize =>
      cases hpath : m.rootdir.resolve path with
      | error errno =>
          rw [serve_truncate_of_error hpath]
          exact h
      | ok inode =>
          rw [serve_truncate_of_resolve hpath]
          exact h
  | unlink path =>
      cases hpath : m.rootdir.resolve path with
      | error errno =>
          rw [serve, table_logSyscall, deleteBlocks_of_error hpath]
          exact h
      | ok inode =>
          rw [table_unlink hpath]
          exact h.releaseAll _
  | mknod path => simpa only [serve, table_logSyscall] using h
  | rename path newpath => simpa only [serve, table_logSyscall] using h
  | link path newpath => simpa only [serve, table_logSyscall] using h
  | symlink path link => simpa only [serve, table_logSyscall] using h

end Ece318.Bbfs
