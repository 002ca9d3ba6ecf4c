import Ece318.Foundation.Runs
import Ece318.Bbfs.ReadSpec

/-!
# When the counters are exact

Writes add references and `unlink` takes them away.  An overwritten slot, a
truncated file and a file that a rename replaces lose references that no
counter loses, and `unlink` leaves some behind where `delete_blocks` empties
the pointers file before its stream has fetched all of it.  Without these, and
only then, every counter is the number of slots that name its block.
-/

namespace Ece318.Bbfs

open Ece318.Foundation

/-! ## Which entries `delete_blocks` sees -/

namespace Table

theorem le_fetched_iff (total consumed : Nat) :
    total ≤ fetched total consumed ↔
      3 * total ≤ 4096 * ((3 * consumed + 4095) / 4096) := by
  rw [fetched, Nat.le_div_iff_mul_le (by omega), Nat.mul_comm total 3, Nat.le_min]
  simp

variable {t : Table}

theorem count_release_cons {index : Nat} (hlive : 0 < t.count index) (indices : List Nat)
    (other : Nat) :
    (t.release index).count other + (index :: indices).count other =
      t.count other + indices.count other := by
  rw [count_release, List.count_cons]
  by_cases heq : index = other
  · subst other
    simp only [beq_self_eq_true, if_true]
    omega
  · simp [heq]

theorem reached_eq_length_iff (total consumed : Nat) {indices : List Nat}
    (htotal : total = consumed + indices.length)
    (hcount : ∀ index, indices.count index ≤ t.count index) :
    reached total t consumed indices = indices.length ↔
      ∀ slot index, indices[slot]? = some index →
        t.count index = (indices.take (slot + 1)).count index →
          3 * total ≤ 4096 * ((3 * (consumed + slot + 1) + 4095) / 4096) := by
  induction indices generalizing t consumed with
  | nil => simp [reached]
  | cons index indices ih =>
      rw [List.length_cons] at htotal
      rw [reached, List.length_cons]
      have hhead := hcount index
      rw [List.count_cons_self] at hhead
      by_cases hone : t.count index = 1
      · -- the walk goes on to the end of the buffer, and later buffers only hold more
        rw [if_pos hone]
        have hfetched := le_fetched_iff total (consumed + 1)
        have hself : 3 * (consumed + 1) ≤ 4096 * ((3 * (consumed + 1) + 4095) / 4096) := by
          omega
        have hle : consumed + 1 ≤ fetched total (consumed + 1) := by
          rw [fetched, Nat.le_div_iff_mul_le (by omega), Nat.le_min]
          omega
        constructor
        · intro hall slot other hslot hother
          have hbuffer : 3 * total ≤ 4096 * ((3 * (consumed + 1) + 4095) / 4096) := by
            rw [← hfetched]
            omega
          exact hbuffer.trans (Nat.mul_le_mul_left _ (Nat.div_le_div_right (by omega)))
        · intro hall
          have hbuffer := hall 0 index rfl (by simpa using hone)
          rw [Nat.add_zero, ← hfetched] at hbuffer
          omega
      · have hlive : 0 < t.count index := by omega
        have hrest : ∀ other, indices.count other ≤ (t.release index).count other := by
          intro other
          have hsame := count_release_cons hlive indices other
          have hother := hcount other
          omega
        rw [if_neg hone, Nat.add_comm 1, Nat.add_right_cancel_iff,
          ih _ (by omega) hrest]
        have hposition : ∀ slot, consumed + 1 + slot + 1 = consumed + (slot + 1) + 1 := by
          omega
        constructor
        · intro hall slot other hslot hother
          cases slot with
          | zero =>
              rw [List.getElem?_cons_zero, Option.some.injEq] at hslot
              subst other
              simp [hone] at hother
          | succ slot =>
              have hsame := count_release_cons hlive (indices.take (slot + 1)) other
              rw [List.getElem?_cons_succ] at hslot
              rw [List.take_succ_cons] at hother
              rw [← hposition]
              exact hall slot other hslot (by omega)
        · intro hall slot other hslot hother
          have hsame := count_release_cons hlive (indices.take (slot + 1)) other
          have hnext := hall (slot + 1) other hslot
          rw [List.take_succ_cons] at hnext
          rw [hposition]
          exact hnext (by omega)

end Table

/-! ## Requests that keep the counters exact -/

theorem eq_nil_of_count {indices : List Nat} (h : ∀ index, indices.count index = 0) :
    indices = [] :=
  List.eq_nil_iff_forall_not_mem.mpr fun index => List.count_eq_zero.mp (h index)

namespace Ledger

variable {host : Host} {m : Ledger}

def KeepsExact (m : Ledger) : Request → Prop
  | .write path _ offset => ∀ inode, m.rootdir.resolve path = .ok inode →
      offset / bbfsMaxBlockSize = (m.rootdir.data inode).length
  | .truncate path _ => ∀ inode, m.rootdir.resolve path = .ok inode →
      m.rootdir.data inode = []
  | .rename path newpath => ∀ node, m.rootdir.lookup path = some node →
      ∀ node', m.rootdir.lookup newpath = some node' →
        node'.inode = node.inode ∨ m.rootdir.data node'.inode = []
  | .unlink path => ∀ inode, m.rootdir.resolve path = .ok inode →
      m.seen inode = m.rootdir.data inode
  | _ => True

theorem Exact.write_iff (h : m.Exact) {path : Path} {buf : Bytes} {offset : Nat}
    (hadmits : m.Admits host (.write path buf offset)) :
    (m.serve host (.write path buf offset)).Exact ↔
      m.KeepsExact (.write path buf offset) := by
  cases hpath : m.rootdir.resolve path with
  | error errno =>
      rw [serve_write_of_error hpath]
      exact iff_of_true h (by simp [KeepsExact, hpath])
  | ok inode =>
      obtain ⟨-, hroom, hslot⟩ := hadmits inode hpath
      have hreferences := references_write host buf hpath hslot
      simp only [KeepsExact, hpath, Except.ok.injEq, forall_eq']
      constructor
      · intro hexact
        by_contra hne
        have hlt : offset / bbfsMaxBlockSize < (m.rootdir.data inode).length := by omega
        have hindex := hexact (m.rootdir.data inode)[offset / bbfsMaxBlockSize]
        have hold := hreferences (m.rootdir.data inode)[offset / bbfsMaxBlockSize]
        rw [table_write hpath, Table.count_store hroom, ← h] at hindex
        rw [if_pos (List.getElem?_eq_getElem hlt)] at hold
        omega
      · intro heq index
        have hnew := hreferences index
        rw [table_write hpath, Table.count_store hroom, ← h]
        rw [heq, List.getElem?_eq_none le_rfl] at hnew
        simpa using hnew

theorem Exact.truncate_iff (h : m.Exact) (path : Path) (newsize : Nat) :
    (m.serve host (.truncate path newsize)).Exact ↔
      m.KeepsExact (.truncate path newsize) := by
  cases hpath : m.rootdir.resolve path with
  | error errno =>
      rw [serve_truncate_of_error hpath]
      exact iff_of_true h (by simp [KeepsExact, hpath])
  | ok inode =>
      have htotal := m.references_setPointers (linked_of_resolve hpath) []
      simp only [List.count_nil, Nat.add_zero] at htotal
      rw [serve_truncate_of_resolve hpath]
      simp only [KeepsExact, hpath, Except.ok.injEq, forall_eq']
      constructor
      · intro hexact
        refine eq_nil_of_count fun index => ?_
        have hindex : (m.setPointers inode []).references index = m.table.count index :=
          hexact index
        have hold := htotal index
        rw [hindex, h index] at hold
        omega
      · intro hnil index
        have hold := htotal index
        rw [hnil, List.count_nil, Nat.add_zero] at hold
        exact hold.trans (h index)

theorem Exact.unlink_iff (h : m.Exact) (hlinks : m.rootdir.NoLinks) (path : Path) :
    (m.serve host (.unlink path)).Exact ↔ m.KeepsExact (.unlink path) := by
  cases hpath : m.rootdir.resolve path with
  | error errno =>
      have hlookup := lookup_of_resolve_error hlinks hpath
      have hsame : m.serve host (.unlink path) = m := by
        rw [serve, deleteBlocks_of_error hpath, FileSystem.unlink, hlookup]
        rfl
      rw [hsame]
      exact iff_of_true h (by simp [KeepsExact, hpath])
  | ok inode =>
      have hlookup := lookup_of_resolve hlinks hpath
      have hreferences := references_unlink host (hlinks.isOnlyName hlookup)
      have hcount : ∀ index, (m.serve host (.unlink path)).table.count index =
          m.references index - (m.seen inode).count index := by
        intro index
        rw [table_unlink hpath, Table.count_releaseAll, h index]
      simp only [KeepsExact, hpath, Except.ok.injEq, forall_eq']
      have hsplit : m.rootdir.data inode = m.seen inode ++
          (m.rootdir.data inode).drop (Table.reached (m.rootdir.data inode).length m.table 0
            (m.rootdir.data inode)) :=
        (List.take_append_drop _ _).symm
      constructor
      · intro hexact
        have hrest : (m.rootdir.data inode).drop (Table.reached
            (m.rootdir.data inode).length m.table 0 (m.rootdir.data inode)) = [] := by
          -- a slot that the walk has not seen keeps its reference
          refine eq_nil_of_count fun index => ?_
          have hindex := hexact index
          have hold := hreferences index
          have hparts := congrArg (List.count index) hsplit
          rw [List.count_append] at hparts
          rw [hcount index] at hindex
          omega
        rw [hrest, List.append_nil] at hsplit
        exact hsplit.symm
      · intro hseen index
        have hold := hreferences index
        rw [hcount index, hseen]
        omega

theorem Exact.rename_iff (h : m.Exact) (hlinks : m.rootdir.NoLinks) (path newpath : Path) :
    (m.serve host (.rename path newpath)).Exact ↔ m.KeepsExact (.rename path newpath) := by
  cases hrename : m.rootdir.rename path newpath with
  | error errno =>
      have hlookup := FileSystem.lookup_of_rename_error hrename
      simp only [serve, hrename, logSyscall, KeepsExact, hlookup, reduceCtorEq, false_implies,
        implies_true, iff_true]
      exact h
  | ok rootdir =>
      obtain ⟨node, hnode, hcases⟩ := FileSystem.rename_cases hrename
      simp only [serve, hrename, logSyscall, KeepsExact, hnode, Option.some.injEq, forall_eq']
      rcases hcases with ⟨hsame, rfl⟩ | ⟨hother, hlt, rfl⟩
      · refine iff_of_true h fun node' hnode' => .inl ?_
        rw [hnode', Option.map_some, Option.some.injEq] at hsame
        exact hsame
      · obtain ⟨inode, rfl⟩ := hlinks.regular path node hnode
        have hne : newpath ≠ path := by
          rintro rfl
          exact hother (by rw [hnode, Option.map_some])
        have hmoved := fun index =>
          FileSystem.total_insertOld (List.count index) hnode hlt hne
        cases hnew : m.rootdir.lookup newpath with
        | none =>
            refine iff_of_true (fun index => ?_) (by simp)
            rw [references, hmoved, FileSystem.total_erase_absent _ hnew]
            exact h index
        | some node' =>
            obtain ⟨inode', rfl⟩ := hlinks.regular newpath node' hnew
            have hdropped := fun index =>
              FileSystem.total_erase (List.count index) (hlinks.isOnlyName hnew)
            have hdiffer : inode' ≠ inode := by
              rintro rfl
              exact hother (by rw [hnew, Option.map_some])
            simp only [Option.some.injEq, forall_eq', hdiffer, false_or]
            constructor
            · intro hexact
              refine eq_nil_of_count fun index => ?_
              have hindex : (m.rootdir.erase newpath).total (List.count index) =
                  m.table.count index := (hmoved index).symm.trans (hexact index)
              have hold := hdropped index
              have hreferences : m.rootdir.total (List.count index) =
                  m.table.count index := h index
              change List.count index (m.rootdir.data inode') = 0
              omega
            · intro hnil index
              have hold := hdropped index
              rw [hnil, List.count_nil, Nat.add_zero] at hold
              rw [references, hmoved, hold]
              exact h index

theorem Exact.serve_iff (h : m.Exact) (hlinks : m.rootdir.NoLinks) {request : Request}
    (hadmits : m.Admits host request) (hlinkFree : request.IsLinkFree) :
    (m.serve host request).Exact ↔ m.KeepsExact request := by
  cases request with
  | mknod path =>
      refine iff_of_true (fun index => ?_) trivial
      rw [references_mknod, serve, table_logSyscall]
      exact h index
  | write path buf offset => exact h.write_iff hadmits
  | truncate path newsize => exact h.truncate_iff path newsize
  | rename path newpath => exact h.rename_iff hlinks path newpath
  | unlink path => exact h.unlink_iff hlinks path
  | link path newpath => exact hlinkFree.elim
  | symlink path link => exact hlinkFree.elim

end Ledger

/-! ## On the disk -/

namespace BbState

/-- The slots of all pointers files that hold an id. -/
def slotsNaming (s : BbState) (id : Nat) : Nat :=
  s.rootdir.total fun file => (entries idLength file).count (padDecimal 3 id)

/--
Every counter is the number of slots with its id; an id without slots has the
counter 00 and no block file.
-/
def CountersExact (s : BbState) : Prop :=
  ∀ id, 1 ≤ id → id ≤ s.lastId →
    s.counterField id = padDecimal 2 (s.slotsNaming id) ∧
      (s.slotsNaming id = 0 → s.counterField id = padDecimal 2 0 ∧
        s.file (.block (padDecimal 3 id)) = none)

/--
The entry whose release takes a counter to 0 lies in the last 4096 bytes that
stdio fetches of the pointers file.
-/
def WalkIsWhole (s : BbState) (fh : Nat) : Prop :=
  ∀ slot < (entries idLength (s.rootdir.data fh)).length,
    ∀ id ∈ (entries idLength (s.rootdir.data fh))[slot]?,
      atoi (s.counterField (atoi id).toNat) =
          ((entries idLength (s.rootdir.data fh)).take (slot + 1)).count id →
        3 * (entries idLength (s.rootdir.data fh)).length ≤
          streamBuffer * ((3 * (slot + 1) + 4095) / streamBuffer)

/--
Writes append, truncated and replaced files are empty, and `delete_blocks`
sees the whole file.
-/
def KeepsExact (s : BbState) : Request → Prop
  | .write path _ offset => ∀ fh, s.rootdir.resolve path = .ok fh →
      offset / bbfsMaxBlockSize * idLength = (s.rootdir.data fh).length
  | .truncate path _ => ∀ fh, s.rootdir.resolve path = .ok fh → s.rootdir.data fh = []
  | .rename path newpath => ∀ node, s.rootdir.lookup path = some node →
      ∀ node', s.rootdir.lookup newpath = some node' →
        node'.inode = node.inode ∨ s.rootdir.data node'.inode = []
  | .unlink path => ∀ fh, s.rootdir.resolve path = .ok fh → s.WalkIsWhole fh
  | _ => True

theorem walkIsWhole_iff_reached (s : BbState) {t : Table} {inode : Nat} {indices : List Nat}
    (hvalid : t.Valid indices) (hdata : s.rootdir.data inode = pointerBytes indices)
    (hcounter : ∀ index ∈ indices, s.counterField (index + 1) = padDecimal 2 (t.count index))
    (hcount : ∀ index, indices.count index ≤ t.count index) :
    s.WalkIsWhole inode ↔ Table.reached indices.length t 0 indices = indices.length := by
  have hentries : entries idLength (s.rootdir.data inode) =
      indices.map fun index => padDecimal 3 (index + 1) := by
    rw [hdata, entries_pointerBytes hvalid]
  have hatoi : ∀ index ∈ indices,
      atoi (s.counterField (atoi (padDecimal 3 (index + 1))).toNat) = t.count index := by
    intro index hindex
    rw [atoi_padDecimal, Int.toNat_natCast, hcounter index hindex, atoi_padDecimal]
  rw [Table.reached_eq_length_iff indices.length 0 (by simp) hcount]
  constructor
  · intro hwhole slot index hslot hlast
    have hlt := (List.getElem?_eq_some_iff.mp hslot).1
    have hindex := List.mem_of_getElem? hslot
    have hbuffer := hwhole slot (by rwa [hentries, List.length_map])
      (padDecimal 3 (index + 1)) (by simp [hentries, hslot])
    rw [hatoi index hindex, hentries, ← List.map_take,
      List.count_map_of_injective _ _ idText_injective, List.length_map, hlast] at hbuffer
    simpa using hbuffer rfl
  · intro hreached slot hlt id hid hlast
    rw [hentries, List.getElem?_map, Option.mem_def, Option.map_eq_some_iff] at hid
    obtain ⟨index, hslot, rfl⟩ := hid
    rw [hatoi index (List.mem_of_getElem? hslot), hentries, ← List.map_take,
      List.count_map_of_injective _ _ idText_injective] at hlast
    rw [hentries, List.length_map]
    simpa using hreached slot index hslot (by exact_mod_cast hlast)

end BbState

namespace Represents

variable {host : Host} {s : BbState} {m : Ledger}

theorem slotsNaming (h : Represents host s m) (index : Nat) :
    s.slotsNaming (index + 1) = m.references index := by
  rw [BbState.slotsNaming, h.rootdir_eq, FileSystem.total_map, Ledger.references]
  refine Finset.sum_congr rfl fun inode _ => ?_
  change (entries idLength (pointerBytes (m.rootdir.data inode))).count _ = _
  rw [entries_pointerBytes (h.valid inode)]
  exact List.count_map_of_injective _ _ idText_injective index

theorem references_eq_zero (h : Represents host s m) {index : Nat}
    (hindex : m.table.records.length ≤ index) :
    m.references index = 0 ∧ m.table.count index = 0 := by
  constructor
  · unfold Ledger.references FileSystem.total
    refine Finset.sum_eq_zero fun inode _ => ?_
    rw [List.count_eq_zero]
    intro hmem
    have hlt := h.valid inode index hmem
    omega
  · rw [Table.count, List.getElem?_eq_none hindex]

theorem countersExact_iff (h : Represents host s m) : s.CountersExact ↔ m.Exact := by
  constructor
  · intro hexact index
    rcases Nat.lt_or_ge index m.table.records.length with hlt | hge
    · have hrecord := List.getElem?_eq_getElem hlt
      have hid : index + 1 ≤ s.lastId := by
        rw [h.stores.lastId_eq]
        omega
      have hcounter := (hexact (index + 1) (by omega) hid).1
      rw [h.stores.counterField hrecord, h.slotsNaming] at hcounter
      rw [Table.count_eq hrecord]
      exact (padDecimal_injective 2 hcounter).symm
    · obtain ⟨hreferences, hcount⟩ := h.references_eq_zero hge
      rw [hreferences, hcount]
  · intro hexact id hpos hle
    obtain ⟨index, rfl⟩ : ∃ index, id = index + 1 := ⟨id - 1, by omega⟩
    have hlt : index < m.table.records.length := by
      rw [h.stores.lastId_eq] at hle
      omega
    have hrecord := List.getElem?_eq_getElem hlt
    have hcount := hexact index
    rw [Table.count_eq hrecord] at hcount
    rw [h.stores.counterField hrecord, h.slotsNaming, hcount]
    refine ⟨rfl, fun hzero => ⟨by rw [hzero], ?_⟩⟩
    rw [h.stores.block_eq index _ hrecord, if_pos hzero]

theorem walkIsWhole_iff (h : Represents host s m) (hcovered : m.Covered) {inode : Nat}
    (hlinked : inode ∈ m.rootdir.linked) :
    s.WalkIsWhole inode ↔ m.seen inode = m.rootdir.data inode := by
  have hle := Table.reached_le (t := m.table) (m.rootdir.data inode).length 0
    (m.rootdir.data inode)
  rw [s.walkIsWhole_iff_reached (h.valid inode) (h.data_eq inode)
    (fun index hindex => h.stores.counterField_count (h.valid inode index hindex))
    (hcovered.count_le hlinked), Ledger.seen, List.take_eq_self_iff]
  omega

theorem keepsExact_iff (h : Represents host s m) (hcovered : m.Covered)
    (request : Request) : s.KeepsExact request ↔ m.KeepsExact request := by
  have hnil : ∀ inode, s.rootdir.data inode = [] ↔ m.rootdir.data inode = [] := by
    intro inode
    rw [← List.length_eq_zero_iff, ← List.length_eq_zero_iff, h.data_length]
    omega
  cases request with
  | mknod path => exact Iff.rfl
  | write path buf offset =>
      simp only [BbState.KeepsExact, Ledger.KeepsExact, h.resolve_eq, h.data_length, idLength]
      refine forall₂_congr fun inode _ => ?_
      omega
  | truncate path newsize =>
      simp only [BbState.KeepsExact, Ledger.KeepsExact, h.resolve_eq, hnil]
  | rename path newpath =>
      have hlookup : ∀ name, s.rootdir.lookup name = m.rootdir.lookup name := by
        intro name
        rw [h.rootdir_eq, FileSystem.lookup_map]
      simp only [BbState.KeepsExact, Ledger.KeepsExact, hlookup, hnil]
  | unlink path =>
      simp only [BbState.KeepsExact, Ledger.KeepsExact, h.resolve_eq]
      exact forall₂_congr fun inode hpath =>
        h.walkIsWhole_iff hcovered (Ledger.linked_of_resolve hpath)
  | link path newpath => exact Iff.rfl
  | symlink path link => exact Iff.rfl

end Represents

/-! ## Runs -/

def LinkFreeRequest (host : Host) (s : BbState) (request : Request) : Prop :=
  Orderly host s request ∧ request.IsLinkFree

instance (host : Host) (s : BbState) (request : Request) :
    Decidable (LinkFreeRequest host s request) :=
  inferInstanceAs (Decidable (_ ∧ _))

/--
Without links, the counters are exact after every step of a run if and only if
no step takes a reference away behind the back of the counters.
-/
theorem countersExact_iff_along_keepsExact (sha1 : Bytes → Vector UInt8 20)
    (requests : List Request)
    (hrun : Along (serve (.granting sha1)) (LinkFreeRequest (.granting sha1)) freshMount
      requests) :
    (∀ first second, requests = first ++ second →
        ∃ s, run (serve (.granting sha1)) freshMount first = .ok s ∧ s.CountersExact) ↔
      Along (serve (.granting sha1)) BbState.KeepsExact freshMount requests := by
  have hgrants := Host.granting_grants sha1
  have hfresh := represents_freshMount (.granting sha1)
  refine forall_prefix_iff_along
    (fun s => ∃ m, Represents (.granting sha1) s m ∧ m.rootdir.NoLinks)
    BbState.CountersExact ?_ ⟨_, hfresh, FileSystem.noLinks_empty []⟩
    (hfresh.countersExact_iff.mpr Ledger.exact_initial) hrun
  rintro s request ⟨m, hs, hlinks⟩ hexact ⟨horderly, hlinkFree⟩
  have hm := hs.countersExact_iff.mp hexact
  have hadmits := Ledger.Admits.of_orderly hs hgrants horderly
  obtain ⟨s', hok, hs'⟩ := hs.serve hgrants horderly
  refine ⟨s', hok, ⟨_, hs', Ledger.noLinks_serve hlinks hlinkFree⟩, ?_⟩
  rw [hs'.countersExact_iff, hm.serve_iff hlinks hadmits hlinkFree,
    hs.keepsExact_iff hm.covered]

def appendRun : List Request :=
  [.mknod "a", .write "a" [97] 0, .write "a" [98] 4069, .unlink "a"]

theorem countersExact_iff_along_keepsExact_appendRun :
    (∀ first second, appendRun = first ++ second →
        ∃ s, run (serve (.granting sampleSha1)) freshMount first = .ok s ∧
          s.CountersExact) ↔
      Along (serve (.granting sampleSha1)) BbState.KeepsExact freshMount appendRun :=
  countersExact_iff_along_keepsExact sampleSha1 appendRun (by decide +kernel)

def overwriteRun : List Request :=
  [.mknod "a", .write "a" [97] 0, .write "a" [98] 0]

/-- Record 001 keeps its reference when nothing refers to it any more. -/
theorem overwriteRun_leaks :
    Along (serve (.granting sampleSha1)) (LinkFreeRequest (.granting sampleSha1))
        freshMount overwriteRun ∧
      ∃ s, run (serve (.granting sampleSha1)) freshMount overwriteRun = .ok s ∧
        ¬ s.CountersExact := by
  refine ⟨by decide +kernel, ?_⟩
  have hfields : ∃ s, run (serve (.granting sampleSha1)) freshMount overwriteRun = .ok s ∧
      s.lastId = 2 ∧ s.counterField 1 = padDecimal 2 1 ∧ s.slotsNaming 1 = 0 := by
    decide +kernel
  obtain ⟨s, hok, hlast, hcounter, hslots⟩ := hfields
  refine ⟨s, hok, fun hexact => ?_⟩
  have hone := (hexact 1 le_rfl (by omega)).1
  rw [hcounter, hslots] at hone
  exact absurd (padDecimal_injective 2 hone) (by decide)

end Ece318.Bbfs
