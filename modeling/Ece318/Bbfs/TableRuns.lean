import Ece318.Foundation.Runs
import Ece318.Bbfs.References

/-!
# Runs that keep the hashes file a table

Every access to the hashes file relies on lines of 45 bytes.  They stay that
wide as long as no write finds its block with the counter 99, and as long as
`unlink` finds nothing but ids of records in the pointers file.  Here writes
may leave holes in a pointers file.
-/

namespace Ece318.Bbfs

open Ece318.Foundation

/-! ## Pointers files without holes -/

def BbState.NamesRecords (s : BbState) (file : Bytes) : Prop :=
  file.length % idLength = 0 ∧
    ∀ entry ∈ entries idLength file, ∃ index ∈ List.range s.lastId,
      entry = padDecimal 3 (index + 1)

instance (s : BbState) (file : Bytes) : Decidable (s.NamesRecords file) :=
  inferInstanceAs (Decidable (_ ∧ _))

theorem exists_map_eq {α β : Type} {f : α → β} {P : α → Prop} {items : List β}
    (h : ∀ item ∈ items, ∃ a, P a ∧ item = f a) :
    ∃ sources : List α, items = sources.map f ∧ ∀ a ∈ sources, P a := by
  induction items with
  | nil => exact ⟨[], rfl, by simp⟩
  | cons item items ih =>
      obtain ⟨a, ha, rfl⟩ := h item List.mem_cons_self
      obtain ⟨sources, rfl, hall⟩ := ih fun other hother =>
        h other (List.mem_cons_of_mem _ hother)
      refine ⟨a :: sources, rfl, ?_⟩
      rintro b (_ | ⟨_, hb⟩)
      · exact ha
      · exact hall b hb

theorem BbState.NamesRecords.exists_indices {s : BbState} {file : Bytes}
    (h : s.NamesRecords file) :
    ∃ indices, file = pointerBytes indices ∧ ∀ index ∈ indices, index < s.lastId := by
  obtain ⟨hlength, hentries⟩ := h
  have hall : ∀ entry ∈ entries idLength file, ∃ index, index < s.lastId ∧
      entry = padDecimal 3 (index + 1) := by
    intro entry hentry
    obtain ⟨index, hindex, rfl⟩ := hentries entry hentry
    exact ⟨index, List.mem_range.mp hindex, rfl⟩
  obtain ⟨indices, hmap, hlt⟩ := exists_map_eq hall
  refine ⟨indices, ?_, hlt⟩
  have hflatten : (entries idLength file).flatten = file :=
    flatten_entries (by decide) (Nat.dvd_of_mod_eq_zero hlength)
  rw [pointerBytes, ← hmap, hflatten]

/-! ## One request -/

/-- What a request must meet for the lines to keep their width. -/
def KeepsTable (host : Host) (s : BbState) : Request → Prop
  | .write path buf _ =>
      match s.rootdir.resolve path with
      | .error _ => True
      | .ok _ => buf.length ≤ maxBlockSize ∧ WithinLimits host s buf
  | .unlink path =>
      match s.rootdir.resolve path with
      | .error _ => s.file .hashes ≠ none
      | .ok fh => s.NamesRecords (s.rootdir.data fh)
  | _ => True

instance (host : Host) (s : BbState) (request : Request) :
    Decidable (KeepsTable host s request) :=
  match request with
  | .write path buf _ =>
      match hpath : s.rootdir.resolve path with
      | .error _ => .isTrue (by simp only [KeepsTable, hpath])
      | .ok _ => decidable_of_iff (buf.length ≤ maxBlockSize ∧ WithinLimits host s buf)
          (by simp only [KeepsTable, hpath])
  | .unlink path =>
      match hpath : s.rootdir.resolve path with
      | .error _ => decidable_of_iff (s.file .hashes ≠ none)
          (by simp only [KeepsTable, hpath])
      | .ok fh => decidable_of_iff (s.NamesRecords (s.rootdir.data fh))
          (by simp only [KeepsTable, hpath])
  | .mknod _ | .truncate _ _ | .rename _ _ | .link _ _ | .symlink _ _ => .isTrue trivial

def updatedIds (host : Host) (s : BbState) : Request → List Nat
  | .write _ buf _ => [(compareHashes host s (generateHash host buf)).1.toNat]
  | .unlink path =>
      match s.rootdir.resolve path with
      | .error _ => []
      | .ok fh => (entries idLength (s.rootdir.data fh)).map fun id => (atoi id).toNat
  | _ => []

namespace Table

variable {host : Host} {t : Table}

theorem getElem?_store {buf : Bytes} {index : Nat} (hindex : index < t.records.length)
    (hne : index ≠ (t.store host buf).1) :
    (t.store host buf).2.records[index]? = t.records[index]? := by
  unfold store add at *
  split at hne
  · simp only [share_records]
    rw [List.getElem?_modify_ne _ _ hne.symm]
  · split
    · rw [List.getElem?_append_left hindex]
    · rfl

theorem getElem?_releaseAll {indices : List Nat} {index : Nat} (h : index ∉ indices) :
    (t.releaseAll indices).records[index]? = t.records[index]? := by
  induction indices generalizing t with
  | nil => rfl
  | cons other indices ih =>
      rw [List.mem_cons, not_or] at h
      rw [releaseAll_cons, ih h.2, release_records, List.getElem?_modify_ne _ _ (Ne.symm h.1)]

end Table

theorem deleteBlocks_missing {host : Host} {s : BbState} (hgrants : host.Grants) {path : Path}
    {errno : Errno} (hpath : s.rootdir.resolve path = .error errno)
    (hhashes : s.file .hashes ≠ none) : deleteBlocks host s path = .ok s := by
  obtain ⟨hashesfile, hfile⟩ := Option.ne_none_iff_exists'.mp hhashes
  simp [deleteBlocks, openFile, openPath_of_error hgrants hpath, hgrants.fopen, hfile]

namespace Stores

variable {host : Host} {s : BbState} {t : Table}

theorem logSyscall (h : Stores host s t)
    (result : Except Errno (FileSystem Path Bytes)) :
    Stores host (Bbfs.logSyscall s result).2 t := by
  cases result with
  | error errno => exact h
  | ok rootdir => exact h.setRootdir rootdir

theorem serve_write (h : Stores host s t) (hgrants : host.Grants) {path : Path}
    {buf : Bytes} {offset fh : Nat} (hpath : s.rootdir.resolve path = .ok fh)
    (hsize : buf.length ≤ maxBlockSize) (hlimits : WithinLimits host s buf) :
    ∃ s', Bbfs.serve host s (.write path buf offset) = .ok s' ∧
      Stores host s' (t.store host buf).2 := by
  obtain ⟨s', hwrite, hstores, hrootdir⟩ := h.writeBlocks hgrants hsize
    ((h.withinLimits_iff hgrants buf).mp hlimits)
  exact ⟨_, serve_write_eq hpath hwrite offset, hstores.setPointers fh _⟩

theorem serve_unlink (h : Stores host s t) (hgrants : host.Grants) {path : Path}
    {fh : Nat} (hpath : s.rootdir.resolve path = .ok fh)
    (hnames : s.NamesRecords (s.rootdir.data fh)) :
    ∃ s' count, ∃ indices : List Nat, Bbfs.serve host s (.unlink path) = .ok s' ∧
      Stores host s' (t.releaseAll (indices.take count)) ∧
      entries idLength (s.rootdir.data fh) =
        indices.map fun index => padDecimal 3 (index + 1) := by
  obtain ⟨indices, hfile, hlt⟩ := hnames.exists_indices
  have hvalid : t.Valid indices := fun index hindex => h.lastId_eq ▸ hlt index hindex
  obtain ⟨s', hrun, hstores, -⟩ := h.deleteBlocks hgrants hpath hvalid hfile
  refine ⟨_, _, indices, serve_unlink_eq hrun, hstores.logSyscall _, ?_⟩
  rw [hfile]
  exact entries_flatten hvalid.uniform (by decide)

theorem serve_unlink_missing (h : Stores host s t) (hgrants : host.Grants) {path : Path}
    {errno : Errno} (hpath : s.rootdir.resolve path = .error errno)
    (hhashes : s.file .hashes ≠ none) :
    ∃ s', Bbfs.serve host s (.unlink path) = .ok s' ∧ Stores host s' t :=
  ⟨_, serve_unlink_eq (deleteBlocks_missing hgrants hpath hhashes), h.logSyscall _⟩

/--
A request that keeps the table stores its block, changes no record, or releases
records, each at most as often as the unlinked file names it.
-/
theorem serve (h : Stores host s t) (hgrants : host.Grants) {request : Request}
    (hkeeps : KeepsTable host s request) :
    ∃ s' t', Bbfs.serve host s request = .ok s' ∧ Stores host s' t' ∧
      ((∃ path buf offset, request = .write path buf offset ∧ t.HasRoom host buf ∧
          t' = (t.store host buf).2) ∨
        t' = t ∨
        ∃ path indices, request = .unlink path ∧ t' = t.releaseAll indices ∧
          ∀ index, indices.count index ≤ (updatedIds host s request).count (index + 1)) := by
  cases request with
  | write path buf offset =>
      cases hpath : s.rootdir.resolve path with
      | error errno =>
          exact ⟨s, t, by simp only [Bbfs.serve, hpath], h, .inr (.inl rfl)⟩
      | ok fh =>
          simp only [KeepsTable, hpath] at hkeeps
          obtain ⟨hsize, hlimits⟩ := hkeeps
          obtain ⟨s', hok, hstores⟩ := h.serve_write hgrants hpath hsize hlimits
          exact ⟨s', _, hok, hstores, .inl ⟨path, buf, offset, rfl,
            (h.withinLimits_iff hgrants buf).mp hlimits, rfl⟩⟩
  | unlink path =>
      cases hpath : s.rootdir.resolve path with
      | error errno =>
          simp only [KeepsTable, hpath] at hkeeps
          obtain ⟨s', hok, hstores⟩ := h.serve_unlink_missing hgrants hpath hkeeps
          exact ⟨s', t, hok, hstores, .inr (.inl rfl)⟩
      | ok fh =>
          simp only [KeepsTable, hpath] at hkeeps
          obtain ⟨s', count, indices, hok, hstores, hentries⟩ :=
            h.serve_unlink hgrants hpath hkeeps
          refine ⟨s', _, hok, hstores, .inr (.inr ⟨path, _, rfl, rfl, fun index => ?_⟩)⟩
          have hupdated : updatedIds host s (.unlink path) = indices.map (· + 1) := by
            simp only [updatedIds, hpath, hentries, List.map_map]
            exact List.map_congr_left fun index _ => by simp
          rw [hupdated, List.count_map_of_injective _ _ (add_left_injective 1)]
          exact (List.take_sublist count indices).count_le index
  | truncate path newsize =>
      refine ⟨_, t, rfl, ?_, .inr (.inl rfl)⟩
      unfold bbTruncate
      split
      · exact h.setPointers _ _
      · exact h
  | mknod path => exact ⟨_, t, rfl, h.logSyscall _, .inr (.inl rfl)⟩
  | rename path newpath => exact ⟨_, t, rfl, h.logSyscall _, .inr (.inl rfl)⟩
  | link path newpath => exact ⟨_, t, rfl, h.logSyscall _, .inr (.inl rfl)⟩
  | symlink path link => exact ⟨_, t, rfl, h.logSyscall _, .inr (.inl rfl)⟩

theorem serve_frame (h : Stores host s t) (hgrants : host.Grants) {request : Request}
    (hkeeps : KeepsTable host s request) :
    ∃ s' t', Bbfs.serve host s request = .ok s' ∧ Stores host s' t' ∧
      ∀ index < t.records.length, index + 1 ∉ updatedIds host s request →
        t'.records[index]? = t.records[index]? := by
  obtain ⟨s', t', hok, hstores, ⟨path, buf, offset, rfl, -, rfl⟩ | rfl |
    ⟨path, indices, -, rfl, hnamed⟩⟩ := h.serve hgrants hkeeps
  · refine ⟨s', _, hok, hstores, fun index hindex hnot => Table.getElem?_store hindex ?_⟩
    rintro rfl
    apply hnot
    rw [updatedIds, h.compareHashes (hgrants.fopen _) buf, List.mem_singleton]
    exact (Int.toNat_natCast _).symm
  · exact ⟨s', _, hok, hstores, fun _ _ _ => rfl⟩
  · exact ⟨s', _, hok, hstores, fun index _ hnot =>
      Table.getElem?_releaseAll fun hmem => hnot (List.count_pos_iff.mp
        ((List.count_pos_iff.mpr hmem).trans_le (hnamed index)))⟩

theorem field_eq_line (h : Stores host s t) {index : Nat} {record : Record}
    (hrecord : t.records[index]? = some record) :
    s.field (index + 1) 0 lineTotalLength = Record.line host index record := by
  have hline : (t.lines host)[index]? = some (Record.line host index record) := by
    simp [Table.lines, hrecord]
  rw [BbState.field, h.hashes_eq]
  exact readAt_record (t.uniform_lines host) hline

end Stores

/-! ## The table on the disk -/

structure BbState.IsTable (s : BbState) : Prop where
  length_eq : ((s.file .hashes).getD []).length = lineTotalLength * s.lastId
  line_eq : ∀ id, 1 ≤ id → id ≤ s.lastId → (padDecimal 3 id).length = idLength ∧
    ∃ counter hash : Bytes, s.field id 0 lineTotalLength = padDecimal 3 id ++ counter ++ hash ∧
      counter.length = pointersCounterLength ∧ (∀ byte ∈ counter, isDigit byte = true) ∧
      hash.length = hashSize ∧ NulFree hash

theorem Stores.isTable {host : Host} {s : BbState} {t : Table} (h : Stores host s t) :
    s.IsTable where
  length_eq := by
    rw [h.hashes_eq, t.bytes_length, h.lastId_eq]
    rfl
  line_eq := by
    intro id hpos hle
    rw [h.lastId_eq] at hle
    obtain ⟨index, rfl⟩ : ∃ index, id = index + 1 := ⟨id - 1, by omega⟩
    have hrecord := List.getElem?_eq_getElem (show index < t.records.length by omega)
    refine ⟨idText_length (Table.index_lt_999 hrecord), _, _, h.field_eq_line hrecord,
      t.records[index].counter_length, ?_, generateHash_length host _,
      nulFree_generateHash host _⟩
    exact fun byte hbyte => isDigit_of_mem_padDecimal hbyte

theorem run_stores {host : Host} (hgrants : host.Grants) {requests : List Request}
    (hrun : Along (serve host) (KeepsTable host) freshMount requests) :
    ∃ s, run (serve host) freshMount requests = .ok s ∧
      ∃ t, Stores host s t ∧ t.All (· ∈ storedContents requests) := by
  refine run_invariant
    (fun s => ∃ t, Stores host s t ∧ t.All (· ∈ storedContents requests)) ?_
    ⟨_, stores_freshMount host, by simp [Table.All, Table.empty]⟩ hrun.and_mem
  rintro s request ⟨t, hs, hall⟩ ⟨hkeeps, hmem⟩
  obtain ⟨s', t', hok, hs', ⟨path, buf, offset, rfl, -, rfl⟩ | rfl |
    ⟨path, indices, -, rfl, -⟩⟩ := hs.serve hgrants hkeeps
  · exact ⟨s', hok, _, hs', hall.store ⟨path, buf, offset, hmem, rfl⟩⟩
  · exact ⟨s', hok, _, hs', hall⟩
  · exact ⟨s', hok, _, hs', hall.releaseAll indices⟩

theorem exists_stores_of_run {host : Host} (hgrants : host.Grants) {requests : List Request}
    (hrun : Along (serve host) (KeepsTable host) freshMount requests) {s : BbState}
    (hs : run (serve host) freshMount requests = .ok s) : ∃ t, Stores host s t := by
  obtain ⟨s', hs', t, hstores, -⟩ := run_stores hgrants hrun
  obtain rfl := Except.ok.inj (hs'.symm.trans hs)
  exact ⟨t, hstores⟩

/--
In every run whose requests keep the table the hashes file is one, and the next
request changes no byte of a record that it does not update.
-/
theorem run_isTable (sha1 : Bytes → Vector UInt8 20) (requests : List Request)
    (hrun : Along (serve (.granting sha1)) (KeepsTable (.granting sha1)) freshMount
      requests) :
    ∃ s, run (serve (.granting sha1)) freshMount requests = .ok s ∧ s.IsTable ∧
      ∀ request, KeepsTable (.granting sha1) s request →
        ∃ s', serve (.granting sha1) s request = .ok s' ∧ s'.IsTable ∧
          ∀ id, 1 ≤ id → id ≤ s.lastId → id ∉ updatedIds (.granting sha1) s request →
            s'.field id 0 lineTotalLength = s.field id 0 lineTotalLength := by
  have hgrants := Host.granting_grants sha1
  obtain ⟨s, hok, t, hs, -⟩ := run_stores hgrants hrun
  refine ⟨s, hok, hs.isTable, fun request hkeeps => ?_⟩
  obtain ⟨s', t', hok', hs', hframe⟩ := hs.serve_frame hgrants hkeeps
  refine ⟨s', hok', hs'.isTable, fun id hpos hle hnot => ?_⟩
  rw [hs.lastId_eq] at hle
  obtain ⟨index, rfl⟩ : ∃ index, id = index + 1 := ⟨id - 1, by omega⟩
  have hlt : index < t.records.length := by omega
  have hrecord := List.getElem?_eq_getElem hlt
  rw [hs.field_eq_line hrecord,
    hs'.field_eq_line ((hframe index hlt hnot).trans hrecord)]

def sparseRun : List Request :=
  [.mknod "a", .write "a" [97] 0, .write "a" [98] 4069, .mknod "b", .write "b" [97] 40690,
    .unlink "a"]

theorem run_isTable_sparseRun :
    ∃ s, run (serve (.granting sampleSha1)) freshMount sparseRun = .ok s ∧ s.IsTable :=
  (run_isTable sampleSha1 sparseRun (by decide +kernel)).imp fun _ h => ⟨h.1, h.2.1⟩

def hundredRun : List Request :=
  .mknod "a" :: List.replicate 100 (.write "a" [97] 0)

/-- The counter of the only record has three digits then. -/
theorem hundredRun_not_isTable :
    ∃ s, run (serve (.granting sampleSha1)) freshMount hundredRun = .ok s ∧
      s.lastId = 1 ∧ ¬ s.IsTable := by
  have hfields : ∃ s, run (serve (.granting sampleSha1)) freshMount hundredRun = .ok s ∧
      s.lastId = 1 ∧ ((s.file .hashes).getD []).length = 46 := by
    decide +kernel
  obtain ⟨s, hok, hlast, hsize⟩ := hfields
  refine ⟨s, hok, hlast, fun htable => ?_⟩
  have hlength := htable.length_eq
  rw [hsize, hlast] at hlength
  exact absurd hlength (by decide)

end Ece318.Bbfs
