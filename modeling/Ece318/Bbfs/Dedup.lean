import Ece318.Foundation.Runs
import Ece318.Bbfs.ReadSpec

/-!
# One live record for each content

A record whose counter is 00 keeps its line and never lives again.  Among the
live records the hashes differ, each has its block file, and the block has the
hash that the record says.
-/

namespace Ece318.Bbfs

open Ece318.Foundation

namespace Table

variable {host : Host} {t : Table}

def Distinct (host : Host) (t : Table) : Prop :=
  ∀ first second, t.count first ≠ 0 → t.count second ≠ 0 →
    generateHash host (t.data first) = generateHash host (t.data second) → first = second

theorem lt_of_count {index : Nat} (h : t.count index ≠ 0) : index < t.records.length := by
  by_contra hge
  rw [count, List.getElem?_eq_none (by omega)] at h
  exact h rfl

theorem count_store_eq_zero {buf : Bytes} (hroom : t.HasRoom host buf) {index : Nat}
    (hindex : index < t.records.length) (hdead : t.count index = 0) :
    (t.store host buf).2.count index = 0 := by
  rw [count_store hroom, hdead, if_neg]
  unfold store
  cases hfind : t.find host buf with
  | none => exact fun heq => hindex.ne heq.symm
  | some found =>
      obtain ⟨record, hrecord, hlive, -⟩ := t.find_eq_some host hfind
      rintro rfl
      exact hlive ((count_eq hrecord).symm.trans hdead)

theorem Distinct.store (h : t.Distinct host) {buf : Bytes} (hroom : t.HasRoom host buf) :
    (t.store host buf).2.Distinct host := by
  have hlive : ∀ index < t.records.length, (t.store host buf).2.count index ≠ 0 →
      t.count index ≠ 0 :=
    fun index hindex hcount hzero => hcount (count_store_eq_zero hroom hindex hzero)
  cases hfind : t.find host buf with
  | some found =>
      have hlength : (t.store host buf).2.records.length = t.records.length := by
        rw [t.store_of_find_some host hfind]
        exact List.length_modify _ _ _
      intro first second hfirst hsecond hhash
      have hfirstlt := hlength ▸ lt_of_count hfirst
      have hsecondlt := hlength ▸ lt_of_count hsecond
      rw [data_store hfirstlt, data_store hsecondlt] at hhash
      exact h first second (hlive first hfirstlt hfirst) (hlive second hsecondlt hsecond) hhash
  | none =>
      have hlt : t.records.length < 999 := by simpa only [HasRoom, hfind] using hroom
      have hrecords : (t.store host buf).2.records = t.records ++ [Record.new buf] := by
        rw [t.store_of_find_none host hfind]
        exact add_records t hlt
      have hnew : (t.store host buf).2.data t.records.length = cString buf := by
        simp [data, hrecords]
      -- no live record has the hash of the new one
      have hold : ∀ index < t.records.length, (t.store host buf).2.count index ≠ 0 →
          generateHash host ((t.store host buf).2.data index) ≠ generateHash host buf := by
        intro index hindex hcount
        have hrecord := List.getElem?_eq_getElem hindex
        rw [data_store hindex, data_eq hrecord]
        refine t.find_eq_none host hfind (List.getElem_mem hindex) ?_
        rw [← count_eq hrecord]
        exact hlive index hindex hcount
      intro first second hfirst hsecond hhash
      have hfirstlt := lt_of_count hfirst
      have hsecondlt := lt_of_count hsecond
      rw [hrecords, List.length_append, List.length_singleton] at hfirstlt hsecondlt
      -- each of the two is an old record or the new one
      rcases Nat.lt_succ_iff_lt_or_eq.mp hfirstlt with hf | rfl <;>
        rcases Nat.lt_succ_iff_lt_or_eq.mp hsecondlt with hs | rfl
      · rw [data_store hf, data_store hs] at hhash
        exact h first second (hlive first hf hfirst) (hlive second hs hsecond) hhash
      · rw [hnew, generateHash_cString] at hhash
        exact absurd hhash (hold first hf hfirst)
      · rw [hnew, generateHash_cString] at hhash
        exact absurd hhash.symm (hold second hs hsecond)
      · rfl

theorem Distinct.releaseAll (h : t.Distinct host) (indices : List Nat) :
    (t.releaseAll indices).Distinct host := by
  intro first second hfirst hsecond hhash
  rw [count_releaseAll] at hfirst hsecond
  rw [data_releaseAll, data_releaseAll] at hhash
  exact h first second (by omega) (by omega) hhash

end Table

namespace Ledger

variable {host : Host} {m : Ledger}

theorem table_serve (request : Request) (hadmits : m.Admits host request) :
    (∃ buf, m.table.HasRoom host buf ∧
      (m.serve host request).table = (m.table.store host buf).2) ∨
    ∃ indices, (m.serve host request).table = m.table.releaseAll indices := by
  cases request with
  | write path buf offset =>
      cases hpath : m.rootdir.resolve path with
      | error errno => exact .inr ⟨[], congrArg table (serve_write_of_error hpath _ _)⟩
      | ok inode => exact .inl ⟨buf, (hadmits inode hpath).2.1, table_write hpath⟩
  | truncate path newsize =>
      cases hpath : m.rootdir.resolve path with
      | error errno => exact .inr ⟨[], congrArg table (serve_truncate_of_error hpath _)⟩
      | ok inode =>
          refine .inr ⟨[], ?_⟩
          rw [serve_truncate_of_resolve hpath]
          rfl
  | unlink path =>
      cases hpath : m.rootdir.resolve path with
      | error errno =>
          refine .inr ⟨[], ?_⟩
          rw [serve, table_logSyscall, deleteBlocks_of_error hpath]
          rfl
      | ok inode => exact .inr ⟨m.seen inode, table_unlink hpath⟩
  | mknod path => exact .inr ⟨[], table_logSyscall _⟩
  | rename path newpath => exact .inr ⟨[], table_logSyscall _⟩
  | link path newpath => exact .inr ⟨[], table_logSyscall _⟩
  | symlink path link => exact .inr ⟨[], table_logSyscall _⟩

theorem distinct_serve (h : m.table.Distinct host) {request : Request}
    (hadmits : m.Admits host request) : (m.serve host request).table.Distinct host := by
  rcases table_serve request hadmits with ⟨buf, hroom, htable⟩ | ⟨indices, htable⟩
  · rw [htable]
    exact h.store hroom
  · rw [htable]
    exact h.releaseAll indices

theorem dead_serve {request : Request} (hadmits : m.Admits host request) {index : Nat}
    (hindex : index < m.table.records.length) (hdead : m.table.count index = 0) :
    index < (m.serve host request).table.records.length ∧
      (m.serve host request).table.count index = 0 := by
  rcases table_serve request hadmits with ⟨buf, hroom, htable⟩ | ⟨indices, htable⟩
  · rw [htable]
    exact ⟨hindex.trans_le (Table.store_length_le host _ buf),
      Table.count_store_eq_zero hroom hindex hdead⟩
  · rw [htable, Table.releaseAll_length, Table.count_releaseAll, hdead]
    exact ⟨hindex, Nat.zero_sub _⟩

end Ledger

/-! ## On the disk -/

structure BbState.Deduplicated (host : Host) (s : BbState) : Prop where
  length_eq : ((s.file .hashes).getD []).length = 45 * s.lastId
  unique : ∀ first second, 1 ≤ first → first ≤ s.lastId → 1 ≤ second → second ≤ s.lastId →
    s.counterField first ≠ padDecimal 2 0 → s.counterField second ≠ padDecimal 2 0 →
      s.hashField first = s.hashField second → first = second
  block_iff : ∀ id, 1 ≤ id → id ≤ s.lastId →
    (s.file (.block (padDecimal 3 id)) ≠ none ↔ s.counterField id ≠ padDecimal 2 0)
  block_only : ∀ name, s.file (.block name) ≠ none →
    ∃ id, 1 ≤ id ∧ id ≤ s.lastId ∧ name = padDecimal 3 id
  hash_eq : ∀ id content, 1 ≤ id → id ≤ s.lastId →
    s.file (.block (padDecimal 3 id)) = some content →
      hexBytes (host.sha1 content).toList = s.hashField id

namespace Stores

variable {host : Host} {s : BbState} {t : Table}

theorem exists_record (h : Stores host s t) {id : Nat} (hpos : 1 ≤ id) (hle : id ≤ s.lastId) :
    ∃ index record, id = index + 1 ∧ t.records[index]? = some record := by
  rw [h.lastId_eq] at hle
  exact ⟨id - 1, _, by omega, List.getElem?_eq_getElem (by omega)⟩

theorem counterField_eq_zero_iff (h : Stores host s t) {index : Nat} {record : Record}
    (hrecord : t.records[index]? = some record) :
    s.counterField (index + 1) = padDecimal 2 0 ↔ t.count index = 0 := by
  rw [h.counterField hrecord, (padDecimal_injective 2).eq_iff, Table.count_eq hrecord]

theorem deduplicated (h : Stores host s t) (hdistinct : t.Distinct host) :
    s.Deduplicated host where
  length_eq := by rw [h.hashes_eq, t.bytes_length, h.lastId_eq]
  unique := by
    intro first second hfirst hfirstle hsecond hsecondle hlive hlive' hhash
    obtain ⟨i, record, rfl, hi⟩ := h.exists_record hfirst hfirstle
    obtain ⟨j, record', rfl, hj⟩ := h.exists_record hsecond hsecondle
    rw [Ne, h.counterField_eq_zero_iff hi] at hlive
    rw [Ne, h.counterField_eq_zero_iff hj] at hlive'
    rw [h.hashField hi, h.hashField hj, ← Table.data_eq hi, ← Table.data_eq hj] at hhash
    rw [hdistinct i j hlive hlive' hhash]
  block_iff := by
    intro id hpos hle
    obtain ⟨index, record, rfl, hrecord⟩ := h.exists_record hpos hle
    rw [Ne, Ne, h.counterField_eq_zero_iff hrecord, Table.count_eq hrecord,
      h.block_eq index record hrecord]
    split <;> simp_all
  block_only := by
    intro name hname
    obtain ⟨index, hindex, rfl⟩ := h.block_only name hname
    exact ⟨index + 1, by omega, by rw [h.lastId_eq]; omega, rfl⟩
  hash_eq := by
    intro id content hpos hle hcontent
    obtain ⟨index, record, rfl, hrecord⟩ := h.exists_record hpos hle
    rw [h.block_eq index record hrecord] at hcontent
    split at hcontent
    · contradiction
    · cases hcontent
      rw [h.hashField hrecord, generateHash, record.nulFree.cString_eq]

end Stores

/-! ## Runs -/

theorem distinct_initial (host : Host) : Ledger.initial.table.Distinct host := by
  intro first second hfirst
  simp [Ledger.initial, Table.empty, Table.count] at hfirst

theorem run_dead {host : Host} (hgrants : host.Grants) {s : BbState} {m : Ledger}
    (hs : Represents host s m) {requests : List Request}
    (hrun : Along (serve host) (Orderly host) s requests) {index : Nat}
    (hindex : index < m.table.records.length) (hdead : m.table.count index = 0) :
    ∃ s', run (serve host) s requests = .ok s' ∧ ∃ m', Represents host s' m' ∧
      index < m'.table.records.length ∧ m'.table.count index = 0 := by
  refine run_invariant (fun s => ∃ m, Represents host s m ∧
    index < m.table.records.length ∧ m.table.count index = 0) ?_ ⟨m, hs, hindex, hdead⟩ hrun
  rintro s request ⟨m, hs, hindex, hdead⟩ horderly
  obtain ⟨s', hok, hs'⟩ := hs.serve hgrants horderly
  exact ⟨s', hok, _, hs', Ledger.dead_serve (Ledger.Admits.of_orderly hs hgrants horderly)
    hindex hdead⟩

theorem run_distinct {host : Host} (hgrants : host.Grants) {requests : List Request}
    (hrun : Along (serve host) (Orderly host) freshMount requests) :
    ∃ s, run (serve host) freshMount requests = .ok s ∧
      ∃ m, Represents host s m ∧ m.table.Distinct host := by
  refine run_invariant (fun s => ∃ m, Represents host s m ∧ m.table.Distinct host) ?_
    ⟨_, represents_freshMount host, distinct_initial host⟩ hrun
  rintro s request ⟨m, hs, hdistinct⟩ horderly
  obtain ⟨s', hok, hs'⟩ := hs.serve hgrants horderly
  exact ⟨s', hok, _, hs',
    Ledger.distinct_serve hdistinct (Ledger.Admits.of_orderly hs hgrants horderly)⟩

/--
The store stays deduplicated over every orderly run, and a record that died in
some state of the run is dead at its end.
-/
theorem run_deduplicated (sha1 : Bytes → Vector UInt8 20) (requests : List Request)
    (hrun : Along (serve (.granting sha1)) (Orderly (.granting sha1)) freshMount requests) :
    ∃ s, run (serve (.granting sha1)) freshMount requests = .ok s ∧
      s.Deduplicated (.granting sha1) ∧
      ∀ first second, requests = first ++ second →
        ∃ s₁, run (serve (.granting sha1)) freshMount first = .ok s₁ ∧
          ∀ id, 1 ≤ id → id ≤ s₁.lastId → s₁.counterField id = padDecimal 2 0 →
            id ≤ s.lastId ∧ s.counterField id = padDecimal 2 0 := by
  have hgrants := Host.granting_grants sha1
  obtain ⟨s, hok, m, hs, hdistinct⟩ := run_distinct hgrants hrun
  refine ⟨s, hok, hs.stores.deduplicated hdistinct, ?_⟩
  rintro first second rfl
  obtain ⟨s₁, hfirst, m₁, hs₁, -⟩ := run_distinct hgrants hrun.of_append
  refine ⟨s₁, hfirst, fun id hpos hle hdead => ?_⟩
  obtain ⟨index, record, rfl, hrecord⟩ := hs₁.stores.exists_record hpos hle
  rw [hs₁.stores.counterField_eq_zero_iff hrecord] at hdead
  obtain ⟨s₂, hsecond, m₂, hs₂, hindex, hcount⟩ := run_dead hgrants hs₁
    ((along_append hfirst).mp hrun).2 (Table.index_lt hrecord) hdead
  rw [run_append second hfirst, hsecond, Except.ok.injEq] at hok
  subst s₂
  rw [hs₂.stores.counterField_eq_zero_iff (List.getElem?_eq_getElem hindex),
    hs₂.stores.lastId_eq]
  exact ⟨hindex, hcount⟩

def revivalRun : List Request :=
  [.mknod "a", .write "a" [97] 0, .write "a" [97] 4069, .unlink "a", .mknod "b",
    .write "b" [97] 0]

theorem run_deduplicated_revivalRun :
    ∃ s, run (serve (.granting sampleSha1)) freshMount revivalRun = .ok s ∧
      s.Deduplicated (.granting sampleSha1) :=
  (run_deduplicated sampleSha1 revivalRun (by decide +kernel)).imp fun _ h => ⟨h.1, h.2.1⟩

end Ece318.Bbfs
