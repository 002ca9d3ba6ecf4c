import Mathlib.Data.Finset.Card
import Ece318.Bbfs.AnyStore
import Ece318.Bbfs.TableRuns

/-!
# Stopping and starting

`main` finds `last_id` by counting the files of `.real_storage`, and a record
that has lost its block is not among them.  So a mount goes on where the last
one stopped if every block ever stored is still there.  If one is gone,
`last_id` starts too low, and ids are given away again.
-/

namespace Ece318.Bbfs

open Ece318.Foundation

/-- What the start of the program must not break. -/
structure RemountSafe (host : Host) (s : BbState) : Prop where
  lastId_eq : (mount s).lastId = s.lastId
  readFile_eq : ∀ path, readFile host (mount s) path = readFile host s path
  write : ∀ path fh buf offset, s.rootdir.resolve path = .ok fh →
    buf.length ≤ maxBlockSize → s.lastId < (compareHashes host s (generateHash host buf)).1 →
      ∃ id written s', writeBlocks host (mount s) buf = .ok (id, written) ∧
        serve host (mount s) (.write path buf offset) = .ok s' ∧
        (∀ index < s.lastId, id ≠ padDecimal 3 (index + 1)) ∧
        (∃ line, s'.file .hashes = some ((s.file .hashes).getD [] ++ line)) ∧
        (∀ name content, s.file (.block name) = some content →
          s'.file (.block name) = some content) ∧
        ∀ other, s.rootdir.resolve other ≠ .ok fh →
          readFile host s' other = readFile host s other

theorem WritesBlock.lastId_le {s s' : BbState} {data : Bytes} {id : Int}
    (h : WritesBlock s s' data id) : s.lastId ≤ s'.lastId := by
  obtain ⟨hlast, -⟩ | hadds := h.old_or_new
  · exact hlast.ge
  · rw [hadds.lastId_eq]
    omega

/-! ## What every run leaves in the two directories -/

/--
`.real_storage` holds the hashes file and blocks with ids up to `last_id`, and
pointers files are made of entries, none of which names a later block.
-/
structure Tidy (s : BbState) : Prop where
  hashes : s.lastId ≠ 0 → s.file .hashes ≠ none
  known : ∀ name, s.file name ≠ none →
    name = .hashes ∨ ∃ index < s.lastId, name = blockOf index
  slots : ∀ inode, ∃ slots, s.rootdir.data inode = slots.flatten ∧ Uniform idLength slots ∧
    ∀ slot ∈ slots, ∀ index, s.lastId ≤ index → cString slot ≠ padDecimal 3 (index + 1)

namespace Tidy

variable {host : Host} {s s' : BbState}

theorem freshMount : Tidy freshMount :=
  ⟨by simp [Bbfs.freshMount, mount, getInitialIdNumber],
    fun name hname => absurd rfl hname,
    fun inode => ⟨[], rfl, uniform_nil, by simp⟩⟩

theorem of_data (h : Tidy s) (hlast : s'.lastId = s.lastId)
    (hfile : ∀ name, s'.file name = s.file name)
    (hdata : ∀ inode, s'.rootdir.data inode = [] ∨
      ∃ other, s'.rootdir.data inode = s.rootdir.data other) : Tidy s' where
  hashes := by
    rw [hlast, hfile]
    exact h.hashes
  known := by
    intro name hname
    rw [hfile] at hname
    rw [hlast]
    exact h.known name hname
  slots := by
    intro inode
    rw [hlast]
    rcases hdata inode with hnil | ⟨other, hold⟩
    · exact ⟨[], hnil, uniform_nil, by simp⟩
    · rw [hold]
      exact h.slots other

theorem loses (h : Tidy s) (hloses : Loses s s') : Tidy s' where
  hashes := by
    rw [hloses.lastId_eq]
    exact fun hlast => hloses.hashes (h.hashes hlast)
  known := by
    intro name hname
    rw [hloses.lastId_eq]
    by_cases hhashes : name = .hashes
    · exact .inl hhashes
    · rcases hloses.file name hhashes with heq | hnone
      · exact h.known name (heq ▸ hname)
      · exact absurd hnone hname
  slots := by
    intro inode
    rw [hloses.lastId_eq]
    rcases hloses.data inode with heq | hnil
    · rw [heq]
      exact h.slots inode
    · exact ⟨[], hnil, uniform_nil, by simp⟩

theorem logSyscall (h : Tidy s) {result : Except Errno (FileSystem Path Bytes)}
    (hdata : ∀ rootdir, result = .ok rootdir → ∀ inode, rootdir.data inode = [] ∨
      rootdir.data inode = s.rootdir.data inode) :
    Tidy (Bbfs.logSyscall s result).2 := by
  cases result with
  | error errno => exact h
  | ok rootdir =>
      refine h.of_data rfl (fun _ => rfl) fun inode => ?_
      rcases hdata rootdir rfl inode with hnil | hold
      · exact .inl hnil
      · exact .inr ⟨inode, hold⟩

theorem writesBlock (h : Tidy s) {data : Bytes} {id : Int} (hwrites : WritesBlock s s' data id) :
    Tidy s' where
  hashes := fun _ => hwrites.hashes
  known := by
    intro name hname
    by_cases hhashes : name = .hashes
    · exact .inl hhashes
    · right
      obtain ⟨hlast, hfile⟩ | hadds := hwrites.old_or_new
      · rw [hfile name hhashes] at hname
        rw [hlast]
        exact (h.known name hname).resolve_left hhashes
      · rw [hadds.file_eq name hhashes] at hname
        rw [hadds.lastId_eq]
        by_cases hnew : name = blockOf s.lastId
        · exact ⟨s.lastId, by omega, hnew⟩
        · rw [if_neg hnew] at hname
          obtain ⟨index, hlt, hblock⟩ := (h.known name hname).resolve_left hhashes
          exact ⟨index, by omega, hblock⟩
  slots := by
    intro inode
    obtain ⟨slots, hslots, huniform, hold⟩ := h.slots inode
    have hle := hwrites.lastId_le
    rw [hwrites.rootdir_eq]
    exact ⟨slots, hslots, huniform, fun slot hslot index hindex =>
      hold slot hslot index (hle.trans hindex)⟩

theorem setSlot (h : Tidy s) (inode slot : Nat) {id : Int} (hlow : -100 < id)
    (hhigh : id ≤ s.lastId) (hlimit : s.lastId ≤ 999) :
    Tidy (s.setPointers inode (writeAt (s.rootdir.data inode) (formatInt 3 id)
      (slot * idLength))) where
  hashes := h.hashes
  known := h.known
  slots := by
    intro other
    by_cases hother : other = inode
    · subst other
      obtain ⟨slots, hslots, huniform, hold⟩ := h.slots inode
      have hwidth : (formatInt 3 id).length = idLength :=
        formatInt_length (by norm_num; omega) (by norm_num; omega) (by decide)
      obtain ⟨slots', hwrite, huniform', hmem⟩ :=
        exists_uniform_writeAt huniform hwidth (by decide) slot
      refine ⟨slots', ?_, huniform', fun entry hentry index hindex => ?_⟩
      · simp only [BbState.rootdir_setPointers, FileSystem.data_write, Function.update_self]
        rw [hslots, Nat.mul_comm, hwrite]
      · -- an old entry, the new one, or three zero bytes of a gap
        rcases hmem entry hentry with hmem | rfl | rfl
        · exact hold entry hmem index hindex
        · rw [(nulFree_formatInt 3 id).cString_eq, ← formatInt_natCast 3]
          intro heq
          have hid := formatInt_injective 3 heq
          simp only [BbState.lastId_setPointers] at hindex
          omega
        · exact (padDecimal_ne_nil 3 (index + 1)).symm
    · simp only [BbState.rootdir_setPointers, FileSystem.data_write,
        Function.update_of_ne hother]
      exact h.slots other

end Tidy

def Request.KeepsEntries : Request → Prop
  | .truncate _ newsize => newsize = 0
  | _ => True

section

variable {host : Host} {s s' : BbState}

theorem write_cases (hgrants : host.Grants) {path : Path} {buf : Bytes} {offset fh : Nat}
    (hpath : s.rootdir.resolve path = .ok fh)
    (hok : serve host s (.write path buf offset) = .ok s') :
    ∃ id written, WritesBlock s written buf id ∧
      s' = written.setPointers fh (writeAt (written.rootdir.data fh) (formatInt 3 id)
        (offset / bbfsMaxBlockSize * idLength)) := by
  simp only [serve, hpath, map_eq_ok] at hok
  obtain ⟨answer, hok, rfl⟩ := hok
  obtain ⟨⟨text, written⟩, hwrite, hok⟩ := bind_eq_ok.mp hok
  obtain ⟨id, rfl, hcases⟩ := writeBlocks_cases hgrants hwrite
  obtain rfl := Except.ok.inj hok
  exact ⟨id, written, hcases, rfl⟩

theorem unlink_cases {path : Path} (hok : serve host s (.unlink path) = .ok s') :
    ∃ deleted, Loses s deleted ∧ s' = (logSyscall deleted
      (if host.mayUnlink then deleted.rootdir.unlink path else .error .accessDenied)).2 := by
  simp only [serve, map_eq_ok] at hok
  obtain ⟨answer, hok, rfl⟩ := hok
  obtain ⟨deleted, hdelete, hok⟩ := bind_eq_ok.mp hok
  cases hok
  exact ⟨deleted, deleteBlocks_loses hdelete, rfl⟩

@[simp] theorem lastId_logSyscall (result : Except Errno (FileSystem Path Bytes)) :
    (logSyscall s result).2.lastId = s.lastId := by
  cases result <;> rfl

theorem lastId_le_serve (hgrants : host.Grants) {request : Request}
    (hok : serve host s request = .ok s') : s.lastId ≤ s'.lastId := by
  cases request with
  | write path buf offset =>
      cases hpath : s.rootdir.resolve path with
      | error errno =>
          simp only [serve, hpath, Except.ok.injEq] at hok
          rw [hok]
      | ok fh =>
          obtain ⟨id, written, hwrites, rfl⟩ := write_cases hgrants hpath hok
          exact hwrites.lastId_le
  | unlink path =>
      obtain ⟨deleted, hloses, rfl⟩ := unlink_cases hok
      rw [lastId_logSyscall, hloses.lastId_eq]
  | truncate path newsize =>
      simp only [serve, bbTruncate, Except.ok.injEq] at hok
      subst s'
      split <;> rfl
  | mknod path =>
      simp only [serve, bbMknod, Except.ok.injEq] at hok
      rw [← hok, lastId_logSyscall]
  | rename path newpath =>
      simp only [serve, bbRename, Except.ok.injEq] at hok
      rw [← hok, lastId_logSyscall]
  | link path newpath =>
      simp only [serve, bbLink, Except.ok.injEq] at hok
      rw [← hok, lastId_logSyscall]
  | symlink path link =>
      simp only [serve, bbSymlink, Except.ok.injEq] at hok
      rw [← hok, lastId_logSyscall]

theorem Tidy.serve (h : Tidy s) (hgrants : host.Grants) {request : Request}
    (hkeeps : request.KeepsEntries) (hok : serve host s request = .ok s')
    (hlimit : s'.lastId ≤ 999) : Tidy s' := by
  cases request with
  | write path buf offset =>
      cases hpath : s.rootdir.resolve path with
      | error errno =>
          simp only [Bbfs.serve, hpath, Except.ok.injEq] at hok
          rwa [← hok]
      | ok fh =>
          obtain ⟨id, written, hwrites, rfl⟩ := write_cases hgrants hpath hok
          exact (h.writesBlock hwrites).setSlot fh _ hwrites.id_gt hwrites.id_le hlimit
  | unlink path =>
      obtain ⟨deleted, hloses, rfl⟩ := unlink_cases hok
      refine (h.loses hloses).logSyscall fun rootdir hresult inode => ?_
      split at hresult
      · exact .inr (congrFun (FileSystem.data_of_unlink hresult) inode)
      · contradiction
  | truncate path newsize =>
      cases hkeeps
      simp only [Bbfs.serve, bbTruncate, Except.ok.injEq, resize_zero] at hok
      subst s'
      split
      · rename_i inode _
        refine h.of_data rfl (fun _ => rfl) fun other => ?_
        by_cases hother : other = inode
        · exact .inl (by simp [hother])
        · exact .inr ⟨other, by simp [Function.update_of_ne hother]⟩
      · exact h
  | mknod path =>
      simp only [Bbfs.serve, bbMknod, Except.ok.injEq] at hok
      rw [← hok]
      exact h.logSyscall fun rootdir hresult inode => FileSystem.data_of_create hresult inode
  | rename path newpath =>
      simp only [Bbfs.serve, bbRename, Except.ok.injEq] at hok
      rw [← hok]
      exact h.logSyscall fun rootdir hresult inode =>
        .inr (congrFun (FileSystem.linked_rename_subset hresult).2 inode)
  | link path newpath =>
      simp only [Bbfs.serve, bbLink, Except.ok.injEq] at hok
      rw [← hok]
      exact h.logSyscall fun rootdir hresult inode =>
        .inr (congrFun (FileSystem.data_of_link hresult) inode)
  | symlink path link =>
      simp only [Bbfs.serve, bbSymlink, Except.ok.injEq] at hok
      rw [← hok]
      exact h.logSyscall fun rootdir hresult inode => FileSystem.data_of_symlink hresult inode

theorem run_tidy (hgrants : host.Grants) {requests : List Request}
    (hkeeps : ∀ request ∈ requests, request.KeepsEntries)
    (hrun : run (Bbfs.serve host) freshMount requests = .ok s) (hlimit : s.lastId ≤ 999) :
    Tidy s := by
  have hguard : Along (Bbfs.serve host) (fun _ request => request.KeepsEntries) freshMount
      requests := .of_forall (fun request hmem _ => hkeeps request hmem) _
  refine run_preserves (fun s => s.lastId ≤ 999 → Tidy s) ?_ (fun _ => .freshMount) hguard
    hrun hlimit
  intro s request s' h hkeeps hok hlimit
  exact (h ((lastId_le_serve hgrants hok).trans hlimit)).serve hgrants hkeeps hok hlimit

/-! ## What `main` counts -/

theorem Tidy.getInitialIdNumber_eq (h : Tidy s) :
    getInitialIdNumber s.hiddendir =
      ((Finset.range s.lastId).filter fun index => s.file (blockOf index) ≠ none).card := by
  have hmem : ∀ name, name ∈ s.hiddendir.keys.toFinset ↔ s.file name ≠ none := by
    intro name
    rw [List.mem_toFinset, ← AList.mem_keys, ← AList.lookup_isSome, Option.isSome_iff_ne_none]
    rfl
  have hblocks : s.hiddendir.keys.toFinset.erase .hashes =
      ((Finset.range s.lastId).filter fun index => s.file (blockOf index) ≠ none).image
        blockOf := by
    ext name
    simp only [Finset.mem_erase, hmem, Finset.mem_image, Finset.mem_filter, Finset.mem_range]
    constructor
    · rintro ⟨hne, hname⟩
      obtain ⟨index, hlt, rfl⟩ := (h.known name hname).resolve_left hne
      exact ⟨index, ⟨hlt, hname⟩, rfl⟩
    · rintro ⟨index, ⟨hlt, hname⟩, rfl⟩
      exact ⟨by simp, hname⟩
  have hcard : s.hiddendir.entries.length = s.hiddendir.keys.toFinset.card := by
    rw [List.toFinset_card_of_nodup s.hiddendir.keys_nodup, AList.keys, List.keys,
      List.length_map]
  have hcount := congrArg Finset.card hblocks
  rw [Finset.card_image_of_injective _ blockOf_injective] at hcount
  rw [← hcount, getInitialIdNumber, hcard]
  by_cases hhashes : StorageFile.hashes ∈ s.hiddendir.keys.toFinset
  · have hpos := Finset.card_pos.mpr ⟨_, hhashes⟩
    rw [Finset.card_erase_of_mem hhashes]
    split <;> omega
  · -- without a hashes file nothing has been stored yet
    have hzero : s.lastId = 0 := by
      by_contra hlast
      exact hhashes ((hmem _).mpr (h.hashes hlast))
    rw [Finset.erase_eq_of_notMem hhashes] at hcount ⊢
    rw [hzero, Finset.range_zero, Finset.filter_empty, Finset.card_empty] at hcount
    simp [hcount]

theorem Tidy.lastId_mount_iff (h : Tidy s) :
    (mount s).lastId = s.lastId ↔ ∀ index < s.lastId, s.file (blockOf index) ≠ none := by
  rw [mount, BbState.lastId_setLastId, h.getInitialIdNumber_eq]
  have hiff := Finset.card_filter_eq_iff (s := Finset.range s.lastId)
    (p := fun index => s.file (blockOf index) ≠ none)
  rw [Finset.card_range] at hiff
  rw [hiff]
  simp only [Finset.mem_range]

theorem Tidy.entry_ne (h : Tidy s) {inode : Nat} {id : Bytes}
    (hid : id ∈ entries idLength (s.rootdir.data inode)) :
    StorageFile.block (cString id) ≠ blockOf s.lastId := by
  obtain ⟨slots, hslots, huniform, hold⟩ := h.slots inode
  rw [hslots, entries_flatten huniform (by decide)] at hid
  intro heq
  exact hold id hid s.lastId le_rfl (StorageFile.block.inj heq)

theorem Tidy.remountSafe_iff (h : Tidy s) (hgrants : host.Grants) :
    RemountSafe host s ↔ ∀ index < s.lastId, s.file (blockOf index) ≠ none := by
  constructor
  · exact fun hsafe => h.lastId_mount_iff.mp hsafe.lastId_eq
  · intro hall
    have hlast := h.lastId_mount_iff.mpr hall
    -- the start leaves the state as it was
    have hmount : mount s = s := by
      rw [mount, BbState.lastId_setLastId] at hlast
      rw [mount, hlast]
      rfl
    refine ⟨hlast, by simp [hmount], ?_⟩
    intro path fh buf offset hpath hsize hnew
    rw [hmount]
    obtain ⟨written, hwrite, hadds⟩ := writeBlocks_new hgrants hsize hnew
    refine ⟨_, written, _, hwrite, serve_write_eq hpath hwrite offset, ?_,
      hadds.hashes_eq, ?_, ?_⟩
    · intro index hindex heq
      exact hindex.ne (idText_injective heq).symm
    · intro name content hname
      have hnext : StorageFile.block name ≠ blockOf s.lastId := by
        intro heq
        obtain ⟨index, hlt, hblock⟩ := (h.known (.block name) (by simp [hname])).resolve_left
          (by simp)
        rw [heq, blockOf_inj] at hblock
        omega
      rw [BbState.file_setPointers, hadds.file_eq _ (by simp), if_neg hnext, hname]
    · intro other hother
      refine readFile_congr hgrants (by simp [hadds.rootdir_eq]) ?_ ?_
      · intro inode hinode
        have hne : inode ≠ fh := fun heq => hother (heq ▸ hinode)
        simp [hadds.rootdir_eq, Function.update_of_ne hne]
      · intro inode _ id hid
        rw [BbState.file_setPointers, hadds.file_eq _ (by simp), if_neg (h.entry_ne hid)]

end

/-! ## Runs that keep every block -/

/-- An unlink leaves every record that it updates a reference. -/
def SparesBlocks (host : Host) (s : BbState) : Request → Prop
  | .unlink path => ∀ id ∈ updatedIds host s (.unlink path),
      ((updatedIds host s (.unlink path)).count id : Int) < atoi (s.counterField id)
  | _ => True

instance (host : Host) (s : BbState) (request : Request) :
    Decidable (SparesBlocks host s request) :=
  match request with
  | .unlink path => inferInstanceAs (Decidable (∀ id ∈ updatedIds host s (.unlink path),
      ((updatedIds host s (.unlink path)).count id : Int) < atoi (s.counterField id)))
  | .mknod _ | .write _ _ _ | .truncate _ _ | .rename _ _ | .link _ _ | .symlink _ _ =>
      .isTrue trivial

def Table.Live (t : Table) : Prop := ∀ index < t.records.length, t.count index ≠ 0

theorem Table.Live.store {host : Host} {t : Table} (h : t.Live) {buf : Bytes}
    (hroom : t.HasRoom host buf) : (t.store host buf).2.Live := by
  intro index hindex
  rw [count_store hroom]
  rcases Nat.lt_or_ge index t.records.length with hlt | hge
  · have hlive := h index hlt
    omega
  · cases hfind : t.find host buf with
    | some found =>
        rw [t.store_of_find_some host hfind, share_records, List.length_modify] at hindex
        omega
    | none =>
        have hlt : t.records.length < 999 := by simpa only [HasRoom, hfind] using hroom
        have hstore := t.store_of_find_none host hfind
        rw [hstore, add_records t hlt, List.length_append, List.length_singleton] at hindex
        rw [hstore]
        rw [if_pos (by omega)]
        omega

theorem run_live {host : Host} (hgrants : host.Grants) {requests : List Request}
    (hrun : Along (serve host)
      (fun s request => KeepsTable host s request ∧ SparesBlocks host s request) freshMount
      requests) :
    ∃ s, run (serve host) freshMount requests = .ok s ∧ ∃ t, Stores host s t ∧ t.Live := by
  refine run_invariant (fun s => ∃ t, Stores host s t ∧ t.Live) ?_
    ⟨_, stores_freshMount host, by simp [Table.Live, Table.empty]⟩ hrun
  rintro s request ⟨t, hs, hlive⟩ ⟨hkeeps, hspares⟩
  obtain ⟨s', t', hok, hs', ⟨path, buf, offset, rfl, hroom, rfl⟩ | rfl |
    ⟨path, indices, rfl, rfl, hnamed⟩⟩ := hs.serve hgrants hkeeps
  · exact ⟨s', hok, _, hs', hlive.store hroom⟩
  · exact ⟨s', hok, _, hs', hlive⟩
  · refine ⟨s', hok, _, hs', fun index hindex => ?_⟩
    rw [Table.releaseAll_length] at hindex
    rw [Table.count_releaseAll]
    have hlive := hlive index hindex
    have hnamed := hnamed index
    by_cases hmem : index + 1 ∈ updatedIds host s (.unlink path)
    · have hspare := hspares (index + 1) hmem
      rw [hs.counterField_count hindex, atoi_padDecimal] at hspare
      omega
    · rw [List.count_eq_zero_of_not_mem hmem] at hnamed
      omega

/--
A run without truncations inside an entry stops safely exactly if no block
file is missing by then, and none is if no unlink takes a last reference.
-/
theorem remount_safe_iff (sha1 : Bytes → Vector UInt8 20) (requests : List Request)
    (s : BbState) (hkeeps : ∀ request ∈ requests, request.KeepsEntries)
    (hrun : run (serve (.granting sha1)) freshMount requests = .ok s)
    (hlimit : s.lastId ≤ 999) :
    (RemountSafe (.granting sha1) s ↔
      ∀ id, 1 ≤ id → id ≤ s.lastId → s.file (.block (padDecimal 3 id)) ≠ none) ∧
    (Along (serve (.granting sha1))
        (fun s request => KeepsTable (.granting sha1) s request ∧
          SparesBlocks (.granting sha1) s request) freshMount requests →
      RemountSafe (.granting sha1) s) := by
  have hgrants := Host.granting_grants sha1
  have htidy := run_tidy hgrants hkeeps hrun hlimit
  constructor
  · rw [htidy.remountSafe_iff hgrants]
    constructor
    · intro hall id hpos hle
      obtain ⟨index, rfl⟩ : ∃ index, id = index + 1 := ⟨id - 1, by omega⟩
      exact hall index hle
    · exact fun hall index hlt => hall (index + 1) (by omega) hlt
  · intro halong
    obtain ⟨s', hok, t, hs, hlive⟩ := run_live hgrants halong
    rw [hrun, Except.ok.injEq] at hok
    subst s'
    refine (htidy.remountSafe_iff hgrants).mpr fun index hindex => ?_
    rw [hs.lastId_eq] at hindex
    have hrecord := List.getElem?_eq_getElem hindex
    rw [hs.block_eq index _ hrecord, if_neg fun hzero => hlive index hindex
      ((Table.count_eq hrecord).trans hzero)]
    simp

def sharedRun : List Request :=
  [.mknod "a", .write "a" [97] 0, .mknod "b", .write "b" [97] 0, .unlink "a"]

theorem remount_safe_iff_sharedRun :
    ∃ s, run (serve (.granting sampleSha1)) freshMount sharedRun = .ok s ∧
      RemountSafe (.granting sampleSha1) s := by
  have hends : ∃ s, run (serve (.granting sampleSha1)) freshMount sharedRun = .ok s ∧
      s.lastId ≤ 999 := by
    decide +kernel
  obtain ⟨s, hrun, hlimit⟩ := hends
  have hkeeps : ∀ request ∈ sharedRun, request.KeepsEntries := by
    simp [sharedRun, Request.KeepsEntries]
  exact ⟨s, hrun, (remount_safe_iff sampleSha1 sharedRun s hkeeps hrun hlimit).2
    (by decide +kernel)⟩

def removedRun : List Request :=
  [.mknod "a", .write "a" [97] 0, .mknod "b", .write "b" [98] 0, .unlink "a"]

/-- After the restart the next new block overwrites the one that is left. -/
theorem removedRun_overwrites :
    ∃ s, run (serve (.granting sampleSha1)) freshMount removedRun = .ok s ∧
      ¬ RemountSafe (.granting sampleSha1) s ∧
      readFile (.granting sampleSha1) s "b" = .ok (some [98]) ∧
      ∃ s', run (serve (.granting sampleSha1)) (mount s)
          [.mknod "c", .write "c" [99] 0] = .ok s' ∧
        readFile (.granting sampleSha1) s' "b" = .ok (some [99]) := by
  have hdamage : ∃ s, run (serve (.granting sampleSha1)) freshMount removedRun = .ok s ∧
      (mount s).lastId ≠ s.lastId ∧
      readFile (.granting sampleSha1) s "b" = .ok (some [98]) ∧
      ∃ s', run (serve (.granting sampleSha1)) (mount s)
          [.mknod "c", .write "c" [99] 0] = .ok s' ∧
        readFile (.granting sampleSha1) s' "b" = .ok (some [99]) := by
    decide +kernel
  obtain ⟨s, hrun, hlast, hreads⟩ := hdamage
  exact ⟨s, hrun, fun hsafe => hlast hsafe.lastId_eq, hreads⟩

end Ece318.Bbfs
