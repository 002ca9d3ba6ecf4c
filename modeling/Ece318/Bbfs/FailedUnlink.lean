import Ece318.Bbfs.AnyStore
import Ece318.Bbfs.TableRuns

/-!
# An unlink that the kernel refuses

`bb_unlink` releases the blocks of the file and only then calls `unlink`.  If
the directory is not writable the name stays, with what is left of its blocks.
-/

namespace Ece318.Bbfs

open Ece318.Foundation

/-- Pointers, counters and block files are as they were, and so is what is read. -/
structure Intact (host : Host) (s s' : BbState) : Prop where
  pointers_eq : ∀ inode, s'.rootdir.data inode = s.rootdir.data inode
  counter_eq : ∀ id, s'.counterField id = s.counterField id
  block_eq : ∀ id, s'.file (.block id) = s.file (.block id)
  content_eq : ∀ path, readFile host s' path = readFile host s path

/-- Where `bb_unlink` answers an error it has changed nothing. -/
def FailsCleanly (host : Host) (s : BbState) (path : Path) : Prop :=
  ∀ ret s', bbUnlink host s path = .ok (ret, s') → ret ≠ 0 → Intact host s s'

/-- The path leads to no file, or to one whose entries all have the counter 00. -/
def NamesNoBlock (s : BbState) (path : Path) : Prop :=
  ∀ fh, s.rootdir.resolve path = .ok fh → ∀ entry ∈ entries idLength (s.rootdir.data fh),
    atoi (s.counterField (atoi entry).toNat) = 0

/-! ## Which entries the walk releases -/

namespace Table

variable {t : Table} {indices : List Nat}

theorem releaseAll_dead (h : ∀ index ∈ indices, t.count index = 0) :
    t.releaseAll indices = t := by
  induction indices with
  | nil => rfl
  | cons index indices ih =>
      rw [releaseAll_cons, release_dead (h index List.mem_cons_self)]
      exact ih fun other hother => h other (List.mem_cons_of_mem _ hother)

theorem frees_dead (h : ∀ index ∈ indices, t.count index = 0) :
    t.frees indices = false := by
  induction indices with
  | nil => rfl
  | cons index indices ih =>
      have hdead := h index List.mem_cons_self
      rw [frees, release_dead hdead, hdead]
      simpa using ih fun other hother => h other (List.mem_cons_of_mem _ hother)

theorem exists_mem_reached (total consumed : Nat)
    (h : ∃ index ∈ indices, t.count index ≠ 0) :
    ∃ index ∈ indices.take (reached total t consumed indices), t.count index ≠ 0 := by
  induction indices generalizing consumed with
  | nil =>
      rcases h with ⟨index, hmem, -⟩
      cases hmem
  | cons index indices ih =>
      by_cases hdead : t.count index = 0
      · have hrest : ∃ other ∈ indices, t.count other ≠ 0 := by
          rcases h with ⟨other, hmem, hlive⟩
          rcases List.mem_cons.mp hmem with rfl | hmem
          · contradiction
          · exact ⟨other, hmem, hlive⟩
        rcases ih (consumed + 1) hrest with ⟨other, hmem, hlive⟩
        refine ⟨other, ?_, hlive⟩
        rw [reached, if_neg (by omega), release_dead hdead, Nat.add_comm, List.take_succ_cons]
        exact List.mem_cons_of_mem _ hmem
      · refine ⟨index, ?_, hdead⟩
        rw [reached]
        split
        · rw [Nat.add_comm, List.take_succ_cons]
          exact List.mem_cons_self
        · rw [Nat.add_comm, List.take_succ_cons]
          exact List.mem_cons_self

end Table

/-! ## The two outcomes -/

section

variable {host : Host} {s s' : BbState} {t : Table} {path : Path} {fh : Nat}
  {indices : List Nat}

theorem Stores.file_block_eq (h : Stores host s t) (h' : Stores host s' t) (id : Bytes) :
    s'.file (.block id) = s.file (.block id) := by
  by_cases hid : ∃ index < t.records.length, id = padDecimal 3 (index + 1)
  · rcases hid with ⟨index, hindex, rfl⟩
    have hrecord := List.getElem?_eq_getElem hindex
    exact (h'.block_eq index _ hrecord).trans (h.block_eq index _ hrecord).symm
  · have hnone := fun hfile => hid (h.block_only id hfile)
    have hnone' := fun hfile => hid (h'.block_only id hfile)
    rw [not_not.mp hnone, not_not.mp hnone']

theorem Stores.intact (h : Stores host s t) (h' : Stores host s' t) (hgrants : host.Grants)
    (hrootdir : s'.rootdir = s.rootdir) : Intact host s s' := by
  have hblock := h.file_block_eq h'
  constructor
  · intro inode
    rw [hrootdir]
  · intro id
    rw [BbState.counterField, BbState.counterField, BbState.field, BbState.field, h.hashes_eq,
      h'.hashes_eq]
  · exact hblock
  · intro path
    apply readFile_congr hgrants
    · rw [hrootdir]
    · intro inode _
      rw [hrootdir]
    · intro inode _ id _
      exact hblock (cString id)

theorem Stores.namesNoBlock_iff (h : Stores host s t) (hpath : s.rootdir.resolve path = .ok fh)
    (hvalid : t.Valid indices) (hfile : s.rootdir.data fh = pointerBytes indices) :
    NamesNoBlock s path ↔ ∀ index ∈ indices, t.count index = 0 := by
  have hentries : entries idLength (s.rootdir.data fh) =
      indices.map fun index => padDecimal 3 (index + 1) := by
    rw [hfile, entries_pointerBytes hvalid]
  have hcounter : ∀ index ∈ indices,
      atoi (s.counterField (atoi (padDecimal 3 (index + 1))).toNat) = t.count index := by
    intro index hindex
    rw [atoi_padDecimal, Int.toNat_natCast, h.counterField_count (hvalid index hindex),
      atoi_padDecimal]
  constructor
  · intro hnone index hindex
    have hzero := hnone fh hpath (padDecimal 3 (index + 1))
      (hentries ▸ List.mem_map_of_mem hindex)
    rw [hcounter index hindex] at hzero
    exact_mod_cast hzero
  · intro hdead fh' hpath' entry hentry
    obtain rfl : fh = fh' := Except.ok.inj (hpath.symm.trans hpath')
    rw [hentries] at hentry
    rcases List.mem_map.mp hentry with ⟨index, hindex, rfl⟩
    rw [hcounter index hindex, hdead index hindex]
    rfl

theorem intact_deleteBlocks_iff (h : Stores host s t) (hgrants : host.Grants)
    (hpath : s.rootdir.resolve path = .ok fh) (hvalid : t.Valid indices)
    (hfile : s.rootdir.data fh = pointerBytes indices)
    (hdelete : deleteBlocks host s path = .ok s') :
    Intact host s s' ↔ NamesNoBlock s path := by
  rw [h.namesNoBlock_iff hpath hvalid hfile]
  rcases h.deleteBlocks hgrants hpath hvalid hfile with ⟨s₁, hs₁, hstores, hrootdir⟩
  obtain rfl := Except.ok.inj (hs₁.symm.trans hdelete)
  constructor
  · intro hintact
    by_contra hlive
    push Not at hlive
    rcases Table.exists_mem_reached indices.length 0 hlive with ⟨index, hmem, hcount⟩
    have hlt := hvalid index (List.mem_of_mem_take hmem)
    have hlt' : index < (t.releaseAll
        (indices.take (Table.reached indices.length t 0 indices))).records.length := by
      rwa [Table.releaseAll_length]
    -- this record has a reference less
    have hcounter := hintact.counter_eq (index + 1)
    rw [h.counterField_count hlt, hstores.counterField_count hlt',
      (padDecimal_injective 2).eq_iff, Table.count_releaseAll] at hcounter
    have hpos := List.count_pos_iff.mpr hmem
    omega
  · intro hdead
    have htaken : ∀ index ∈ indices.take (Table.reached indices.length t 0 indices),
        t.count index = 0 :=
      fun index hmem => hdead index (List.mem_of_mem_take hmem)
    rw [Table.releaseAll_dead htaken] at hstores
    rw [Table.frees_dead hdead] at hrootdir
    exact h.intact hstores hgrants hrootdir

/-! ## The refusal -/

theorem deleteBlocks_of_grants_eq {other : Host} (hgrants : other.grants = host.grants)
    (s : BbState) (path : Path) : deleteBlocks other s path = deleteBlocks host s path := by
  have hloop : ∀ (inode fuel : Nat) (s : BbState) (locals : DeleteLocals),
      deleteLoop other path inode fuel s locals = deleteLoop host path inode fuel s locals := by
    intro inode fuel
    induction fuel with
    | zero => exact fun _ _ => rfl
    | succ fuel ih =>
        intro s locals
        simp only [deleteLoop, deleteEntry, dropBlock, openPath, hgrants, ih]
  simp only [deleteBlocks, openFile, openPath, hgrants, hloop]

theorem readFile_of_grants_eq {other : Host} (hgrants : other.grants = host.grants)
    (hslack : other.nameSlack = host.nameSlack) (s : BbState) (path : Path) :
    readFile other s path = readFile host s path := by
  have hloop : ∀ (capacity : Nat) (ids : List Bytes) (fileData : Bytes),
      appendLoop other s capacity ids fileData = appendLoop host s capacity ids fileData := by
    intro capacity ids
    induction ids with
    | nil => exact fun _ => rfl
    | cons id ids ih =>
        intro fileData
        simp only [appendLoop, readBlock, openFile, hgrants, hslack, ih]
  simp only [readFile, getRealSize, openPath, hgrants, hloop]

theorem Intact.of_grants_eq (h : Intact host s s') {other : Host}
    (hgrants : other.grants = host.grants) (hslack : other.nameSlack = host.nameSlack) :
    Intact other s s' where
  pointers_eq := h.pointers_eq
  counter_eq := h.counter_eq
  block_eq := h.block_eq
  content_eq := by
    intro path
    rw [readFile_of_grants_eq hgrants hslack, readFile_of_grants_eq hgrants hslack, h.content_eq]

theorem Intact.refl (host : Host) (s : BbState) : Intact host s s :=
  ⟨fun _ => rfl, fun _ => rfl, fun _ => rfl, fun _ => rfl⟩

theorem failsCleanly_iff_of_refused (hrefuses : host.mayUnlink = false)
    (hdelete : deleteBlocks host s path = .ok s') :
    FailsCleanly host s path ↔ Intact host s s' := by
  have hunlink := bbUnlink_eq hdelete
  rw [hrefuses, if_neg Bool.false_ne_true] at hunlink
  constructor
  · intro hclean
    exact hclean _ _ hunlink (by decide)
  · intro hintact ret final hok _
    obtain ⟨-, rfl⟩ := Prod.mk.inj (Except.ok.inj (hunlink.symm.trans hok))
    exact hintact

theorem failsCleanly_of_granted (hallows : host.mayUnlink = true)
    (hdelete : deleteBlocks host s path = .ok s')
    (hlookup : s'.rootdir.lookup path = s.rootdir.lookup path)
    (hmissing : s.rootdir.lookup path = none → s' = s) : FailsCleanly host s path := by
  intro ret final hok hret
  have hunlink := bbUnlink_eq hdelete
  rw [hallows, if_pos rfl, FileSystem.unlink, hlookup] at hunlink
  cases hname : s.rootdir.lookup path with
  | none =>
      rw [hname] at hunlink
      obtain ⟨-, rfl⟩ := Prod.mk.inj (Except.ok.inj (hunlink.symm.trans hok))
      rw [hmissing hname]
      exact Intact.refl host s
  | some node =>
      rw [hname] at hunlink
      obtain ⟨rfl, -⟩ := Prod.mk.inj (Except.ok.inj (hunlink.symm.trans hok))
      contradiction

theorem deleteBlocks_keepsTable (h : Stores host s t) (hgrants : host.Grants)
    (hkeeps : KeepsTable host s (.unlink path)) :
    ∃ s', deleteBlocks host s path = .ok s' ∧
      s'.rootdir.lookup path = s.rootdir.lookup path ∧
      (s.rootdir.lookup path = none → s' = s) ∧ (Intact host s s' ↔ NamesNoBlock s path) := by
  cases hpath : s.rootdir.resolve path with
  | error errno =>
      simp only [KeepsTable, hpath] at hkeeps
      have hnone : NamesNoBlock s path := by
        intro fh hpath'
        rw [hpath] at hpath'
        cases hpath'
      exact ⟨s, deleteBlocks_missing hgrants hpath hkeeps, rfl, fun _ => rfl,
        iff_of_true (Intact.refl host s) hnone⟩
  | ok fh =>
      simp only [KeepsTable, hpath] at hkeeps
      rcases hkeeps.exists_indices with ⟨indices, hfile, hlt⟩
      have hvalid : t.Valid indices := fun index hindex => h.lastId_eq ▸ hlt index hindex
      rcases h.deleteBlocks hgrants hpath hvalid hfile with ⟨s', hdelete, -, hrootdir⟩
      refine ⟨s', hdelete, ?_, ?_, intact_deleteBlocks_iff h hgrants hpath hvalid hfile hdelete⟩
      · rw [hrootdir]
        split
        · exact FileSystem.lookup_write _ _ _ _
        · rfl
      · intro hname
        rw [FileSystem.resolve_none _ hname] at hpath
        cases hpath

end

/--
In every state that is reached: a failed unlink has changed nothing just where it
failed for want of the name, or the path leads to no live block.
-/
theorem bbUnlink_failsCleanly_iff (sha1 : Bytes → Vector UInt8 20) (requests : List Request)
    (hrun : Along (serve (.granting sha1)) (KeepsTable (.granting sha1)) freshMount requests)
    {s : BbState} (hs : run (serve (.granting sha1)) freshMount requests = .ok s) (path : Path)
    (hkeeps : KeepsTable (.granting sha1) s (.unlink path)) (mayUnlink : Bool) :
    FailsCleanly ⟨sha1, fun _ => true, mayUnlink, true⟩ s path ↔
      mayUnlink = true ∨ NamesNoBlock s path := by
  have hgrants := Host.granting_grants sha1
  rcases exists_stores_of_run hgrants hrun hs with ⟨t, hstores⟩
  rcases deleteBlocks_keepsTable hstores hgrants hkeeps with
    ⟨s', hdelete, hlookup, hmissing, hintact⟩
  have hsame : deleteBlocks ⟨sha1, fun _ => true, mayUnlink, true⟩ s path =
      deleteBlocks (.granting sha1) s path := by
    apply deleteBlocks_of_grants_eq
    rfl
  have hdelete' := hsame.trans hdelete
  cases mayUnlink with
  | true => exact iff_of_true (failsCleanly_of_granted rfl hdelete' hlookup hmissing) (.inl rfl)
  | false =>
      rw [failsCleanly_iff_of_refused rfl hdelete', or_iff_right Bool.false_ne_true, ← hintact]
      constructor
      · exact fun h => h.of_grants_eq rfl rfl
      · exact fun h => h.of_grants_eq rfl rfl

def withoutUnlink : Host := ⟨sampleSha1, fun _ => true, false, true⟩

/-- The block of "a" is gone with "a", since "c" has given a reference away; "b" names it still. -/
def orphanRun : List Request :=
  [.mknod "a", .write "a" [97] 0, .mknod "b", .write "b" [97] 0, .link "a" "c", .unlink "c",
    .unlink "a"]

theorem bbUnlink_failsCleanly_iff_orphanRun :
    ∃ s, run (serve (.granting sampleSha1)) freshMount orphanRun = .ok s ∧
      s.rootdir.resolve "b" = .ok 1 ∧ s.rootdir.data 1 = padDecimal 3 1 ∧
      (∃ answer, bbUnlink withoutUnlink s "b" = .ok answer ∧ answer.1 = -13) ∧
      FailsCleanly withoutUnlink s "b" := by
  have hfields : ∃ s, run (serve (.granting sampleSha1)) freshMount orphanRun = .ok s ∧
      KeepsTable (.granting sampleSha1) s (.unlink "b") ∧
      s.rootdir.resolve "b" = .ok 1 ∧ s.rootdir.data 1 = padDecimal 3 1 ∧
      (∃ answer, bbUnlink withoutUnlink s "b" = .ok answer ∧ answer.1 = -13) ∧
      ∀ entry ∈ entries idLength (s.rootdir.data 1),
        atoi (s.counterField (atoi entry).toNat) = 0 := by
    decide +kernel
  rcases hfields with ⟨s, hs, hkeeps, hpath, hfile, hrefused, hdead⟩
  refine ⟨s, hs, hpath, hfile, hrefused, ?_⟩
  apply (bbUnlink_failsCleanly_iff sampleSha1 orphanRun (by decide +kernel) hs "b" hkeeps
    false).mpr
  right
  intro fh hresolve
  obtain rfl : 1 = fh := Except.ok.inj (hpath.symm.trans hresolve)
  exact hdead

def mixedRun : List Request :=
  [.mknod "a", .write "a" [97] 0, .write "a" [98] 4069, .mknod "b", .write "b" [97] 0]

/-- "a" is still there and has lost its content; the block "b" is gone. -/
theorem mixedRun_not_failsCleanly :
    ∃ s s', run (serve (.granting sampleSha1)) freshMount mixedRun = .ok s ∧
      bbUnlink withoutUnlink s "a" = .ok (-13, s') ∧
      readFile withoutUnlink s "a" = .ok (some [97, 98]) ∧
      readFile withoutUnlink s' "a" = .ok (some []) ∧ ¬ FailsCleanly withoutUnlink s "a" := by
  have hrun : ∃ s, run (serve (.granting sampleSha1)) freshMount mixedRun = .ok s ∧
      readFile withoutUnlink s "a" = .ok (some [97, 98]) ∧
      ∃ answer, bbUnlink withoutUnlink s "a" = .ok answer ∧ answer.1 = -13 ∧
        readFile withoutUnlink answer.2 "a" = .ok (some []) := by
    decide +kernel
  rcases hrun with ⟨s, hs, hbefore, ⟨ret, s'⟩, hunlink, rfl, hafter⟩
  refine ⟨s, s', hs, hunlink, hbefore, hafter, ?_⟩
  intro hclean
  have hcontent := (hclean _ _ hunlink (by decide)).content_eq "a"
  rw [hbefore, hafter] at hcontent
  cases hcontent

end Ece318.Bbfs
