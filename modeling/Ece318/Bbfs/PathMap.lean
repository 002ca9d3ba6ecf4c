import Ece318.Foundation.Runs
import Ece318.Bbfs.ReadSpec

/-!
# The store as a map from paths to lists of blocks

What the store is for: every path has its own list of blocks, whatever other
paths share with it.  The ledger refines this map while its counters cover the
references, and the disk simulates the ledger, so reading any path of the disk
answers the blocks of the map.
-/

namespace Ece318.Bbfs

open Ece318.Foundation

abbrev PathMap := Path → Option (List Bytes)

namespace PathMap

def empty : PathMap := fun _ => none

def serve (files : PathMap) : Request → PathMap
  | .mknod path =>
      match files path with
      | none => Function.update files path (some [])
      | some _ => files
  | .write path buf offset =>
      Function.update files path
        ((files path).map fun blocks => putSlot blocks (offset / bbfsMaxBlockSize) buf)
  | .truncate path _ => Function.update files path ((files path).map fun _ => [])
  | .rename path newpath =>
      match files path with
      | none => files
      | some blocks =>
          Function.update (Function.update files path none) newpath (some blocks)
  | .unlink path => Function.update files path none
  | .link _ _ | .symlink _ _ => files

end PathMap

/-! ## Runs of plain files -/

def Request.IsNulFree : Request → Prop
  | .write _ buf _ => NulFree buf
  | _ => True

instance (request : Request) : Decidable request.IsNulFree :=
  match request with
  | .write _ buf _ => inferInstanceAs (Decidable (NulFree buf))
  | .mknod _ | .truncate _ _ | .rename _ _ | .unlink _ | .link _ _ | .symlink _ _ =>
      .isTrue trivial

def Request.paths : Request → List Path
  | .mknod path | .write path _ _ | .truncate path _ | .unlink path => [path]
  | .rename path newpath | .link path newpath | .symlink path newpath => [path, newpath]

structure Reflects (contents : Set Bytes) (m : Ledger) (files : PathMap) : Prop where
  noLinks : m.rootdir.NoLinks
  covered : m.Covered
  fits : m.table.All (·.length ≤ maxBlockSize)
  stored : m.table.All (· ∈ contents)
  files_eq : ∀ path, files path = (m.rootdir.lookup path).map fun node =>
    (m.rootdir.data node.inode).map m.table.data

theorem reflects_initial (contents : Set Bytes) :
    Reflects contents .initial .empty where
  noLinks := FileSystem.noLinks_empty []
  covered := Ledger.exact_initial.covered
  fits := by simp [Ledger.initial, Table.empty, Table.All]
  stored := by simp [Ledger.initial, Table.empty, Table.All]
  files_eq := by simp [PathMap.empty, Ledger.initial]

namespace Reflects

variable {host : Host} {contents : Set Bytes} {m : Ledger} {files : PathMap}

theorem inode_ne (h : Reflects contents m files) {path other : Path} {inode : Nat}
    {node : Node Path} (hpath : m.rootdir.lookup path = some (.file inode))
    (hother : m.rootdir.lookup other = some node) (hne : other ≠ path) :
    node.inode ≠ inode := by
  rintro rfl
  rw [h.noLinks.file_of_lookup hother] at hother
  exact hne (h.noLinks.single other path _ hother hpath)

/-! ### The map after a request -/

theorem files_mknod (h : Reflects contents m files) (path other : Path) :
    files.serve (.mknod path) other =
      ((m.serve host (.mknod path)).rootdir.lookup other).map fun node =>
        ((m.serve host (.mknod path)).rootdir.data node.inode).map m.table.data := by
  have hpath := h.files_eq path
  cases hlookup : m.rootdir.lookup path with
  | some node =>
      rw [hlookup] at hpath
      simp only [PathMap.serve, hpath, Option.map_some, Ledger.serve, FileSystem.create,
        hlookup, Ledger.logSyscall]
      exact h.files_eq other
  | none =>
      rw [hlookup] at hpath
      simp only [PathMap.serve, hpath, Option.map_none, Ledger.serve, FileSystem.create,
        hlookup, Ledger.logSyscall, FileSystem.lookup_insertNew]
      by_cases heq : other = path
      · subst other
        simp [FileSystem.insertNew]
      · rw [Function.update_of_ne heq, if_neg heq, h.files_eq other]
        cases hother : m.rootdir.lookup other with
        | none => rfl
        | some node =>
            have hne : node.inode ≠ m.rootdir.next := (m.rootdir.lookup_lt hother).ne
            simp [FileSystem.insertNew, Function.update_of_ne hne]

theorem files_write (h : Reflects contents m files)
    (hvalid : ∀ inode, m.table.Valid (m.rootdir.data inode)) {path : Path} {inode : Nat}
    (hpath : m.rootdir.lookup path = some (.file inode)) {t : Table}
    (hdata : ∀ index < m.table.records.length, t.data index = m.table.data index)
    (indices : List Nat) (other : Path) :
    Function.update files path (some (indices.map t.data)) other =
      ((m.rootdir.write inode indices).lookup other).map fun node =>
        ((m.rootdir.write inode indices).data node.inode).map t.data := by
  rw [FileSystem.lookup_write, FileSystem.data_write]
  by_cases heq : other = path
  · subst other
    simp [hpath]
  · rw [Function.update_of_ne heq, h.files_eq other]
    cases hother : m.rootdir.lookup other with
    | none => rfl
    | some node =>
        simp only [Option.map_some, Option.some.injEq,
          Function.update_of_ne (h.inode_ne hpath hother heq)]
        exact List.map_congr_left fun index hindex =>
          (hdata index (hvalid node.inode index hindex)).symm

theorem files_erase (h : Reflects contents m files) (path other : Path) :
    Function.update files path none other =
      ((m.rootdir.erase path).lookup other).map fun node =>
        (m.rootdir.data node.inode).map m.table.data := by
  rw [FileSystem.lookup_erase]
  by_cases heq : other = path
  · simp [heq]
  · rw [Function.update_of_ne heq, if_neg heq, h.files_eq other]

theorem files_rename (h : Reflects contents m files) (path newpath other : Path) :
    files.serve (.rename path newpath) other =
      ((m.serve host (.rename path newpath)).rootdir.lookup other).map fun node =>
        ((m.serve host (.rename path newpath)).rootdir.data node.inode).map m.table.data := by
  have hpath := h.files_eq path
  cases hrename : m.rootdir.rename path newpath with
  | error errno =>
      have hlookup := FileSystem.lookup_of_rename_error hrename
      rw [hlookup] at hpath
      simp only [PathMap.serve, hpath, Option.map_none, Ledger.serve, hrename,
        Ledger.logSyscall]
      exact h.files_eq other
  | ok rootdir =>
      obtain ⟨node, hnode, hcases⟩ := FileSystem.rename_cases hrename
      rw [hnode] at hpath
      simp only [PathMap.serve, hpath, Option.map_some, Ledger.serve, hrename,
        Ledger.logSyscall]
      rcases hcases with ⟨hsame, rfl⟩ | ⟨-, hlt, rfl⟩
      · -- both names lead to one file, so they are one name
        obtain ⟨node', hnode', hinode⟩ := Option.map_eq_some_iff.mp hsame
        have heq : newpath = path := by
          by_contra hne
          rw [h.noLinks.file_of_lookup hnode] at hnode
          exact h.inode_ne hnode hnode' hne hinode
        subst newpath
        rw [Function.update_idem, ← h.files_eq other]
        by_cases hother : other = path
        · rw [hother, Function.update_self, hpath]
          rfl
        · rw [Function.update_of_ne hother]
      · rw [FileSystem.lookup_insertOld, FileSystem.data_insertOld, FileSystem.data_erase]
        by_cases hother : other = newpath
        · simp [hother]
        · rw [Function.update_of_ne hother, if_neg hother]
          exact h.files_erase path other

theorem files_unlink (h : Reflects contents m files) {path : Path} {inode : Nat}
    (hpath : m.rootdir.lookup path = some (.file inode)) (other : Path) :
    files.serve (.unlink path) other =
      ((m.serve host (.unlink path)).rootdir.lookup other).map fun node =>
        ((m.serve host (.unlink path)).rootdir.data node.inode).map m.table.data := by
  have herase := h.files_erase path other
  rw [PathMap.serve, herase, Ledger.serve,
    Ledger.deleteBlocks_of_resolve (FileSystem.resolve_file _ hpath)]
  split
  · simp only [FileSystem.unlink, FileSystem.lookup_write, hpath, Ledger.logSyscall,
      FileSystem.lookup_erase, FileSystem.data_erase, FileSystem.data_write]
    by_cases heq : other = path
    · simp [heq]
    · simp only [if_neg heq]
      cases hother : m.rootdir.lookup other with
      | none => rfl
      | some node => simp [Function.update_of_ne (h.inode_ne hpath hother heq)]
  · simp only [FileSystem.unlink, hpath, Ledger.logSyscall, FileSystem.data_erase]

theorem files_absent (h : Reflects contents m files) {path : Path} {errno : Errno}
    (hpath : m.rootdir.resolve path = .error errno) :
    files path = none ∧ Function.update files path none = files := by
  have hfile : files path = none := by
    rw [h.files_eq path, Ledger.lookup_of_resolve_error h.noLinks hpath, Option.map_none]
  exact ⟨hfile, Function.update_eq_self_iff.mpr hfile.symm⟩

theorem files_serve (h : Reflects contents m files) (hinj : Set.InjOn host.sha1 contents)
    (hvalid : ∀ inode, m.table.Valid (m.rootdir.data inode)) {request : Request}
    (hadmits : m.Admits host request) (hlinks : request.IsLinkFree)
    (hnul : request.IsNulFree) (hstored : storedContents [request] ⊆ contents) (other : Path) :
    files.serve request other =
      ((m.serve host request).rootdir.lookup other).map fun node =>
        ((m.serve host request).rootdir.data node.inode).map
          (m.serve host request).table.data := by
  cases request with
  | mknod path =>
      rw [h.files_mknod path other, Ledger.serve, Ledger.table_logSyscall]
  | write path buf offset =>
      cases hpath : m.rootdir.resolve path with
      | error errno =>
          obtain ⟨hfile, hupdate⟩ := h.files_absent hpath
          rw [Ledger.serve_write_of_error hpath, PathMap.serve, hfile, Option.map_none, hupdate]
          exact h.files_eq other
      | ok inode =>
          obtain ⟨-, hroom, -⟩ := hadmits inode hpath
          have hlookup := Ledger.lookup_of_resolve h.noLinks hpath
          have hfile := h.files_eq path
          have hbuf : cString buf = buf := NulFree.cString_eq hnul
          have hself := Table.data_store_self hinj h.stored
            (hstored ⟨path, buf, offset, List.mem_singleton_self _, rfl⟩) hroom
          have hold : (m.rootdir.data inode).map (m.table.store host buf).2.data =
              (m.rootdir.data inode).map m.table.data :=
            List.map_congr_left fun index hindex =>
              Table.data_store (hvalid inode index hindex)
          have hput : (putSlot (m.rootdir.data inode) (offset / bbfsMaxBlockSize)
                (m.table.store host buf).1).map (m.table.store host buf).2.data =
              putSlot ((m.rootdir.data inode).map m.table.data)
                (offset / bbfsMaxBlockSize) buf := by
            rw [putSlot_map, hself, hbuf, hold]
          rw [hlookup] at hfile
          rw [Ledger.serve_write_of_resolve hpath, PathMap.serve, hfile, Option.map_some,
            Option.map_some, ← hput]
          exact h.files_write hvalid hlookup (fun index hindex => Table.data_store hindex) _ other
  | truncate path newsize =>
      cases hpath : m.rootdir.resolve path with
      | error errno =>
          obtain ⟨hfile, hupdate⟩ := h.files_absent hpath
          rw [Ledger.serve_truncate_of_error hpath, PathMap.serve, hfile, Option.map_none,
            hupdate]
          exact h.files_eq other
      | ok inode =>
          have hlookup := Ledger.lookup_of_resolve h.noLinks hpath
          have hfile := h.files_eq path
          rw [hlookup] at hfile
          rw [Ledger.serve_truncate_of_resolve hpath, PathMap.serve, hfile, Option.map_some,
            Option.map_some]
          exact h.files_write hvalid hlookup (fun index _ => rfl) [] other
  | rename path newpath =>
      rw [h.files_rename path newpath other, Ledger.serve, Ledger.table_logSyscall]
  | unlink path =>
      cases hpath : m.rootdir.resolve path with
      | error errno =>
          have hlookup := Ledger.lookup_of_resolve_error h.noLinks hpath
          obtain ⟨-, hupdate⟩ := h.files_absent hpath
          rw [PathMap.serve, hupdate, Ledger.serve, Ledger.deleteBlocks_of_error hpath,
            FileSystem.unlink, hlookup]
          exact h.files_eq other
      | ok inode =>
          have hdata : (m.table.releaseAll (m.seen inode)).data = m.table.data :=
            funext (Table.data_releaseAll _)
          rw [h.files_unlink (Ledger.lookup_of_resolve h.noLinks hpath) other,
            Ledger.table_unlink hpath, hdata]
  | link path newpath => exact hlinks.elim
  | symlink path link => exact hlinks.elim

theorem serve (h : Reflects contents m files) (hinj : Set.InjOn host.sha1 contents)
    (hvalid : ∀ inode, m.table.Valid (m.rootdir.data inode)) {request : Request}
    (hadmits : m.Admits host request) (hlinks : request.IsLinkFree)
    (hnul : request.IsNulFree) (hstored : storedContents [request] ⊆ contents) :
    Reflects contents (m.serve host request) (files.serve request) where
  noLinks := Ledger.noLinks_serve h.noLinks hlinks
  covered := h.covered.serve hadmits (Ledger.releases_of_noLinks h.noLinks request)
  fits := by
    refine Ledger.all_serve h.fits ?_
    rintro path buf offset inode rfl hpath
    exact (cString_length_le buf).trans (hadmits inode hpath).1
  stored := by
    refine Ledger.all_serve h.stored ?_
    rintro path buf offset inode rfl -
    exact hstored ⟨path, buf, offset, List.mem_singleton_self _, rfl⟩
  files_eq := h.files_serve hinj hvalid hadmits hlinks hnul hstored

end Reflects

/-! ## Runs -/

section

variable {host : Host}

/-- The requests of a run whose reads the map predicts. -/
def PlainRequest (host : Host) (s : BbState) (request : Request) : Prop :=
  Orderly host s request ∧ request.IsLinkFree ∧ request.IsNulFree

instance (host : Host) (s : BbState) (request : Request) :
    Decidable (PlainRequest host s request) :=
  inferInstanceAs (Decidable (_ ∧ _ ∧ _))

theorem Reflects.readFile {contents : Set Bytes} {m : Ledger} {files : PathMap}
    (h : Reflects contents m files) (hgrants : host.Grants) {s : BbState}
    (hs : Represents host s m) (path : Path) :
    Bbfs.readFile host s path = .ok ((files path).map List.flatten) := by
  rw [h.files_eq path]
  cases hpath : m.rootdir.resolve path with
  | error errno =>
      rw [Ledger.lookup_of_resolve_error h.noLinks hpath]
      exact readFile_missing hgrants ((hs.resolve_eq path).trans hpath)
  | ok inode =>
      rw [Ledger.lookup_of_resolve h.noLinks hpath]
      exact hs.readFile hgrants h.covered h.fits hpath

theorem run_reflects (hgrants : host.Grants) {contents : Set Bytes}
    (hinj : Set.InjOn host.sha1 contents) {requests : List Request}
    (hstored : storedContents requests ⊆ contents)
    (hrun : Along (serve host) (PlainRequest host) freshMount requests) :
    ∃ s, run (serve host) freshMount requests = .ok s ∧
      ∃ m, Represents host s m ∧
        Reflects contents m (requests.foldl PathMap.serve .empty) := by
  refine run_simulates PathMap.serve
    (fun s files => ∃ m, Represents host s m ∧ Reflects contents m files) ?_ PathMap.empty
    ⟨.initial, represents_freshMount host, reflects_initial contents⟩ hrun.and_mem
  rintro s files request ⟨m, hs, hm⟩ ⟨⟨horderly, hlinks, hnul⟩, hmem⟩
  obtain ⟨s', hok, hs'⟩ := hs.serve hgrants horderly
  refine ⟨s', hok, m.serve host request, hs', ?_⟩
  refine hm.serve hinj hs.valid (Ledger.Admits.of_orderly hs hgrants horderly) hlinks hnul ?_
  rintro content ⟨path, buf, offset, hwrite, rfl⟩
  rw [List.mem_singleton] at hwrite
  exact hstored ⟨path, buf, offset, hwrite ▸ hmem, rfl⟩

end

theorem PathMap.serve_of_notMem (files : PathMap) {request : Request} {path : Path}
    (h : path ∉ request.paths) : files.serve request path = files path := by
  cases request with
  | mknod other =>
      have hne : path ≠ other := by simpa [Request.paths] using h
      simp only [serve]
      cases files other <;> simp [hne]
  | write other buf offset =>
      have hne : path ≠ other := by simpa [Request.paths] using h
      simp [serve, hne]
  | truncate other newsize =>
      have hne : path ≠ other := by simpa [Request.paths] using h
      simp [serve, hne]
  | rename other newpath =>
      obtain ⟨hne, hnew⟩ : path ≠ other ∧ path ≠ newpath := by simpa [Request.paths] using h
      simp only [serve]
      cases files other <;> simp [hne, hnew]
  | unlink other =>
      have hne : path ≠ other := by simpa [Request.paths] using h
      simp [serve, hne]
  | link other newpath => rfl
  | symlink other newpath => rfl

/--
The store refines the map from paths to lists of blocks: after every step of a
plain run each path reads back as its blocks in the map, and the next request
changes what is read only of the paths it names.
-/
theorem store_refines_pathMap (sha1 : Bytes → Vector UInt8 20) (requests : List Request)
    (hinj : Set.InjOn sha1 (storedContents requests))
    (hrun : Along (serve (.granting sha1)) (PlainRequest (.granting sha1)) freshMount
      requests) :
    ∀ first second, requests = first ++ second →
      ∃ s, run (serve (.granting sha1)) freshMount first = .ok s ∧
        (∀ path, readFile (.granting sha1) s path =
          .ok ((first.foldl PathMap.serve .empty path).map List.flatten)) ∧
        ∀ request rest, second = request :: rest →
          ∃ s', serve (.granting sha1) s request = .ok s' ∧
            ∀ path, path ∉ request.paths →
              readFile (.granting sha1) s' path = readFile (.granting sha1) s path := by
  have hgrants := Host.granting_grants sha1
  -- any part of the run follows the map
  have hprefix : ∀ first second, requests = first ++ second →
      ∃ s, run (serve (.granting sha1)) freshMount first = .ok s ∧
        ∀ path, readFile (.granting sha1) s path =
          .ok ((first.foldl PathMap.serve .empty path).map List.flatten) := by
    rintro first second rfl
    have hstored : storedContents first ⊆ storedContents (first ++ second) := by
      rintro content ⟨path, buf, offset, hmem, rfl⟩
      exact ⟨path, buf, offset, List.mem_append_left _ hmem, rfl⟩
    obtain ⟨s, hok, m, hs, hm⟩ := run_reflects hgrants hinj hstored hrun.of_append
    exact ⟨s, hok, hm.readFile hgrants hs⟩
  intro first second hsplit
  obtain ⟨s, hok, hread⟩ := hprefix first second hsplit
  refine ⟨s, hok, hread, ?_⟩
  rintro request rest rfl
  obtain ⟨s', hok', hread'⟩ := hprefix (first ++ [request]) rest (by simp [hsplit])
  rw [run_concat request hok] at hok'
  refine ⟨s', hok', fun path hpath => ?_⟩
  rw [hread', hread, List.foldl_append, List.foldl_cons, List.foldl_nil,
    PathMap.serve_of_notMem _ hpath]

def sharingRun : List Request :=
  [.mknod "a", .write "a" [97] 0, .mknod "b", .write "b" [97] 0, .write "b" [98] 4069,
    .write "a" [98] 0, .rename "a" "c", .unlink "b"]

theorem storedContents_sharingRun : storedContents sharingRun ⊆ {[97], [98]} := by
  rintro content ⟨path, buf, offset, hmem, rfl⟩
  simp only [sharingRun, List.mem_cons, Request.write.injEq, List.not_mem_nil,
    reduceCtorEq, false_or, or_false] at hmem
  rcases hmem with ⟨-, rfl, -⟩ | ⟨-, rfl, -⟩ | ⟨-, rfl, -⟩ | ⟨-, rfl, -⟩ <;> decide

theorem store_refines_pathMap_sharingRun :
    ∃ s, run (serve (.granting sampleSha1)) freshMount sharingRun = .ok s ∧
      readFile (.granting sampleSha1) s "c" = .ok (some [98]) := by
  obtain ⟨s, hok, hread, -⟩ := store_refines_pathMap sampleSha1 sharingRun
    (sampleSha1_injOn.mono storedContents_sharingRun) (by decide +kernel) sharingRun [] rfl
  exact ⟨s, hok, hread "c"⟩

end Ece318.Bbfs
