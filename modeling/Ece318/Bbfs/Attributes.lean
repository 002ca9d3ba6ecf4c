import Ece318.Bbfs.ReadWindow
import Ece318.Bbfs.Restarts

/-!
# What the operations answer

A client lists the names with `bb_readdir`, takes the size of a name from `bb_getattr`
and reads the name with `bb_read`, between requests and over restarts.  All it is told
is told of the map, with two turns: a read always brings the whole content and claims
the size that was asked for, and a file whose blocks are all empty shows the size of
its pointers file.  A client that asks for fewer bytes than the path holds is not told
anything: its buffer is overrun.
-/

namespace Ece318.Bbfs

open Ece318.Foundation

/-! ## `bb_getattr` and `bb_fgetattr` -/

structure Stat where
  ino : Nat
  isLink : Bool
  size : Int
  deriving DecidableEq, Repr

/-- `lstat` does not follow a symbolic link; its size is the length of its text. -/
def lstat (rootdir : FileSystem Path Bytes) (path : Path) : Except Errno Stat :=
  match rootdir.lookup path with
  | none => .error .noEntry
  | some (.file inode) => .ok ⟨inode, false, (rootdir.data inode).length⟩
  | some (.symlink inode target) => .ok ⟨inode, true, target.utf8ByteSize⟩

def fstat (rootdir : FileSystem Path Bytes) (fh : Nat) : Stat :=
  ⟨fh, false, (rootdir.data fh).length⟩

section

variable (host : Host)

/-- `bb_getattr`: where the content has a size, it takes the place of the one `lstat` found. -/
def bbGetattr (s : BbState) (path : Path) (statbuf : Stat) : Except Fault (Int × Stat) := do
  let retstat : Int :=
    match lstat s.rootdir path with
    | .ok _ => 0
    | .error errno => -errno.code
  let statbuf := (lstat s.rootdir path).toOption.getD statbuf
  let realSize ← getRealSize host s path
  return (retstat, if realSize > 0 then { statbuf with size := realSize } else statbuf)

/-- `bb_fgetattr` of a file: the node is that of `fh`, the size that of `path`. -/
def bbFgetattr (s : BbState) (path : Path) (fh : Nat) : Except Fault (Int × Stat) := do
  let realSize ← getRealSize host s path
  let statbuf := fstat s.rootdir fh
  return (0, if realSize > 0 then { statbuf with size := realSize } else statbuf)

end

/-! ## `bb_open` and `bb_readdir` -/

/-- `bb_open`: what it leaves in `fi->fh`, or what it returns. -/
def bbOpen (s : BbState) (path : Path) : Except Int Nat :=
  (s.rootdir.resolve path).mapError fun errno => -errno.code

/-- The loop of `bb_readdir`; a `filler` whose buffer is full gives none back. -/
def fillLoop {β : Type} (filler : β → Path → Option β) : List Path → β → Int × β
  | [], buf => (0, buf)
  | name :: names, buf =>
      match filler buf name with
      | none => (-12, buf)
      | some buf => fillLoop filler names buf

/-- `bb_readdir`: an end of the directory before its first name is taken for an error. -/
def bbReaddir {β : Type} (filler : β → Path → Option β) (errno : Errno) (dp : List Path)
    (buf : β) : Int × β :=
  match dp with
  | [] => (-errno.code, buf)
  | de :: rest => fillLoop filler (de :: rest) buf

def entryNames (names : List Path) : List Path := "." :: ".." :: names

def fillNames (room : Nat) (buf : List Path) (name : Path) : Option (List Path) :=
  if buf.length < room then some (buf ++ [name]) else none

theorem fillLoop_fillNames {room : Nat} {names buf : List Path} (hbuf : buf.length ≤ room) :
    fillLoop (fillNames room) names buf =
      (if buf.length + names.length ≤ room then 0 else -12, (buf ++ names).take room) := by
  induction names generalizing buf with
  | nil => simp [fillLoop, hbuf, List.take_of_length_le]
  | cons name names ih =>
      by_cases hroom : buf.length < room
      · have hnext : (buf ++ [name]).length ≤ room := by
          rw [List.length_append, List.length_singleton]
          omega
        have hlength : (buf ++ [name]).length + names.length =
            buf.length + (name :: names).length := by
          simp only [List.length_append, List.length_cons, List.length_nil]
          omega
        simp only [fillLoop, fillNames, if_pos hroom]
        rw [ih hnext, hlength, List.append_assoc, List.singleton_append]
      · have hfull : buf.length = room := by omega
        simp only [fillLoop, fillNames, if_neg hroom, List.length_cons]
        rw [if_neg (by omega), ← hfull, List.take_left]

theorem bbReaddir_fillNames {errno : Errno} {dp : List Path} (hdp : dp ≠ []) (room : Nat) :
    bbReaddir (fillNames room) errno dp [] =
      (if dp.length ≤ room then 0 else -12, dp.take room) := by
  cases dp with
  | nil => contradiction
  | cons de rest =>
      rw [bbReaddir, fillLoop_fillNames (Nat.zero_le room), List.length_nil, Nat.zero_add,
        List.nil_append]

/-! ## Operations and their answers -/

/-- The events of a session, and the operations that only look. -/
inductive Operation where
  | event (event : Event)
  | getattr (path : Path) (statbuf : Stat)
  | fgetattr (path : Path) (statbuf : Stat)
  | read (path : Path) (size offset : Nat)
  | readdir (room : Nat)
  deriving DecidableEq, Repr

inductive Answer where
  | served
  | stat (retstat : Int) (statbuf : Stat)
  | data (retstat : Int) (buf : Bytes)
  | names (retstat : Int) (buf : List Path)
  deriving DecidableEq, Repr

section

variable (host : Host) (scan : FileSystem Path Bytes → List Path) (errno : Errno)

/--
One operation.  Those on a descriptor open the path first; `scan` is what `readdir`
finds in the directory, one entry after the other.
-/
def answer (s : BbState) : Operation → Except Fault (Answer × BbState)
  | .event event => (serveEvent host s event).map fun s => (.served, s)
  | .getattr path statbuf => do
      let found ← bbGetattr host s path statbuf
      return (.stat found.1 found.2, s)
  | .fgetattr path statbuf =>
      match bbOpen s path with
      | .error retstat => return (.stat retstat statbuf, s)
      | .ok fh => do
          let found ← bbFgetattr host s path fh
          return (.stat found.1 found.2, s)
  | .read path size offset =>
      match bbOpen s path with
      | .error retstat => return (.data retstat [], s)
      | .ok fh => do
          let found ← bbRead host s path size offset fh
          return (.data found.1 found.2.1, found.2.2)
  | .readdir room =>
      let listed := bbReaddir (fillNames room) errno (scan s.rootdir) []
      return (.names listed.1 listed.2, s)

end

def Operation.event? : Operation → Option Event
  | .event e => some e
  | .getattr _ _ | .fgetattr _ _ | .read _ _ _ | .readdir _ => none

def HasRoom (host : Host) (s : BbState) (path : Path) (size : Nat) : Prop :=
  ∀ realSize, getRealSize host s path = .ok realSize → realSize ≤ size

instance (host : Host) (s : BbState) (path : Path) (size : Nat) :
    Decidable (HasRoom host s path size) :=
  match hsize : getRealSize host s path with
  | .ok realSize =>
      decidable_of_iff (realSize ≤ size)
        ⟨fun h _ heq => Except.ok.inj (hsize.symm.trans heq) ▸ h, fun h => h _ hsize⟩
  | .error _ => .isTrue fun _ heq => nomatch hsize.symm.trans heq

/--
The events are those of a session that the map survives, and a read brings a buffer that
the whole content fits into.
-/
def Unhindered (host : Host) (s : BbState) : Operation → Prop
  | .event event => Resumable host s event
  | .read path size _ => HasRoom host s path size
  | .getattr _ _ | .fgetattr _ _ | .readdir _ => True

instance (host : Host) (s : BbState) (operation : Operation) :
    Decidable (Unhindered host s operation) :=
  match operation with
  | .event event => inferInstanceAs (Decidable (Resumable host s event))
  | .read path size _ => inferInstanceAs (Decidable (HasRoom host s path size))
  | .getattr _ _ | .fgetattr _ _ | .readdir _ => .isTrue trivial

/-- The size that is shown for a list of blocks: that of the slots, if no block has a byte. -/
def shownSize (blocks : List Bytes) : Nat :=
  if blocks.flatten = [] then idLength * blocks.length else blocks.flatten.length

namespace PathMap

def operate (files : PathMap) : Operation → PathMap
  | .event event => files.serveEvent event
  | .getattr _ _ | .fgetattr _ _ | .read _ _ _ | .readdir _ => files

def AllowsStat (blocks : Option (List Bytes)) (statbuf : Stat) (answer : Answer) : Prop :=
  match blocks with
  | none => answer = .stat (-2) statbuf
  | some blocks => ∃ ino, answer = .stat 0 ⟨ino, false, shownSize blocks⟩

def Allows (files : PathMap) (operation : Operation) (answer : Answer) : Prop :=
  match operation with
  | .event _ => answer = .served
  | .getattr path statbuf | .fgetattr path statbuf => AllowsStat (files path) statbuf answer
  | .read path size _ =>
      answer = match files path with
        | none => .data (-2) []
        | some blocks => .data (int32 size) blocks.flatten
  | .readdir room => ∃ paths listed : List Path,
      paths.Nodup ∧ (∀ path, path ∈ paths ↔ files path ≠ none) ∧
        listed.Perm (entryNames paths) ∧
        answer = .names (if listed.length ≤ room then 0 else -12) (listed.take room)

end PathMap

/-! ## In a session -/

section

variable {host : Host} {contents : Set Bytes} {s s' : BbState} {files : PathMap} {path : Path}
  {blocks : List Bytes}

theorem Carries.resolve_of_none (h : Carries host contents s files) (hpath : files path = none) :
    s.rootdir.resolve path = .error .noEntry ∧ s.rootdir.lookup path = none := by
  obtain ⟨-, m, hs, hm⟩ := h
  have hlookup : s.rootdir.lookup path = none := by
    rw [hm.files_eq path, Option.map_eq_none_iff] at hpath
    rw [hs.rootdir_eq, FileSystem.lookup_map, hpath]
  refine ⟨?_, hlookup⟩
  rw [FileSystem.resolve, FileSystem.follow, hlookup]

theorem Carries.readFile_eq (h : Carries host contents s files) (hgrants : host.Grants)
    (path : Path) : readFile host s path = .ok ((files path).map List.flatten) := by
  obtain ⟨-, m, hs, hm⟩ := h
  exact hm.readFile hgrants hs path

theorem Carries.leads (h : Carries host contents s files) (hpath : files path = some blocks) :
    ∃ inode, s.rootdir.resolve path = .ok inode ∧
      s.rootdir.lookup path = some (.file inode) ∧
      (s.rootdir.data inode).length = idLength * blocks.length ∧
      Leads s (entries idLength (s.rootdir.data inode)) blocks ∧
      (∀ content ∈ blocks, IsBlock content) ∧ blocks.flatten.length + 10 < 2 ^ 31 := by
  obtain ⟨inode, hresolve⟩ := h.resolve hpath
  obtain ⟨-, m, hs, hm⟩ := h
  have hresolve' := (hs.resolve_eq path).symm.trans hresolve
  have hlookup := Ledger.lookup_of_resolve hm.noLinks hresolve'
  have hlinked := Ledger.linked_of_resolve hresolve'
  have hvalid := hs.valid inode
  obtain rfl : (m.rootdir.data inode).map m.table.data = blocks := by
    have hfile := hm.files_eq path
    rw [hpath, hlookup] at hfile
    exact (Option.some.inj hfile).symm
  have hslots := hm.slots_length_le hvalid hlinked
  have hlength := hm.content_length_le hvalid
  refine ⟨inode, hresolve, ?_, ?_, ?_, fun content hcontent => ?_, by omega⟩
  · exact hs.lookup_of_resolve hm hresolve
  · rw [hs.data_eq, hvalid.length, List.length_map]
  · rw [hs.data_eq, entries_pointerBytes hvalid]
    exact hs.stores.leads (hm.covered.live hlinked)
  · obtain ⟨index, hindex, rfl⟩ := List.mem_map.mp hcontent
    exact ⟨m.table.nulFree_data index, hm.fits.data (hvalid index hindex)⟩

theorem Carries.entries_length_le (h : Carries host contents s files) (path : Path) (inode : Nat)
    (hpath : s.rootdir.resolve path = .ok inode) :
    (entries idLength (s.rootdir.data inode)).length ≤ ((files path).getD []).length := by
  cases hfile : files path with
  | none =>
      rw [(h.resolve_of_none hfile).1] at hpath
      contradiction
  | some blocks =>
      obtain ⟨found, hresolve, -, hslots, -⟩ := h.leads hfile
      obtain rfl := Except.ok.inj (hresolve.symm.trans hpath)
      rw [entries_length, hslots, Nat.mul_div_cancel_left _ (by decide)]
      exact Nat.le_refl _

theorem Carries.getRealSize_eq (h : Carries host contents s files) (hgrants : host.Grants)
    (hpath : files path = some blocks) :
    getRealSize host s path = .ok (blocks.flatten.length : Int) := by
  obtain ⟨inode, hresolve, -, -, hleads, -, hlength⟩ := h.leads hpath
  rw [Bbfs.getRealSize_eq hgrants hresolve hleads, int32_of_lt (by omega)]

theorem Carries.after_temp (h : Carries host contents s files) (content : Bytes) :
    Carries host contents (((s.setFile .temp []).setFile .temp content).removeFile .temp)
      files := by
  obtain ⟨htidy, m, hs, hm⟩ := h
  have htemp : s.file .temp = none := by
    by_contra hfile
    rcases htidy.known .temp hfile with heq | ⟨index, -, heq⟩ <;> cases heq
  have hfile : ∀ name,
      (((s.setFile .temp []).setFile .temp content).removeFile .temp).file name =
        s.file name := by
    intro name
    by_cases heq : name = .temp
    · simp [heq, htemp]
    · simp [heq]
  refine ⟨htidy.of_data rfl hfile fun inode => .inr ⟨inode, rfl⟩, m, ⟨?_, hs.rootdir_eq, hs.valid⟩,
    hm⟩
  exact
    { lastId_eq := hs.stores.lastId_eq
      hashes_eq := by rw [hfile, hs.stores.hashes_eq]
      hashes_exists := by
        rw [hfile]
        exact hs.stores.hashes_exists
      block_eq := fun index record hrecord => by
        rw [hfile, hs.stores.block_eq index record hrecord]
      block_only := fun id => by
        rw [hfile]
        exact hs.stores.block_only id }

theorem Carries.readFile_some (h : Carries host contents s files) (hgrants : host.Grants)
    (hpath : files path = some blocks) :
    readFile host s path = .ok (some blocks.flatten) := by
  rw [h.readFile_eq hgrants, hpath, Option.map_some]

theorem Carries.hasRoom_iff (h : Carries host contents s files) (hgrants : host.Grants)
    (hpath : files path = some blocks) (size : Nat) :
    HasRoom host s path size ↔ blocks.flatten.length ≤ size := by
  rw [HasRoom, h.getRealSize_eq hgrants hpath]
  simp only [Except.ok.injEq, forall_eq', Nat.cast_le]

theorem Carries.bbRead_eq (h : Carries host contents s files) (hgrants : host.Grants)
    (hpath : files path = some blocks) {size : Nat} (hroom : blocks.flatten.length ≤ size)
    (offset fh : Nat) :
    ∃ s', bbRead host s path size offset fh = .ok (int32 size, blocks.flatten, s') ∧
      Carries host contents s' files := by
  refine ⟨_, ?_, h.after_temp blocks.flatten⟩
  rw [bbRead_of_readFile hgrants (h.readFile_some hgrants hpath), if_neg hroom.not_gt]

theorem Carries.bbRead_overflow (h : Carries host contents s files) (hgrants : host.Grants)
    (hpath : files path = some blocks) {size : Nat} (hroom : size < blocks.flatten.length)
    (offset fh : Nat) : bbRead host s path size offset fh = .error .overflow := by
  rw [bbRead_of_readFile hgrants (h.readFile_some hgrants hpath), if_pos hroom]

theorem size_shown (blocks : List Bytes) (ino : Nat) :
    (if (blocks.flatten.length : Int) > 0 then
        (⟨ino, false, (blocks.flatten.length : Int)⟩ : Stat)
      else ⟨ino, false, (idLength * blocks.length : Nat)⟩) =
      ⟨ino, false, shownSize blocks⟩ := by
  unfold shownSize
  by_cases hnil : blocks.flatten = []
  · simp [hnil]
  · have hpos : 0 < blocks.flatten.length := List.length_pos_iff.mpr hnil
    rw [if_pos (by omega), if_neg hnil]

theorem Carries.bbGetattr_eq (h : Carries host contents s files) (hgrants : host.Grants)
    (path : Path) (statbuf : Stat) :
    ∃ found, bbGetattr host s path statbuf = .ok found ∧
      PathMap.AllowsStat (files path) statbuf (.stat found.1 found.2) := by
  cases hpath : files path with
  | none =>
      obtain ⟨hresolve, hlookup⟩ := h.resolve_of_none hpath
      have hsize : getRealSize host s path = .ok 0 := by
        rw [getRealSize, openPath_of_error hgrants hresolve]
      refine ⟨(-2, statbuf), ?_, rfl⟩
      simp only [bbGetattr, hsize, lstat, hlookup]
      rfl
  | some blocks =>
      obtain ⟨inode, -, hlookup, hslots, -⟩ := h.leads hpath
      have hsize := h.getRealSize_eq hgrants hpath
      refine ⟨(0, ⟨inode, false, shownSize blocks⟩), ?_, inode, rfl⟩
      rw [← size_shown, ← hslots]
      simp only [bbGetattr, hsize, lstat, hlookup]
      rfl

theorem Carries.bbFgetattr_eq (h : Carries host contents s files) (hgrants : host.Grants)
    (hpath : files path = some blocks) :
    ∃ fh, bbOpen s path = .ok fh ∧
      bbFgetattr host s path fh = .ok (0, ⟨fh, false, shownSize blocks⟩) := by
  obtain ⟨inode, hresolve, -, hslots, -⟩ := h.leads hpath
  have hsize := h.getRealSize_eq hgrants hpath
  refine ⟨inode, by rw [bbOpen, hresolve]; rfl, ?_⟩
  rw [← size_shown, ← hslots]
  simp only [bbFgetattr, hsize, fstat]
  rfl

theorem Carries.mem_keys (h : Carries host contents s files) (path : Path) :
    path ∈ s.rootdir.names.keys ↔ files path ≠ none := by
  obtain ⟨-, m, hs, hm⟩ := h
  rw [hm.files_eq path, Ne, Option.map_eq_none_iff, ← FileSystem.lookup_map pointerBytes,
    ← hs.rootdir_eq, FileSystem.lookup, AList.lookup_eq_none, not_not, AList.mem_keys]

theorem Carries.answer_eq {scan : FileSystem Path Bytes → List Path}
    (hscan : ∀ rootdir, (scan rootdir).Perm (entryNames rootdir.names.keys)) (errno : Errno)
    (h : Carries host contents s files) (hgrants : host.Grants)
    (hinj : Set.InjOn host.sha1 contents) {operation : Operation}
    (hunhindered : Unhindered host s operation)
    (hhanded : handedOver operation.event?.toList ⊆ contents) :
    ∃ told s', answer host scan errno s operation = .ok (told, s') ∧
      files.Allows operation told ∧ Carries host contents s' (files.operate operation) := by
  cases operation with
  | event event =>
      obtain ⟨s', hserve, hs'⟩ := h.serveEvent hgrants hinj hunhindered hhanded
      exact ⟨.served, s', by rw [answer, hserve]; rfl, rfl, hs'⟩
  | getattr path statbuf =>
      obtain ⟨found, hfound, hallows⟩ := h.bbGetattr_eq hgrants path statbuf
      refine ⟨.stat found.1 found.2, s, ?_, hallows, h⟩
      rw [answer, hfound]
      rfl
  | fgetattr path statbuf =>
      cases hpath : files path with
      | none =>
          have hopen : bbOpen s path = .error (-2) := by
            rw [bbOpen, (h.resolve_of_none hpath).1]
            rfl
          refine ⟨.stat (-2) statbuf, s, ?_, ?_, h⟩
          · simp only [answer, hopen]
            rfl
          · rw [PathMap.Allows, hpath]
            rfl
      | some blocks =>
          obtain ⟨fh, hopen, hfound⟩ := h.bbFgetattr_eq hgrants hpath
          refine ⟨.stat 0 ⟨fh, false, shownSize blocks⟩, s, ?_, ?_, h⟩
          · simp only [answer, hopen, hfound]
            rfl
          · rw [PathMap.Allows, hpath]
            exact ⟨fh, rfl⟩
  | read path size offset =>
      cases hpath : files path with
      | none =>
          have hopen : bbOpen s path = .error (-2) := by
            rw [bbOpen, (h.resolve_of_none hpath).1]
            rfl
          refine ⟨.data (-2) [], s, ?_, ?_, h⟩
          · simp only [answer, hopen]
            rfl
          · rw [PathMap.Allows, hpath]
      | some blocks =>
          obtain ⟨fh, hopen, -⟩ := h.bbFgetattr_eq hgrants hpath
          have hroom := (h.hasRoom_iff hgrants hpath size).mp hunhindered
          obtain ⟨s', hread, hs'⟩ := h.bbRead_eq hgrants hpath hroom offset fh
          refine ⟨.data (int32 size) blocks.flatten, s', ?_, ?_, hs'⟩
          · simp only [answer, hopen, hread, bind, Except.bind, pure, Except.pure]
          · rw [PathMap.Allows, hpath]
  | readdir room =>
      have hperm := hscan s.rootdir
      have hdp : scan s.rootdir ≠ [] := by
        intro hnil
        rw [hnil] at hperm
        exact List.cons_ne_nil _ _ (List.nil_perm.mp hperm)
      refine ⟨_, s, rfl, ⟨s.rootdir.names.keys, scan s.rootdir, s.rootdir.names.keys_nodup,
        h.mem_keys, hperm, ?_⟩, h⟩
      rw [bbReaddir_fillNames hdp]

theorem Carries.answer_read_overflow (h : Carries host contents s files)
    (hgrants : host.Grants) (scan : FileSystem Path Bytes → List Path) (errno : Errno)
    (hpath : files path = some blocks) {size : Nat} (hroom : size < blocks.flatten.length)
    (offset : Nat) :
    answer host scan errno s (.read path size offset) = .error .overflow := by
  obtain ⟨fh, hopen, -⟩ := h.bbFgetattr_eq hgrants hpath
  simp only [answer, hopen, h.bbRead_overflow hgrants hpath hroom offset fh, bind, Except.bind]

end

def watchedSession : List Operation :=
  [.event (.request (.mknod "a")), .getattr "a" ⟨0, false, 0⟩,
    .event (.request (.write "a" [97] 0)), .event .restart, .fgetattr "a" ⟨0, false, 0⟩,
    .read "a" 4096 0, .getattr "b" ⟨0, false, 0⟩, .readdir 2]

theorem handedOver_watchedSession :
    handedOver (watchedSession.filterMap Operation.event?) ⊆ {[97], [98]} := by
  rintro content (⟨path, buf, offset, hmem, rfl⟩ | ⟨buf, steps, hmem, rfl⟩)
  · simp only [watchedSession, List.filterMap_cons, List.filterMap_nil, Operation.event?,
      List.mem_cons, Event.request.injEq, Request.write.injEq, List.not_mem_nil, reduceCtorEq,
      false_or, or_false] at hmem
    obtain ⟨-, rfl, -⟩ := hmem
    decide
  · simp [watchedSession, Operation.event?] at hmem

def watchedAnswers : List Answer :=
  [.served, .stat 0 ⟨0, false, 0⟩, .served, .served, .stat 0 ⟨0, false, 1⟩, .data 4096 [97],
    .stat (-2) ⟨0, false, 0⟩, .names (-12) [".", ".."]]

theorem watchedSession_transcript :
    ∃ told, transcript (answer (.granting sampleSha1)
        (fun rootdir => entryNames rootdir.names.keys) .noEntry) freshMount watchedSession =
          .ok told ∧
      told.1 = watchedAnswers := by
  decide +kernel

end Ece318.Bbfs
