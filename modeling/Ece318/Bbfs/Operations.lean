import Ece318.Bbfs.OurLib

/-!
# `bbfs.c`

The FUSE callbacks that touch pointers files, and what `main` does before
`fuse_main`.  Every callback returns a C `int`; `fh` is the inode behind
`fi->fh`, the descriptor `bb_open` left there.  `bb_read` also returns the
bytes it puts at the front of `buf`.
-/

namespace Ece318.Bbfs

open Ece318.Foundation

/-- `MAX_BLOCK_SIZE` as `bbfs.c` has it, which `our_lib.c` defines as 4096. -/
abbrev bbfsMaxBlockSize : Nat := 4069

variable (host : Host)

/-- `log_syscall`: 0 and the new directory, or `-errno` and the old one. -/
def logSyscall (s : BbState) (result : Except Errno (FileSystem Path Bytes)) :
    Int × BbState :=
  match result with
  | .ok rootdir => (0, { s with rootdir := rootdir })
  | .error errno => (-errno.code, s)

/-- `bb_mknod` of a regular file. -/
def bbMknod (s : BbState) (path : Path) : Int × BbState :=
  logSyscall s (s.rootdir.create path [])

/-- `bb_unlink`: the blocks go first, whatever `unlink` says afterwards. -/
def bbUnlink (s : BbState) (path : Path) : Except Fault (Int × BbState) := do
  let s ← deleteBlocks host s path
  return logSyscall s
    (if host.mayUnlink then s.rootdir.unlink path else .error .accessDenied)

/-- `bb_symlink`: the new name is `link`, and it leads to `path`. -/
def bbSymlink (s : BbState) (path link : Path) : Int × BbState :=
  logSyscall s (s.rootdir.symlink path link [])

def bbRename (s : BbState) (path newpath : Path) : Int × BbState :=
  logSyscall s (s.rootdir.rename path newpath)

def bbLink (s : BbState) (path newpath : Path) : Int × BbState :=
  logSyscall s (s.rootdir.link path newpath)

def bbTruncate (s : BbState) (path : Path) (newsize : Nat) : Int × BbState :=
  match s.rootdir.resolve path with
  | .ok inode => (0, s.setPointers inode (resize (s.rootdir.data inode) newsize))
  | .error errno => (-errno.code, s)

def bbFtruncate (s : BbState) (offset fh : Nat) : Int × BbState :=
  (0, s.setPointers fh (resize (s.rootdir.data fh) offset))

/--
`bb_read`: whatever window is asked for, the whole content goes through the
file `temp` into `buf`, which has room for `size` bytes.
-/
def bbRead (s : BbState) (path : Path) (size offset fh : Nat) :
    Except Fault (Int × Bytes × BbState) := do
  let block ← readFile host s path
  if host.grants .bbRead then
    let s := s.setFile .temp []
    match block with
    | none =>
        let buf := readAt (s.rootdir.data fh) offset size
        return (int32 size, buf, s.removeFile .temp)
    | some block =>
        let s := s.setFile .temp (writeAt [] block 0)
        let buf := readAt ((s.file .temp).getD []) 0 block.length
        if size < buf.length then .error .overflow
        else return (int32 size, buf, s.removeFile .temp)
  else return (int32 size, [], s)

/-- `bb_write`; `size` is the length of `buf`. -/
def bbWrite (s : BbState) (buf : Bytes) (offset fh : Nat) :
    Except Fault (Int × BbState) := do
  let (blocks, s) ← writeBlocks host s buf
  let pointers := writeAt (s.rootdir.data fh) blocks
    (offset / bbfsMaxBlockSize * idLength)
  return (int32 buf.length, s.setPointers fh pointers)

/-- `main` up to `fuse_main`, over the directories an earlier mount has left. -/
def mount (s : BbState) : BbState :=
  s.setLastId (getInitialIdNumber s.hiddendir)

def freshMount : BbState :=
  mount ⟨0, ∅, FileSystem.empty []⟩

/-! ## Requests -/

/-- The requests that change the store, as FUSE sends them. -/
inductive Request where
  | mknod (path : Path)
  | write (path : Path) (buf : Bytes) (offset : Nat)
  | truncate (path : Path) (newsize : Nat)
  | rename (path newpath : Path)
  | unlink (path : Path)
  | link (path newpath : Path)
  | symlink (path link : Path)
  deriving DecidableEq, Repr

/--
One request in one mount.  A write goes through the descriptor of a `bb_open`
of its path; where that fails there is no write.
-/
def serve (s : BbState) : Request → Except Fault BbState
  | .mknod path => .ok (bbMknod s path).2
  | .write path buf offset =>
      match s.rootdir.resolve path with
      | .error _ => .ok s
      | .ok fh => (bbWrite host s buf offset fh).map Prod.snd
  | .truncate path newsize => .ok (bbTruncate s path newsize).2
  | .rename path newpath => .ok (bbRename s path newpath).2
  | .unlink path => (bbUnlink host s path).map Prod.snd
  | .link path newpath => .ok (bbLink s path newpath).2
  | .symlink path link => .ok (bbSymlink s path link).2

section

variable {host} {s s' : BbState} {path : Path}

@[simp] theorem file_logSyscall (result : Except Errno (FileSystem Path Bytes))
    (name : StorageFile) : (logSyscall s result).2.file name = s.file name := by
  cases result <;> rfl

theorem serve_write_eq {buf text : Bytes} {fh : Nat}
    (hpath : s.rootdir.resolve path = .ok fh) (hwrite : writeBlocks host s buf = .ok (text, s'))
    (offset : Nat) :
    serve host s (.write path buf offset) =
      .ok (s'.setPointers fh (writeAt (s'.rootdir.data fh) text
        (offset / bbfsMaxBlockSize * idLength))) := by
  simp only [serve, hpath, bbWrite, hwrite]
  rfl

theorem bbUnlink_eq (hdelete : deleteBlocks host s path = .ok s') :
    bbUnlink host s path = .ok (logSyscall s'
      (if host.mayUnlink then s'.rootdir.unlink path else .error .accessDenied)) := by
  simp only [bbUnlink, hdelete]
  rfl

theorem serve_unlink_eq (hdelete : deleteBlocks host s path = .ok s') :
    serve host s (.unlink path) = .ok (logSyscall s'
      (if host.mayUnlink then s'.rootdir.unlink path else .error .accessDenied)).2 := by
  rw [serve, bbUnlink_eq hdelete]
  rfl

end

end Ece318.Bbfs
