import Ece318.Foundation.FileSystem
import Ece318.Foundation.Format

/-!
# The state of the file system

`params.h` and what its paths point to.  `rootdir` holds one pointers file for
each user file; `.real_storage` (`hiddendir`) holds the hashes file, one file
for each block, and for the length of a `bb_read` the file `temp`.  The runs
below make no directories, so `rootdir` is flat and a `bb_fullpath` is the path
itself.
-/

namespace Ece318.Bbfs

open Ece318.Foundation

abbrev Path := String

/-- The files of `.real_storage`: `hashes`, `<id>.txt` and `temp`. -/
inductive StorageFile where
  | hashes
  | block (id : Bytes)
  | temp
  deriving DecidableEq, Repr

/-- `struct bb_state`, with the two directories its paths lead to. -/
structure BbState where
  lastId : Nat
  hiddendir : AList (fun _ : StorageFile => Bytes)
  rootdir : FileSystem Path Bytes

/-- What C leaves undefined and the code can run into. -/
inductive Fault where
  | nullPointer
  | overflow
  | uninitialised
  deriving DecidableEq, Repr

/-- The `fopen` calls of `our_lib.c` and `bbfs.c`. -/
inductive FopenCall where
  | compareHashes
  | writeHash
  | generateBlock
  | readBlock
  | getRealSize
  | readFile
  | deleteHashes
  | deletePointers
  | removePointers
  | bbRead
  deriving DecidableEq, Repr

/--
What the program takes from outside: OpenSSL's `SHA1`, the `fopen` calls the
kernel grants, whether it lets a name be removed from `rootdir`, and whether
`malloc` leaves a byte to spare behind the array of the name in `read_block`.
-/
structure Host where
  sha1 : Bytes → Vector UInt8 20
  grants : FopenCall → Bool
  mayUnlink : Bool
  nameSlack : Bool

/-- A host on which no call is refused and the name of a block has its byte. -/
def Host.granting (sha1 : Bytes → Vector UInt8 20) : Host :=
  ⟨sha1, fun _ => true, true, true⟩

/-- What `SHA1` answers for the blocks of the runs worked out below, the last for `""`. -/
def sampleSha1 (data : Bytes) : Vector UInt8 20 :=
  if data = [97] then
    #v[0x86, 0xf7, 0xe4, 0x37, 0xfa, 0xa5, 0xa7, 0xfc, 0xe1, 0x5d,
      0x1d, 0xdc, 0xb9, 0xea, 0xea, 0xea, 0x37, 0x76, 0x67, 0xb8]
  else if data = [98] then
    #v[0xe9, 0xd7, 0x1f, 0x5e, 0xe7, 0xc9, 0x2d, 0x6d, 0xc9, 0xe9,
      0x2f, 0xfd, 0xad, 0x17, 0xb8, 0xbd, 0x49, 0x41, 0x8f, 0x98]
  else if data = [99] then
    #v[0x84, 0xa5, 0x16, 0x84, 0x1b, 0xa7, 0x7a, 0x5b, 0x46, 0x48,
      0xde, 0x2c, 0xd0, 0xdf, 0xcb, 0x30, 0xea, 0x46, 0xdb, 0xb4]
  else
    #v[0xda, 0x39, 0xa3, 0xee, 0x5e, 0x6b, 0x4b, 0x0d, 0x32, 0x55,
      0xbf, 0xef, 0x95, 0x60, 0x18, 0x90, 0xaf, 0xd8, 0x07, 0x09]

theorem sampleSha1_injOn : Set.InjOn sampleSha1 {[97], [98]} := by
  rintro first (rfl | rfl) second (rfl | rfl) h
  · rfl
  · exact absurd h (by decide)
  · exact absurd h (by decide)
  · rfl

def frontSha1 (data : Bytes) : Vector UInt8 20 :=
  Vector.ofFn fun index : Fin 20 => data.getD index 0

theorem frontSha1_injOn : Set.InjOn frontSha1 {data | data.length = 4} := by
  intro first hfirst second hsecond h
  rw [Set.mem_ofPred_eq] at hfirst hsecond
  refine List.ext_getElem (hfirst.trans hsecond.symm) fun index hlt hlt' => ?_
  have hbyte := congrArg (fun digest : Vector UInt8 20 => digest[index]?) h
  have hindex : index < 20 := by omega
  simpa [frontSha1, hindex, hlt, hlt'] using hbyte

/-- The value a C `int` takes. -/
def int32 (value : Int) : Int := value.bmod (2 ^ 32)

/-- `malloc`: the `size_t` asked for, or NULL past the address space. -/
def malloc (size : Int) : Option Nat :=
  let bytes := (size % 2 ^ 64).toNat
  if bytes < 2 ^ 63 then some bytes else none

namespace BbState

def file (s : BbState) (name : StorageFile) : Option Bytes :=
  s.hiddendir.lookup name

def setFile (s : BbState) (name : StorageFile) (content : Bytes) : BbState :=
  { s with hiddendir := s.hiddendir.insert name content }

def removeFile (s : BbState) (name : StorageFile) : BbState :=
  { s with hiddendir := s.hiddendir.erase name }

def setLastId (s : BbState) (lastId : Nat) : BbState :=
  { s with lastId := lastId }

def setPointers (s : BbState) (inode : Nat) (content : Bytes) : BbState :=
  { s with rootdir := s.rootdir.write inode content }

section

variable (s : BbState)

@[simp] theorem file_setFile (name other : StorageFile) (content : Bytes) :
    (s.setFile name content).file other =
      if other = name then some content else s.file other := by
  by_cases h : other = name
  · subst other
    simp [file, setFile]
  · simp [file, setFile, h, AList.lookup_insert_ne h]

@[simp] theorem file_removeFile (name other : StorageFile) :
    (s.removeFile name).file other = if other = name then none else s.file other := by
  by_cases h : other = name
  · subst other
    simp [file, removeFile]
  · simp [file, removeFile, h, AList.lookup_erase_ne h]

@[simp] theorem file_setPointers (inode : Nat) (content : Bytes) (name : StorageFile) :
    (s.setPointers inode content).file name = s.file name := rfl

@[simp] theorem file_setLastId (lastId : Nat) (name : StorageFile) :
    (s.setLastId lastId).file name = s.file name := rfl

@[simp] theorem lastId_setLastId (lastId : Nat) :
    (s.setLastId lastId).lastId = lastId := rfl

@[simp] theorem rootdir_setLastId (lastId : Nat) :
    (s.setLastId lastId).rootdir = s.rootdir := rfl

@[simp] theorem lastId_setFile (name : StorageFile) (content : Bytes) :
    (s.setFile name content).lastId = s.lastId := rfl

@[simp] theorem lastId_removeFile (name : StorageFile) :
    (s.removeFile name).lastId = s.lastId := rfl

@[simp] theorem lastId_setPointers (inode : Nat) (content : Bytes) :
    (s.setPointers inode content).lastId = s.lastId := rfl

@[simp] theorem rootdir_setFile (name : StorageFile) (content : Bytes) :
    (s.setFile name content).rootdir = s.rootdir := rfl

@[simp] theorem rootdir_removeFile (name : StorageFile) :
    (s.removeFile name).rootdir = s.rootdir := rfl

@[simp] theorem rootdir_setPointers (inode : Nat) (content : Bytes) :
    (s.setPointers inode content).rootdir = s.rootdir.write inode content := rfl

end

end BbState

end Ece318.Bbfs
