import Ece318.Foundation.RecordFile
import Ece318.Foundation.Stdio
import Ece318.Bbfs.State

/-!
# `our_lib.c`

The deduplicating store, function by function.  A `char *` argument is the
array behind it, and what the code passes on without a length it passes on as a
C string.  The name that `read_block` makes is a byte longer than its array, and
whether that byte is there is up to the host.  An id or a counter with more
digits than its field, which runs past an array of `write_hash`, `write_blocks`
or `delete_blocks`, is followed to the bytes that reach the file.  Log messages
are left out.
-/

namespace Ece318.Bbfs

open Ece318.Foundation

abbrev idLength : Nat := 3

abbrev pointersCounterLength : Nat := 2

abbrev hashSize : Nat := 40

abbrev maxBlockSize : Nat := 4096

abbrev lineTotalLength : Nat := idLength + pointersCounterLength + hashSize

abbrev formatedIdMaxLen : Nat := 3

/-- What stdio reads ahead. -/
abbrev streamBuffer : Nat := 4096

variable (host : Host)

/-- `fopen` of a file of `.real_storage` that has to exist. -/
def openFile (s : BbState) (call : FopenCall) (name : StorageFile) : Option Bytes :=
  if host.grants call then s.file name else none

/-- `fopen` of a path of `rootdir` that has to exist: the inode it leads to. -/
def openPath (s : BbState) (call : FopenCall) (fpath : Path) : Option Nat :=
  if host.grants call then (s.rootdir.resolve fpath).toOption else none

def generateHash (data : Bytes) : Bytes :=
  hexBytes (host.sha1 (cString data)).toList

/--
The loop of `compare_hashes`, its stream at `position`, just past an id.  Each
round moves on by a record, so the length of the file is fuel enough.
-/
def compareLoop (lastId : Nat) (hashesfile hashToCompare : Bytes) :
    Nat → Nat → Int
  | 0, _ => lastId + 1
  | fuel + 1, position =>
      let usage := readAt hashesfile position pointersCounterLength
      let hash := readAt hashesfile (position + pointersCounterLength) hashSize
      if usage.length ≠ pointersCounterLength then lastId + 1
      else if hash.length ≠ hashSize then lastId + 1
      -- a record with the counter 00 is passed over
      else if cString hash = hashToCompare ∧ cString usage ≠ formatInt 2 0 then
        -- back over hash, counter and id
        atoi (readAt hashesfile
          (position + pointersCounterLength + hashSize - lineTotalLength) idLength)
      else
        compareLoop lastId hashesfile hashToCompare fuel (position + lineTotalLength)

/-- `compare_hashes`; its `fopen` creates the hashes file. -/
def compareHashes (s : BbState) (hashToCompare : Bytes) : Int × BbState :=
  if host.grants .compareHashes then
    let hashesfile := (s.file .hashes).getD []
    (compareLoop s.lastId hashesfile hashToCompare (hashesfile.length + 1) idLength,
      s.setFile .hashes hashesfile)
  else (1, s)

def writeHash (s : BbState) (hash : Bytes) (id : Int) : Except Fault BbState :=
  match openFile host s .writeHash .hashes with
  | none => .ok s
  | some hashesfile =>
      if id > s.lastId then
        let lineToWrite := formatInt 3 id ++ [48, 49] ++ hash
        .ok (s.setFile .hashes (writeAt hashesfile lineToWrite hashesfile.length))
      else
        let position := fseek 0 ((id - 1) * lineTotalLength + idLength)
        let usage := readAt hashesfile position pointersCounterLength
        if usage.length ≠ pointersCounterLength then .error .uninitialised
        else
          let counter := atoi usage + 1
          let position := position + pointersCounterLength
          let position := fseek position (position - idLength - pointersCounterLength)
          let lineToWrite := formatInt 3 id ++ formatInt 2 counter ++ hash
          .ok (s.setFile .hashes (writeAt hashesfile lineToWrite position))

def generateBlock (s : BbState) (blockData : Bytes) : Except Fault (Int × BbState) := do
  let hash := generateHash host blockData
  let (lastID, s) := compareHashes host s hash
  if lastID ≤ s.lastId then
    let s ← writeHash host s hash lastID
    return (lastID, s)
  else if host.grants .generateBlock then
    let nextBlock := StorageFile.block (formatInt 3 (s.lastId + 1))
    let s := s.setFile nextBlock []
    let s ← writeHash host s hash (s.lastId + 1)
    let s := s.setLastId (s.lastId + 1)
    return (s.lastId, s.setFile nextBlock (cString blockData))
  else return (0, s)

/-- What follows a `malloc`; the functions below pass on its NULL. -/
def withMalloc (size : Int) (use : Nat → Except Fault (Option Bytes)) :
    Except Fault (Option Bytes) :=
  match malloc size with
  | none => .ok none
  | some capacity => use capacity

/-- `read_block`; its parameter `size` is never used. -/
def readBlock (s : BbState) (id : Bytes) : Except Fault (Option Bytes) :=
  -- behind the directory: a slash, the id, ".txt" and the NUL
  let nameLength := (cString id).length + 6
  if formatedIdMaxLen + 5 < nameLength ∧ host.nameSlack = false then .error .overflow
  else
    match openFile host s .readBlock (.block (cString id)) with
    | none => .ok none
    | some content =>
        let realSize := int32 content.length
        withMalloc (int32 (realSize + 1)) fun _ =>
          if realSize < 0 then .error .overflow
          else .ok (some (content.take realSize.toNat))

/--
The loop of `get_real_size`.  `st` keeps what the last successful `stat` left
in it, and holds nothing before the first.
-/
def sizeLoop (s : BbState) : List Bytes → Option Nat → Int → Except Fault Int
  | [], _, totalSize => .ok totalSize
  | id :: ids, st, totalSize =>
      let st :=
        match s.file (.block (cString id)) with
        | some content => some content.length
        | none => st
      match st with
      | none => .error .uninitialised
      | some size => sizeLoop s ids (some size) (int32 (totalSize + size))

def getRealSize (s : BbState) (fpath : Path) : Except Fault Int :=
  match openPath host s .getRealSize fpath with
  | none => .ok 0
  | some inode => sizeLoop s (entries idLength (s.rootdir.data inode)) none 0

/-- The loop of `read_file`: `strcat` into an array of `capacity` bytes. -/
def appendLoop (s : BbState) (capacity : Nat) :
    List Bytes → Bytes → Except Fault Bytes
  | [], fileData => .ok fileData
  | id :: ids, fileData => do
      match ← readBlock host s id with
      | none => .error .nullPointer
      | some buffer =>
          let fileData := fileData ++ cString buffer
          if capacity < fileData.length + 1 then .error .overflow
          else appendLoop s capacity ids fileData

/-- `read_file`; the answer `none` is NULL. -/
def readFile (s : BbState) (fpath : Path) : Except Fault (Option Bytes) := do
  let size ← getRealSize host s fpath
  match openPath host s .readFile fpath with
  | none => return none
  | some inode =>
      withMalloc (size + 10) fun capacity =>
        if capacity = 0 then .error .overflow
        else
          (appendLoop host s capacity (entries idLength (s.rootdir.data inode)) []).map some

/-- `write_blocks`: the id as text, and the state it leaves. -/
def writeBlocks (s : BbState) (buf : Bytes) : Except Fault (Bytes × BbState) := do
  if maxBlockSize < buf.length then .error .overflow
  else
    let blockData := buf ++ [0]
    let (id, s) ← generateBlock host s blockData
    return (formatInt 3 id, s)

/-- `get_initial_id_number` of `.real_storage`, where every entry is a file. -/
def getInitialIdNumber (hiddendir : AList (fun _ : StorageFile => Bytes)) : Nat :=
  let fileCount := hiddendir.entries.length
  if fileCount = 0 then fileCount else fileCount - 1

/-! ## `delete_blocks` -/

/-- The two streams of `delete_blocks` and the arrays it reuses. -/
structure DeleteLocals where
  pointersFile : ReadStream
  position : Nat
  usage : Option Bytes
  hash : Option Bytes

/-- `fclose(fopen(fpath, "w")); unlink(block_name)` -/
def dropBlock (s : BbState) (fpath : Path) (id : Bytes) : Except Fault BbState :=
  match openPath host s .removePointers fpath with
  | none => .error .nullPointer
  | some inode => .ok ((s.setPointers inode []).removeFile (.block (cString id)))

/--
One entry of the pointers file.  `usage` is what the counter array holds after
its `fread` at `position`.
-/
def deleteEntry (s : BbState) (fpath : Path) (id usage : Bytes)
    (locals : DeleteLocals) : Except Fault (BbState × DeleteLocals) := do
  if atoi usage = 0 then return (s, locals)
  else
    let dropped := if atoi usage = 1 then dropBlock host s fpath id else .ok s
    let s ← dropped
    let hashesfile := (s.file .hashes).getD []
    let got := readAt hashesfile locals.position hashSize
    match fillArray locals.hash got hashSize with
    | none => .error .uninitialised
    | some hash =>
        let updatedHash := cString id ++ formatInt 2 (atoi usage - 1) ++ cString hash
        let position := locals.position + got.length
        let position := fseek position (position - lineTotalLength)
        return (s.setFile .hashes (writeAt hashesfile updatedHash position),
          { locals with
            position := position + updatedHash.length
            hash := some hash })

/--
The loop of `delete_blocks` over the pointers file `inode`.  Every round takes
three bytes of it, so its length is fuel enough.
-/
def deleteLoop (fpath : Path) (inode : Nat) :
    Nat → BbState → DeleteLocals → Except Fault BbState
  | 0, s, _ => .ok s
  | fuel + 1, s, locals => do
      let (id, pointersFile) :=
        locals.pointersFile.fread streamBuffer (s.rootdir.data inode) idLength
      if id.length ≠ idLength then return s
      else
        let hashesfile := (s.file .hashes).getD []
        let position :=
          fseek locals.position ((atoi id - 1) * lineTotalLength + idLength)
        let got := readAt hashesfile position pointersCounterLength
        match fillArray locals.usage got pointersCounterLength with
        | none => .error .uninitialised
        | some usage =>
            let (s, locals) ← deleteEntry host s fpath id usage
              { locals with
                pointersFile := pointersFile
                position := position + got.length
                usage := some usage }
            deleteLoop fpath inode fuel s locals

/-- `delete_blocks`; `fclose` is called on a stream that may be NULL. -/
def deleteBlocks (s : BbState) (fpath : Path) : Except Fault BbState :=
  match openFile host s .deleteHashes .hashes,
      openPath host s .deletePointers fpath with
  | none, none => .error .nullPointer
  | none, some _ => .ok s
  | some _, none => .ok s
  | some _, some inode =>
      deleteLoop host fpath inode ((s.rootdir.data inode).length + 1) s
        ⟨.start, 0, none, none⟩

end Ece318.Bbfs
