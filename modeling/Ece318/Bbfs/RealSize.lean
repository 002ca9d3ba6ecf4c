import Ece318.Foundation.Runs
import Ece318.Bbfs.ReadSpec

/-!
# The size of a file and its content

`read_file` allocates what `get_real_size` adds up, and fills it in a loop of
its own.  The one loop reads ids until one comes back short and takes sizes
from `stat`; the other counts the ids beforehand and takes what `read_block`
returns.  They meet the same ids, and a block without a NUL is as long as its
file.
-/

namespace Ece318.Bbfs

open Ece318.Foundation

/-! ## The loops on their streams -/

/-- The loop of `get_real_size`, on the stream that it reads until an id comes back short. -/
def sizeStream (s : BbState) (pointersFile : Bytes) :
    Nat → ReadStream → Option Nat → Int → Except Fault Int
  | 0, _, _, totalSize => .ok totalSize
  | fuel + 1, stream, st, totalSize =>
      let (id, stream) := stream.fread streamBuffer pointersFile idLength
      if id.length < idLength then .ok totalSize
      else
        let st :=
          match s.file (.block (cString id)) with
          | some content => some content.length
          | none => st
        match st with
        | none => .error .uninitialised
        | some size =>
            sizeStream s pointersFile fuel stream (some size) (int32 (totalSize + size))

/-- The loop of `read_file`, on the stream that it reads `num_of_blocks` ids from. -/
def appendStream (host : Host) (s : BbState) (capacity : Nat) (pointersFile : Bytes) :
    Nat → ReadStream → Bytes → Except Fault Bytes
  | 0, _, fileData => .ok fileData
  | blocks + 1, stream, fileData => do
      let (id, stream) := stream.fread streamBuffer pointersFile idLength
      if id.length ≠ idLength then return fileData
      else
        match ← readBlock host s id with
        | none => .error .nullPointer
        | some buffer =>
            let fileData := fileData ++ cString buffer
            if capacity < fileData.length + 1 then .error .overflow
            else appendStream host s capacity pointersFile blocks stream fileData

section

variable (host : Host) (s : BbState) (pointersFile : Bytes)

theorem entries_eq_items {fuel : Nat} (hfuel : pointersFile.length / idLength ≤ fuel) :
    entries idLength pointersFile =
      ReadStream.items streamBuffer pointersFile idLength fuel .start :=
  (ReadStream.items_start (by decide) (by decide) hfuel).symm

theorem fread_idLength_le (stream : ReadStream) :
    (stream.fread streamBuffer pointersFile idLength).1.length ≤ idLength := by
  rw [ReadStream.fread_fst pointersFile stream (by decide)]
  exact List.length_take_le _ _

theorem sizeStream_items (fuel : Nat) (stream : ReadStream) (st : Option Nat)
    (totalSize : Int) :
    sizeStream s pointersFile fuel stream st totalSize =
      sizeLoop s (stream.items streamBuffer pointersFile idLength fuel) st totalSize := by
  induction fuel generalizing stream st totalSize with
  | zero => rfl
  | succ fuel ih =>
      have hle := fread_idLength_le pointersFile stream
      simp only [sizeStream, ReadStream.items]
      by_cases hfull : (stream.fread streamBuffer pointersFile idLength).1.length = idLength
      · rw [if_neg (by omega), if_pos hfull]
        simp only [ih]
        rfl
      · have hshort : (stream.fread streamBuffer pointersFile idLength).1.length < idLength := by
          omega
        simp only [if_pos hshort, if_neg hfull, sizeLoop]

theorem appendStream_items (capacity blocks : Nat) (stream : ReadStream) (fileData : Bytes) :
    appendStream host s capacity pointersFile blocks stream fileData =
      appendLoop host s capacity (stream.items streamBuffer pointersFile idLength blocks)
        fileData := by
  induction blocks generalizing stream fileData with
  | zero => rfl
  | succ blocks ih =>
      simp only [appendStream, ReadStream.items]
      by_cases hfull : (stream.fread streamBuffer pointersFile idLength).1.length = idLength
      · rw [if_neg (not_not.mpr hfull), if_pos hfull]
        simp only [ih]
        rfl
      · simp only [if_pos hfull, if_neg hfull, appendLoop, pure, Except.pure]

/--
`get_real_size` reads until an id comes back short and `read_file` reads
`num_of_blocks` ids: both go over the entries of the pointers file.
-/
theorem streams_read_entries {fuel : Nat} (hfuel : pointersFile.length / idLength < fuel)
    (capacity : Nat) :
    sizeStream s pointersFile fuel .start none 0 =
        sizeLoop s (entries idLength pointersFile) none 0 ∧
      appendStream host s capacity pointersFile (pointersFile.length / idLength) .start [] =
        appendLoop host s capacity (entries idLength pointersFile) [] := by
  constructor
  · rw [sizeStream_items, ← entries_eq_items pointersFile hfuel.le]
  · rw [appendStream_items, ← entries_eq_items pointersFile (Nat.le_refl _)]

end

/-! ## The size and the content -/

theorem length_le_flatten {contents : List Bytes} {content : Bytes} (h : content ∈ contents) :
    content.length ≤ contents.flatten.length :=
  (List.sublist_flatten_of_mem h).length_le

def tailRun : List Request :=
  [.mknod "a", .write "a" [97] 0, .write "a" [97] 4069, .truncate "a" 8]

end Ece318.Bbfs
