import Ece318.Foundation.RecordFile

/-!
# Standard I/O streams

`fseek` and `fread` on a file nobody else changes are moves and windows on its
bytes.  `ReadStream` is for a file that changes while it is read: a stdio
stream that reads a file keeps the bytes it has fetched and not yet
served, and refills its buffer from the file only when that runs short.  The
file may change under the stream: bytes that are already buffered are served
all the same, and a refill sees the file as it is at that moment.
-/

namespace Ece318.Foundation

/-- `fseek` to an absolute offset; a negative one fails and moves nothing. -/
def fseek (position : Nat) (target : Int) : Nat :=
  if target < 0 then position else target.toNat

/--
`fread` of one `count`-byte item into a local array.  `none` is an array that
was never filled; a short read overwrites only the front.
-/
def fillArray (array : Option Bytes) (got : Bytes) (count : Nat) : Option Bytes :=
  if got.length = count then some got
  else array.map fun old => got ++ old.drop got.length

theorem fseek_eq {position target : Nat} {offset : Int} (h : offset = target) :
    fseek position offset = target := by
  rw [fseek, if_neg (by omega), h, Int.toNat_natCast]

theorem fillArray_full {array : Option Bytes} {got : Bytes} {count : Nat}
    (h : got.length = count) : fillArray array got count = some got := by
  rw [fillArray, if_pos h]

structure ReadStream where
  buffered : Bytes
  offset : Nat
  deriving DecidableEq, Repr

namespace ReadStream

def start : ReadStream := ⟨[], 0⟩

/--
`fread` of `count` bytes, at most a buffer's worth, from a stream over a file
whose content is now `file`.  At the end of the file fewer bytes come back.
-/
def fread (bufferSize : Nat) (file : Bytes) (count : Nat)
    (stream : ReadStream) : Bytes × ReadStream :=
  if count ≤ stream.buffered.length then
    (stream.buffered.take count,
      { stream with buffered := stream.buffered.drop count })
  else
    let chunk := readAt file stream.offset bufferSize
    let available := stream.buffered ++ chunk
    (available.take count,
      ⟨available.drop count, stream.offset + chunk.length⟩)

def unread (stream : ReadStream) (file : Bytes) : Bytes :=
  stream.buffered ++ file.drop stream.offset

@[simp] theorem unread_nil (stream : ReadStream) :
    stream.unread [] = stream.buffered := by
  simp [unread]

section

variable {bufferSize count : Nat} (file : Bytes) (stream : ReadStream)

theorem fread_fst (h : count ≤ bufferSize) :
    (stream.fread bufferSize file count).1 = (stream.unread file).take count := by
  unfold fread
  split
  · rename_i hcount
    simp [unread, List.take_append_of_le_length hcount]
  · simp only [unread, readAt, List.take_append, List.take_take]
    congr 2
    omega

theorem fread_unread (h : count ≤ bufferSize) :
    (stream.fread bufferSize file count).2.unread file =
      (stream.unread file).drop count := by
  unfold fread
  split
  · rename_i hcount
    simp [unread, List.drop_append_of_le_length hcount]
  · rename_i hcount
    have hrest : file.drop stream.offset =
        readAt file stream.offset bufferSize ++
          file.drop (stream.offset + bufferSize) := by
      rw [readAt, ← List.drop_drop, List.take_append_drop]
    -- a refill fetches a whole buffer, or all that is left of the file
    rcases Nat.lt_or_ge (stream.offset + bufferSize) file.length with hlong | hshort
    · have hchunk : (readAt file stream.offset bufferSize).length = bufferSize := by
        rw [readAt_length]
        omega
      have hlength : count ≤ (stream.buffered ++
          readAt file stream.offset bufferSize).length := by
        rw [List.length_append, hchunk]
        omega
      simp only [unread, hchunk]
      rw [hrest, ← List.append_assoc, List.drop_append_of_le_length hlength]
    · have htail : file.drop (stream.offset + bufferSize) = [] :=
        List.drop_eq_nil_of_le hshort
      have hend : file.drop (stream.offset +
          (readAt file stream.offset bufferSize).length) = [] := by
        apply List.drop_eq_nil_of_le
        rw [readAt_length]
        omega
      simp only [unread]
      rw [hend, hrest, htail, List.append_nil, List.append_nil]

end

/-! ## Item after item -/

/-- At most `fuel` calls of `fread` for `count` bytes each, up to the first that comes short. -/
def items (bufferSize : Nat) (file : Bytes) (count : Nat) : Nat → ReadStream → List Bytes
  | 0, _ => []
  | fuel + 1, stream =>
      let (item, stream) := stream.fread bufferSize file count
      if item.length = count then item :: items bufferSize file count fuel stream else []

theorem items_eq {bufferSize count : Nat} (hcount : 0 < count) (hbuffer : count ≤ bufferSize)
    (file : Bytes) (fuel : Nat) (stream : ReadStream) :
    items bufferSize file count fuel stream =
      (entries count (stream.unread file)).take fuel := by
  induction fuel generalizing stream with
  | zero => rw [items, List.take_zero]
  | succ fuel ih =>
      simp only [items, fread_fst file stream hbuffer, ih, fread_unread file stream hbuffer,
        List.length_take]
      rcases Nat.lt_or_ge (stream.unread file).length count with hshort | hfull
      · rw [if_neg (by omega), entries_of_short hshort, List.take_nil]
      · rw [if_pos (by omega), entries_cons hcount hfull, List.take_succ_cons]

theorem items_start {bufferSize count fuel : Nat} {file : Bytes} (hcount : 0 < count)
    (hbuffer : count ≤ bufferSize) (hfuel : file.length / count ≤ fuel) :
    items bufferSize file count fuel start = entries count file := by
  have hunread : start.unread file = file := by simp [unread, start]
  rw [items_eq hcount hbuffer, hunread]
  exact List.take_of_length_le (by rwa [entries_length])

/-! ## Where the refills fall -/

/--
The stream has served `consumed` bytes of an unchanged file and has fetched
`refills` buffers, the fewest that hold them.
-/
structure Synced (bufferSize : Nat) (file : Bytes) (consumed refills : Nat)
    (stream : ReadStream) : Prop where
  offset_eq : stream.offset = min file.length (bufferSize * refills)
  consumed_le : consumed ≤ stream.offset
  tight : bufferSize * refills < consumed + bufferSize
  buffered_eq : stream.buffered = (file.take stream.offset).drop consumed

theorem synced_start {bufferSize : Nat} (file : Bytes) (h : 0 < bufferSize) :
    Synced bufferSize file 0 0 start :=
  ⟨by simp [start], by simp [start], by simpa using h, by simp [start]⟩

namespace Synced

variable {bufferSize consumed refills count : Nat} {file : Bytes}
  {stream : ReadStream}

theorem offset_le (h : Synced bufferSize file consumed refills stream) :
    stream.offset ≤ file.length := by
  rw [h.offset_eq]
  exact Nat.min_le_left _ _

theorem buffered_length (h : Synced bufferSize file consumed refills stream) :
    stream.buffered.length = stream.offset - consumed := by
  rw [h.buffered_eq, List.length_drop, List.length_take,
    Nat.min_eq_left h.offset_le]

theorem unread_eq (h : Synced bufferSize file consumed refills stream) :
    stream.unread file = file.drop consumed := by
  have hsplit : file = file.take stream.offset ++ file.drop stream.offset :=
    (List.take_append_drop _ _).symm
  have hle : consumed ≤ (file.take stream.offset).length := by
    rw [List.length_take]
    exact Nat.le_min.mpr ⟨h.consumed_le, h.consumed_le.trans h.offset_le⟩
  conv_rhs => rw [hsplit, List.drop_append_of_le_length hle]
  rw [unread, h.buffered_eq]

theorem fread (h : Synced bufferSize file consumed refills stream)
    (hcount : count ≤ bufferSize) (hfile : consumed + count ≤ file.length) :
    ∃ refills', Synced bufferSize file (consumed + count) refills'
      (stream.fread bufferSize file count).2 := by
  have hlength := h.buffered_length
  have hoffset := h.offset_eq
  have hconsumed := h.consumed_le
  have htight := h.tight
  unfold ReadStream.fread
  split
  · rename_i hbuffered
    refine ⟨refills, h.offset_eq, by simp only; omega, by omega, ?_⟩
    simp [h.buffered_eq, List.drop_drop]
  · rename_i hbuffered
    -- the buffer has run short before the end, so all refills so far were full
    have hfull : stream.offset = bufferSize * refills := by omega
    have hchunk := readAt_length file stream.offset bufferSize
    have hsucc : bufferSize * (refills + 1) = bufferSize * refills + bufferSize :=
      Nat.mul_succ _ _
    have hnext : (file.take stream.offset ++ readAt file stream.offset bufferSize) =
        file.take (stream.offset + (readAt file stream.offset bufferSize).length) := by
      rw [List.take_add, readAt_length, readAt, List.take_eq_take_min]
      simp
    refine ⟨refills + 1, ?_, ?_, ?_, ?_⟩
    · simp only
      omega
    · simp only
      omega
    · omega
    · have hle : consumed ≤ (file.take stream.offset).length := by
        rw [List.length_take]
        omega
      simp only
      rw [← hnext, h.buffered_eq, ← List.drop_drop,
        List.drop_append_of_le_length hle]

theorem exists_buffered {width : Nat} {records : List Bytes} (hrecords : Uniform width records)
    (hwidth : 0 < width)
    (h : Synced bufferSize records.flatten (width * consumed) refills stream) :
    ∃ tail, tail.length < width ∧ stream.buffered = ((records.drop consumed).take
      ((stream.offset - width * consumed) / width)).flatten ++ tail := by
  rw [h.buffered_eq, List.drop_take, drop_flatten hrecords]
  exact exists_take_flatten (hrecords.drop consumed) hwidth _

end Synced

end ReadStream

end Ece318.Foundation
