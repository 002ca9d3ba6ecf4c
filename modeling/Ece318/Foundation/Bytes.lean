import Mathlib.Data.List.TakeWhile
import Mathlib.Data.List.Basic

/-!
# Byte strings, C strings and file windows

A file is the list of its bytes.  `readAt` is what `read` returns at an offset,
`writeAt` what `pwrite` leaves behind: a write past the end fills the gap with
zero bytes.  A `char *` is the array it points into; `cString` is the part that
`strlen`, `strcmp`, `strcat` and `%s` see.
-/

namespace Ece318.Foundation

abbrev Bytes := List UInt8

/-- The bytes of a `char` array before its first NUL. -/
def cString (array : Bytes) : Bytes := array.takeWhile (· != 0)

def NulFree (array : Bytes) : Prop := 0 ∉ array

instance (array : Bytes) : Decidable (NulFree array) :=
  inferInstanceAs (Decidable (0 ∉ array))

theorem cString_nulFree (array : Bytes) : NulFree (cString array) := by
  intro hmem
  simpa using List.mem_takeWhile_imp hmem

@[simp] theorem cString_eq_self_iff {array : Bytes} :
    cString array = array ↔ NulFree array := by
  rw [cString, List.takeWhile_eq_self_iff]
  constructor
  · intro h hmem
    simpa using h 0 hmem
  · intro h byte hbyte
    rw [bne_iff_ne]
    rintro rfl
    exact h hbyte

theorem NulFree.cString_eq {array : Bytes} (h : NulFree array) :
    cString array = array :=
  cString_eq_self_iff.mpr h

@[simp] theorem cString_cString (array : Bytes) :
    cString (cString array) = cString array :=
  (cString_nulFree array).cString_eq

theorem cString_isPrefix (array : Bytes) : cString array <+: array :=
  List.takeWhile_prefix _

theorem cString_length_le (array : Bytes) :
    (cString array).length ≤ array.length :=
  (cString_isPrefix array).length_le

@[simp] theorem cString_append_nul (array : Bytes) :
    cString (array ++ [0]) = cString array := by
  induction array with
  | nil => simp [cString]
  | cons byte array ih =>
      simp only [cString, List.cons_append, List.takeWhile_cons] at ih ⊢
      rw [ih]

@[simp] theorem nulFree_nil : NulFree [] := by simp [NulFree]

/-! ## Windows of a file -/

def readAt (file : Bytes) (position count : Nat) : Bytes :=
  (file.drop position).take count

def writeAt (file data : Bytes) (position : Nat) : Bytes :=
  if data = [] then file
  else
    (file ++ List.replicate (position - file.length) 0).take position ++
      data ++ file.drop (position + data.length)

/-- `truncate` to `size` bytes, in either direction. -/
def resize (file : Bytes) (size : Nat) : Bytes :=
  file.take size ++ List.replicate (size - file.length) 0

@[simp] theorem resize_zero (file : Bytes) : resize file 0 = [] := by
  simp [resize]

@[simp] theorem resize_length (file : Bytes) (size : Nat) :
    (resize file size).length = size := by
  rw [resize, List.length_append, List.length_take, List.length_replicate]
  omega

theorem resize_of_le {file : Bytes} {size : Nat} (h : size ≤ file.length) :
    resize file size = file.take size := by
  rw [resize, Nat.sub_eq_zero_of_le h, List.replicate_zero, List.append_nil]

theorem resize_of_ge {file : Bytes} {size : Nat} (h : file.length ≤ size) :
    resize file size = file ++ List.replicate (size - file.length) 0 := by
  rw [resize, List.take_of_length_le h]

@[simp] theorem readAt_length (file : Bytes) (position count : Nat) :
    (readAt file position count).length = min count (file.length - position) := by
  simp [readAt]

theorem readAt_add (file : Bytes) (position first second : Nat) :
    readAt file position (first + second) =
      readAt file position first ++ readAt file (position + first) second := by
  rw [readAt, List.take_add, List.drop_drop]
  rfl

theorem readAt_append_left {first : Bytes} (second : Bytes) {position count : Nat}
    (h : position + count ≤ first.length) :
    readAt (first ++ second) position count = readAt first position count := by
  rw [readAt, readAt, List.drop_append_of_le_length (by omega),
    List.take_append_of_le_length (by simp; omega)]

theorem readAt_append_right (first second : Bytes) (position count : Nat) :
    readAt (first ++ second) (first.length + position) count =
      readAt second position count := by
  simp [readAt, ← List.drop_drop]

@[simp] theorem readAt_self (file : Bytes) : readAt file 0 file.length = file := by
  simp [readAt]

@[simp] theorem writeAt_end (file data : Bytes) :
    writeAt file data file.length = file ++ data := by
  by_cases hdata : data = []
  · simp [writeAt, hdata]
  · simp [writeAt, hdata, List.drop_eq_nil_of_le]

@[simp] theorem writeAt_nil (data : Bytes) : writeAt [] data 0 = data := by
  simpa using writeAt_end [] data

theorem writeAt_length {file data : Bytes} {position : Nat} (hdata : data ≠ []) :
    (writeAt file data position).length =
      max file.length (position + data.length) := by
  simp only [writeAt, if_neg hdata, List.length_append, List.length_take,
    List.length_replicate, List.length_drop]
  omega

theorem le_writeAt_length (file data : Bytes) (position : Nat) :
    file.length ≤ (writeAt file data position).length := by
  by_cases hdata : data = []
  · simp [writeAt, hdata]
  · rw [writeAt_length hdata]
    exact Nat.le_max_left _ _

theorem readAt_writeAt_front {file : Bytes} (data : Bytes) {position offset count : Nat}
    (hfile : position + count ≤ file.length) (hoffset : position + count ≤ offset) :
    readAt (writeAt file data offset) position count = readAt file position count := by
  by_cases hdata : data = []
  · simp [writeAt, hdata]
  · have hfront : position + count ≤
        ((file ++ List.replicate (offset - file.length) 0).take offset).length := by
      rw [List.length_take, List.length_append]
      omega
    rw [writeAt, if_neg hdata, List.append_assoc, readAt_append_left _ hfront, readAt,
      List.drop_take, List.take_take, Nat.min_eq_left (by omega)]
    exact readAt_append_left _ hfile

theorem readAt_writeAt_within (file : Bytes) {data : Bytes} {position offset count : Nat}
    (h : offset + count ≤ data.length) :
    readAt (writeAt file data position) (position + offset) count = readAt data offset count := by
  by_cases hdata : data = []
  · subst hdata
    obtain rfl : count = 0 := by
      simp only [List.length_nil] at h
      omega
    simp [readAt]
  · have hfront : ((file ++ List.replicate (position - file.length) 0).take position).length =
        position := by
      rw [List.length_take, List.length_append, List.length_replicate]
      omega
    have hright := readAt_append_right
      ((file ++ List.replicate (position - file.length) 0).take position)
      (data ++ file.drop (position + data.length)) offset count
    rw [hfront] at hright
    rw [writeAt, if_neg hdata, List.append_assoc, hright]
    exact readAt_append_left _ h

theorem writeAt_middle {before old after data : Bytes}
    (h : data.length = old.length) :
    writeAt (before ++ old ++ after) data before.length =
      before ++ data ++ after := by
  by_cases hdata : data = []
  · have hold : old = [] := by simpa [hdata] using h.symm
    simp [writeAt, hdata, hold]
  · simp only [writeAt, if_neg hdata, h]
    congr 1
    · simp
    · simp [List.drop_append, List.append_assoc]

theorem writeAt_writeAt (file : Bytes) {first second : Bytes}
    (hlength : second.length = first.length) (position : Nat) :
    writeAt (writeAt file first position) second position = writeAt file second position := by
  by_cases hnil : first = []
  · have hsecond : second = [] := by simpa [hnil] using hlength
    simp [writeAt, hnil, hsecond]
  · have hfront : ((file ++ List.replicate (position - file.length) 0).take position).length =
        position := by
      rw [List.length_take, List.length_append, List.length_replicate]
      omega
    have hsecond : second ≠ [] := by
      rintro rfl
      exact hnil (List.eq_nil_of_length_eq_zero hlength.symm)
    have hmiddle : writeAt (writeAt file first position) second
        ((file ++ List.replicate (position - file.length) 0).take position).length =
          (file ++ List.replicate (position - file.length) 0).take position ++ second ++
            file.drop (position + first.length) := by
      rw [writeAt.eq_def file first, if_neg hnil]
      exact writeAt_middle hlength
    rw [hfront] at hmiddle
    rw [hmiddle, writeAt, if_neg hsecond, hlength]

end Ece318.Foundation
