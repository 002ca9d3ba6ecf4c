import Ece318.Bbfs.HashesFile

/-!
# Giving references back

The table's side of `delete_blocks`: which counters the entries of a pointers
file take down, how many of the entries the walk gets to see, and what the
hashes file looks like then.
-/

namespace Ece318.Bbfs

open Ece318.Foundation

/-! ## Counters -/

namespace Table

variable (t : Table)

def count (index : Nat) : Nat :=
  match t.records[index]? with
  | some record => record.count
  | none => 0

def data (index : Nat) : Bytes :=
  match t.records[index]? with
  | some record => record.data
  | none => []

def releaseAll (indices : List Nat) : Table := indices.foldl release t

def frees : Table → List Nat → Bool
  | _, [] => false
  | t, index :: indices => t.count index = 1 || frees (t.release index) indices

def fetched (total consumed : Nat) : Nat :=
  min (3 * total) (4096 * ((3 * consumed + 4095) / 4096)) / 3

/-- How many of the entries the walk gets to see, `consumed` of `total` done. -/
def reached (total : Nat) : Table → Nat → List Nat → Nat
  | _, _, [] => 0
  | t, consumed, index :: indices =>
      if t.count index = 1 then
        1 + min indices.length (fetched total (consumed + 1) - (consumed + 1))
      else 1 + reached total (t.release index) (consumed + 1) indices

variable {t}

theorem count_eq {index : Nat} {record : Record} (h : t.records[index]? = some record) :
    t.count index = record.count := by
  simp [count, h]

theorem data_eq {index : Nat} {record : Record} (h : t.records[index]? = some record) :
    t.data index = record.data := by
  simp [data, h]

@[simp] theorem releaseAll_nil : t.releaseAll [] = t := rfl

@[simp] theorem releaseAll_cons (index : Nat) (indices : List Nat) :
    t.releaseAll (index :: indices) = (t.release index).releaseAll indices := rfl

theorem getElem?_release (index other : Nat) :
    (t.release index).records[other]? =
      (t.records[other]?).map fun record =>
        if index = other then record.release else record := by
  rw [release_records, List.getElem?_modify]
  rfl

@[simp] theorem release_length (index : Nat) :
    (t.release index).records.length = t.records.length := by
  simp

@[simp] theorem releaseAll_length (indices : List Nat) :
    (t.releaseAll indices).records.length = t.records.length := by
  induction indices generalizing t with
  | nil => rfl
  | cons index indices ih => rw [releaseAll_cons, ih, release_length]

@[simp] theorem count_release (index other : Nat) :
    (t.release index).count other =
      if index = other then t.count other - 1 else t.count other := by
  rw [count, count, getElem?_release]
  cases t.records[other]? with
  | none => simp
  | some record =>
      simp only [Option.map_some]
      split <;> rfl

theorem count_releaseAll (indices : List Nat) (other : Nat) :
    (t.releaseAll indices).count other = t.count other - indices.count other := by
  induction indices generalizing t with
  | nil => simp
  | cons index indices ih =>
      rw [releaseAll_cons, ih, count_release, List.count_cons]
      by_cases h : index = other
      · simp [h]
        omega
      · simp [h]

@[simp] theorem data_releaseAll (indices : List Nat) (index : Nat) :
    (t.releaseAll indices).data index = t.data index := by
  induction indices generalizing t with
  | nil => rfl
  | cons released indices ih =>
      rw [releaseAll_cons, ih, data, data, getElem?_release]
      cases t.records[index]? with
      | none => rfl
      | some record =>
          simp only [Option.map_some]
          split <;> rfl

theorem release_dead {index : Nat} (h : t.count index = 0) : t.release index = t := by
  have hrecords : (t.release index).records = t.records := by
    apply List.ext_getElem?
    intro other
    rw [getElem?_release]
    cases hrecord : t.records[other]? with
    | none => rfl
    | some record =>
        by_cases heq : index = other
        · subst other
          rw [count_eq hrecord] at h
          simp only [Option.map_some, if_pos, Option.some.injEq]
          ext <;> simp [h]
        · simp [heq]
  cases t
  simp_all [release]

theorem reached_le (total consumed : Nat) (indices : List Nat) :
    reached total t consumed indices ≤ indices.length := by
  induction indices generalizing t consumed with
  | nil => simp [reached]
  | cons index indices ih =>
      have := ih (t := t.release index) (consumed + 1)
      rw [reached, List.length_cons]
      split <;> omega

theorem frees_take_reached (total consumed : Nat) (indices : List Nat) :
    t.frees (indices.take (reached total t consumed indices)) = t.frees indices := by
  induction indices generalizing t consumed with
  | nil => rfl
  | cons index indices ih =>
      rw [reached]
      by_cases hone : t.count index = 1
      · rw [if_pos hone, Nat.add_comm, List.take_succ_cons]
        simp [frees, hone]
      · rw [if_neg hone, Nat.add_comm, List.take_succ_cons, frees, frees, ih]

end Table

def pointerBytes (indices : List Nat) : Bytes :=
  (indices.map fun index => padDecimal 3 (index + 1)).flatten

def Table.Valid (t : Table) (indices : List Nat) : Prop :=
  ∀ index ∈ indices, index < t.records.length

theorem Table.Valid.release {t : Table} {indices : List Nat} (h : t.Valid indices)
    (index : Nat) : (t.release index).Valid indices := by
  intro other hother
  rw [release_length]
  exact h other hother

theorem uniform_pointers {indices : List Nat} (h : ∀ index ∈ indices, index < 999) :
    Uniform 3 (indices.map fun index => padDecimal 3 (index + 1)) := by
  intro entry hentry
  obtain ⟨index, hindex, rfl⟩ := List.mem_map.mp hentry
  exact idText_length (h index hindex)

theorem Table.Valid.uniform {t : Table} {indices : List Nat} (h : t.Valid indices) :
    Uniform 3 (indices.map fun index => padDecimal 3 (index + 1)) :=
  uniform_pointers fun index hindex => (h index hindex).trans_le t.length_le

theorem Table.Valid.length {t : Table} {indices : List Nat} (h : t.Valid indices) :
    (pointerBytes indices).length = 3 * indices.length := by
  rw [pointerBytes, flatten_length h.uniform, List.length_map]

@[simp] theorem pointerBytes_nil : pointerBytes [] = [] := rfl

@[simp] theorem pointerBytes_cons (index : Nat) (indices : List Nat) :
    pointerBytes (index :: indices) = padDecimal 3 (index + 1) ++ pointerBytes indices := by
  simp [pointerBytes]

@[simp] theorem pointerBytes_append (first second : List Nat) :
    pointerBytes (first ++ second) = pointerBytes first ++ pointerBytes second := by
  simp [pointerBytes]

/-! ## The text of a table with any hashes -/

def Table.text (t : Table) (hash : Nat → Bytes) : Bytes :=
  (t.records.mapIdx fun index record =>
    padDecimal 3 (index + 1) ++ padDecimal 2 record.count ++ hash index).flatten

namespace Table

variable {t : Table} {hash : Nat → Bytes} {index : Nat} {record : Record}

theorem bytes_eq_text (host : Host) (t : Table) :
    t.bytes host = t.text fun index => generateHash host (t.data index) := by
  rw [bytes, text, lines]
  congr 1
  apply List.ext_getElem?
  intro index
  rw [List.getElem?_mapIdx, List.getElem?_mapIdx]
  cases hrecord : t.records[index]? with
  | none => rfl
  | some record => simp [Record.line, data_eq hrecord]

theorem line_length (hhash : (hash index).length = hashSize)
    (hrecord : t.records[index]? = some record) (count : Nat) (hcount : count ≤ 99) :
    (padDecimal 3 (index + 1) ++ padDecimal 2 count ++ hash index).length = 45 := by
  rw [List.length_append, List.length_append, hhash, idText_length (index_lt_999 hrecord),
    padDecimal_length (by omega) (by omega)]
  rfl

section

variable (hhash : ∀ index, (hash index).length = hashSize)

include hhash

theorem uniform_text : Uniform 45 (t.records.mapIdx fun index record =>
    padDecimal 3 (index + 1) ++ padDecimal 2 record.count ++ hash index) := by
  intro line hline
  obtain ⟨index, hindex, rfl⟩ := List.mem_mapIdx.mp hline
  exact line_length (hhash index) (List.getElem?_eq_getElem hindex) _ (t.records[index].count_le)

theorem text_length : (t.text hash).length = 45 * t.records.length := by
  rw [text, flatten_length (uniform_text hhash), List.length_mapIdx]

theorem readAt_text (hrecord : t.records[index]? = some record) {inner count : Nat}
    (hinner : inner + count ≤ 45) :
    readAt (t.text hash) (45 * index + inner) count =
      readAt (padDecimal 3 (index + 1) ++ padDecimal 2 record.count ++ hash index) inner
        count := by
  apply readAt_flatten (uniform_text hhash) _ hinner
  rw [List.getElem?_mapIdx, hrecord, Option.map_some]

theorem readAt_text_counter (hrecord : t.records[index]? = some record) :
    readAt (t.text hash) (45 * index + 3) 2 = padDecimal 2 record.count := by
  rw [readAt_text hhash hrecord (by omega), readAt, List.append_assoc,
    List.drop_left' (idText_length (index_lt_999 hrecord)),
    List.take_left' record.counter_length]

theorem readAt_text_hash (hrecord : t.records[index]? = some record) :
    readAt (t.text hash) (45 * index + 5) 40 = hash index := by
  have hfront : (padDecimal 3 (index + 1) ++ padDecimal 2 record.count).length = 5 := by
    rw [List.length_append, idText_length (index_lt_999 hrecord), record.counter_length]
  rw [readAt_text hhash hrecord (by omega), readAt, List.drop_left' hfront,
    List.take_of_length_le (hhash index).le]

theorem readAt_text_line (hindex : index < t.records.length) :
    readAt (t.text hash) (45 * index) 45 =
      padDecimal 3 (index + 1) ++ padDecimal 2 (t.count index) ++ hash index := by
  have hrecord := List.getElem?_eq_getElem hindex
  rw [count_eq hrecord]
  exact readAt_record (uniform_text hhash)
    (by rw [List.getElem?_mapIdx, hrecord, Option.map_some])

theorem text_release (hrecord : t.records[index]? = some record) :
    (t.release index).text hash = writeAt (t.text hash)
      (padDecimal 3 (index + 1) ++ padDecimal 2 (record.count - 1) ++ hash index)
      (45 * index) := by
  have hcount := record.count_le
  rw [text, text, writeAt_flatten (uniform_text hhash) (by simpa using index_lt hrecord)
    (line_length (hhash index) hrecord _ (by omega)), release_records, modify_eq_set hrecord,
    List.mapIdx_set]
  rfl

end

end Table

end Ece318.Bbfs
