import Ece318.Foundation.Bytes

/-!
# Files of fixed-width records

A record file is the concatenation of records of one width.  Record `i` lives
in the window `[width * i, width * (i + 1))`, and a write of a full record
there replaces that record alone.  `entries` is the reader's side: it cuts a
file into complete records and drops an incomplete last one.
-/

namespace Ece318.Foundation

def Uniform (width : Nat) (records : List Bytes) : Prop :=
  ∀ record ∈ records, record.length = width

def entries (width : Nat) (file : Bytes) : List Bytes :=
  (List.range (file.length / width)).map fun index =>
    readAt file (width * index) width

section

variable {width : Nat} {records : List Bytes}

@[simp] theorem uniform_nil : Uniform width [] := by simp [Uniform]

theorem uniform_cons {record : Bytes} :
    Uniform width (record :: records) ↔
      record.length = width ∧ Uniform width records := by
  simp [Uniform]

theorem uniform_append {more : List Bytes} :
    Uniform width (records ++ more) ↔
      Uniform width records ∧ Uniform width more := by
  simp [Uniform, or_imp, forall_and]

theorem Uniform.take (h : Uniform width records) (count : Nat) :
    Uniform width (records.take count) :=
  fun record hrecord => h record (List.mem_of_mem_take hrecord)

theorem Uniform.drop (h : Uniform width records) (count : Nat) :
    Uniform width (records.drop count) :=
  fun record hrecord => h record (List.mem_of_mem_drop hrecord)

theorem Uniform.set (h : Uniform width records) {record : Bytes}
    (hrecord : record.length = width) (index : Nat) :
    Uniform width (records.set index record) := by
  intro other hother
  rcases List.mem_or_eq_of_mem_set hother with hmem | rfl
  · exact h other hmem
  · exact hrecord

theorem flatten_length (h : Uniform width records) :
    records.flatten.length = width * records.length := by
  induction records with
  | nil => simp
  | cons record records ih =>
      obtain ⟨hrecord, hrecords⟩ := uniform_cons.mp h
      simp [ih hrecords, hrecord, Nat.mul_succ, Nat.add_comm]

theorem take_flatten (h : Uniform width records) (count : Nat) :
    records.flatten.take (width * count) = (records.take count).flatten := by
  induction count generalizing records with
  | zero => simp
  | succ count ih =>
      cases records with
      | nil => simp
      | cons record records =>
          obtain ⟨rfl, hrecords⟩ := uniform_cons.mp h
          rw [List.flatten_cons, List.take_succ_cons, List.flatten_cons, ← ih hrecords,
            Nat.mul_succ, Nat.add_comm, List.take_length_add_append]

theorem drop_flatten (h : Uniform width records) (count : Nat) :
    records.flatten.drop (width * count) = (records.drop count).flatten := by
  induction count generalizing records with
  | zero => simp
  | succ count ih =>
      cases records with
      | nil => simp
      | cons record records =>
          obtain ⟨rfl, hrecords⟩ := uniform_cons.mp h
          rw [List.flatten_cons, List.drop_succ_cons, ← ih hrecords, Nat.mul_succ, Nat.add_comm,
            List.drop_length_add_append]

theorem exists_take_flatten (h : Uniform width records) (hwidth : 0 < width) (count : Nat) :
    ∃ tail, tail.length < width ∧
      records.flatten.take count = (records.take (count / width)).flatten ++ tail := by
  refine ⟨(records.flatten.drop (width * (count / width))).take (count % width), ?_, ?_⟩
  · rw [List.length_take]
    exact (Nat.min_le_left _ _).trans_lt (Nat.mod_lt _ hwidth)
  · rw [← take_flatten h, ← List.take_add, Nat.div_add_mod]

theorem flatten_split (h : Uniform width records) {index : Nat} {record : Bytes}
    (hindex : records[index]? = some record) :
    ∃ before after, before.length = width * index ∧
      records.flatten = before ++ record ++ after ∧
      ∀ other, (records.set index other).flatten = before ++ other ++ after := by
  obtain ⟨hlt, rfl⟩ := List.getElem?_eq_some_iff.mp hindex
  refine ⟨(records.take index).flatten, (records.drop (index + 1)).flatten, ?_, ?_, ?_⟩
  · rw [flatten_length (h.take index), List.length_take_of_le hlt.le]
  · conv_lhs => rw [← List.take_append_drop index records]
    rw [List.flatten_append, List.append_assoc]
    congr 1
    rw [List.drop_eq_getElem_cons hlt, List.flatten_cons]
  · intro other
    rw [List.set_eq_take_append_cons_drop, if_pos hlt]
    simp

theorem readAt_flatten (h : Uniform width records) {index : Nat} {record : Bytes}
    (hindex : records[index]? = some record) {inner count : Nat}
    (hinner : inner + count ≤ width) :
    readAt records.flatten (width * index + inner) count =
      readAt record inner count := by
  obtain ⟨before, after, hbefore, hflatten, -⟩ := flatten_split h hindex
  have hrecord : record.length = width := h record (List.mem_of_getElem? hindex)
  rw [hflatten, List.append_assoc, ← hbefore, readAt_append_right,
    readAt_append_left after (by omega)]

theorem readAt_record (h : Uniform width records) {index : Nat} {record : Bytes}
    (hindex : records[index]? = some record) :
    readAt records.flatten (width * index) width = record := by
  have hrecord : record.length = width := h record (List.mem_of_getElem? hindex)
  have hread : readAt records.flatten (width * index + 0) width = readAt record 0 width :=
    readAt_flatten h hindex (by omega)
  simpa [← hrecord] using hread

theorem writeAt_flatten (h : Uniform width records) {index : Nat} {record : Bytes}
    (hindex : index < records.length) (hrecord : record.length = width) :
    writeAt records.flatten record (width * index) =
      (records.set index record).flatten := by
  have hget := List.getElem?_eq_getElem hindex
  obtain ⟨before, after, hbefore, hflatten, hset⟩ := flatten_split h hget
  have hold : records[index].length = width := h _ (List.getElem_mem hindex)
  rw [hflatten, hset, ← hbefore, writeAt_middle (by omega)]

/--
Writing a full record past the end appends it, behind as many records of zero
bytes as the gap holds.
-/
theorem writeAt_flatten_past (h : Uniform width records) {index : Nat}
    {record : Bytes} (hindex : records.length ≤ index)
    (hrecord : record.length = width) (hwidth : 0 < width) :
    writeAt records.flatten record (width * index) =
      (records ++ List.replicate (index - records.length)
        (List.replicate width 0) ++ [record]).flatten := by
  have hlength := flatten_length h
  have hne : record ≠ [] := by
    rintro rfl
    simp at hrecord
    omega
  have hle : width * records.length ≤ width * index := Nat.mul_le_mul_left _ hindex
  have hgap : (List.replicate (index - records.length)
      (List.replicate width (0 : UInt8))).flatten =
      List.replicate (width * index - width * records.length) 0 := by
    rw [List.flatten_replicate_replicate, Nat.mul_comm, Nat.mul_sub]
  rw [writeAt, if_neg hne, hlength, List.drop_eq_nil_of_le (by omega),
    List.take_of_length_le (by simp [hlength]; omega)]
  simp [hgap]

theorem exists_uniform_writeAt (h : Uniform width records) {record : Bytes}
    (hrecord : record.length = width) (hwidth : 0 < width) (index : Nat) :
    ∃ records', writeAt records.flatten record (width * index) = records'.flatten ∧
      Uniform width records' ∧
      ∀ other ∈ records', other ∈ records ∨ other = record ∨
        other = List.replicate width 0 := by
  rcases Nat.lt_or_ge index records.length with hlt | hge
  · refine ⟨_, writeAt_flatten h hlt hrecord, h.set hrecord index, fun other hother => ?_⟩
    rcases List.mem_or_eq_of_mem_set hother with hold | hnew
    · exact .inl hold
    · exact .inr (.inl hnew)
  · refine ⟨_, writeAt_flatten_past h hge hrecord hwidth, ?_, fun other hother => ?_⟩
    · rw [uniform_append, uniform_append]
      refine ⟨⟨h, fun other hother => ?_⟩, by simpa [Uniform] using hrecord⟩
      rw [List.eq_of_mem_replicate hother, List.length_replicate]
    · rw [List.mem_append, List.mem_append, List.mem_singleton] at hother
      rcases hother with (hold | hzero) | hnew
      · exact .inl hold
      · exact .inr (.inr (List.eq_of_mem_replicate hzero))
      · exact .inr (.inl hnew)

/-! ## Slots -/

/-- Put `entry` in slot `slot`, or behind the last slot. -/
def putSlot {α : Type} (slots : List α) (slot : Nat) (entry : α) : List α :=
  slots.take slot ++ entry :: slots.drop (slot + 1)

section

variable {α β : Type}

theorem putSlot_map (f : α → β) (slots : List α) (slot : Nat) (entry : α) :
    (putSlot slots slot entry).map f = putSlot (slots.map f) slot (f entry) := by
  simp [putSlot, List.map_take, List.map_drop]

theorem putSlot_length (slots : List α) (entry : α) :
    putSlot slots slots.length entry = slots ++ [entry] := by
  simp [putSlot]

theorem putSlot_length_le (slots : List α) (slot : Nat) (entry : α) :
    (putSlot slots slot entry).length ≤ slots.length + 1 := by
  simp only [putSlot, List.length_append, List.length_take, List.length_cons, List.length_drop]
  omega

theorem mem_putSlot {slots : List α} {slot : Nat} {entry other : α}
    (h : other ∈ putSlot slots slot entry) : other ∈ slots ∨ other = entry := by
  simp only [putSlot, List.mem_append, List.mem_cons] at h
  rcases h with h | h | h
  · exact .inl (List.mem_of_mem_take h)
  · exact .inr h
  · exact .inl (List.mem_of_mem_drop h)

theorem count_putSlot [DecidableEq α] {slots : List α} {slot : Nat} (entry other : α)
    (h : slot ≤ slots.length) :
    (putSlot slots slot entry).count other +
        (if slots[slot]? = some other then 1 else 0) =
      slots.count other + if entry = other then 1 else 0 := by
  rcases Nat.lt_or_eq_of_le h with hlt | rfl
  · have hsplit : slots = slots.take slot ++ slots[slot] :: slots.drop (slot + 1) := by
      rw [← List.drop_eq_getElem_cons hlt, List.take_append_drop]
    have hcount := congrArg (List.count other) hsplit
    simp only [List.count_append, List.count_cons, beq_iff_eq] at hcount
    rw [putSlot, List.count_append, List.count_cons, List.getElem?_eq_getElem hlt]
    simp only [beq_iff_eq, Option.some.injEq]
    omega
  · -- the new slot is behind the last one and replaces nothing
    simp [putSlot_length, List.count_cons]

end

theorem writeAt_putSlot {width : Nat} {records : List Bytes} (h : Uniform width records)
    {slot : Nat} {record : Bytes} (hslot : slot ≤ records.length)
    (hrecord : record.length = width) (hwidth : 0 < width) :
    writeAt records.flatten record (width * slot) = (putSlot records slot record).flatten := by
  rcases Nat.lt_or_eq_of_le hslot with hlt | rfl
  · rw [writeAt_flatten h hlt hrecord, putSlot, List.set_eq_take_append_cons_drop,
      if_pos hlt]
  · rw [writeAt_flatten_past h le_rfl hrecord hwidth, putSlot_length]
    simp

/-! ## Cutting a file into entries -/

theorem entries_of_short {file : Bytes} (h : file.length < width) : entries width file = [] := by
  rw [entries, Nat.div_eq_of_lt h, List.range_zero, List.map_nil]

theorem entries_cons {file : Bytes} (hwidth : 0 < width) (h : width ≤ file.length) :
    entries width file = file.take width :: entries width (file.drop width) := by
  have hcount : file.length / width = (file.drop width).length / width + 1 := by
    rw [List.length_drop, Nat.div_eq_sub_div hwidth h]
  rw [entries, hcount, List.range_succ_eq_map, List.map_cons, entries, List.map_map]
  refine congrArg₂ List.cons (by simp [readAt]) (List.map_congr_left fun index _ => ?_)
  simp only [Function.comp_apply, readAt, List.drop_drop]
  congr 2
  rw [Nat.mul_succ, Nat.add_comm]

theorem entries_flatten_append (h : Uniform width records) (hwidth : 0 < width) (file : Bytes) :
    entries width (records.flatten ++ file) = records ++ entries width file := by
  induction records with
  | nil => rfl
  | cons record records ih =>
      obtain ⟨rfl, hrecords⟩ := uniform_cons.mp h
      have hlength : record.length ≤ ((record :: records).flatten ++ file).length := by
        rw [List.flatten_cons, List.append_assoc, List.length_append]
        omega
      rw [entries_cons hwidth hlength, List.flatten_cons, List.append_assoc, List.take_left,
        List.drop_left, ih hrecords, List.cons_append]

theorem entries_append {tail : Bytes} (h : Uniform width records)
    (htail : tail.length < width) :
    entries width (records.flatten ++ tail) = records := by
  rw [entries_flatten_append h (by omega), entries_of_short htail, List.append_nil]

@[simp] theorem entries_flatten (h : Uniform width records) (hwidth : 0 < width) :
    entries width records.flatten = records := by
  have hnil : ([] : Bytes).length < width := by simpa using hwidth
  simpa using entries_append h hnil

end

theorem flatten_entries_append {width : Nat} (hwidth : 0 < width) (file : Bytes) :
    (entries width file).flatten ++ file.drop (width * (file.length / width)) = file := by
  induction hcount : file.length / width generalizing file with
  | zero =>
      have hshort := (Nat.div_eq_zero_iff.mp hcount).resolve_left (by omega)
      simp [entries_of_short hshort]
  | succ count ih =>
      have hle : width ≤ file.length := by
        by_contra hlt
        rw [Nat.div_eq_of_lt (by omega)] at hcount
        omega
      have hrest : (file.drop width).length / width = count := by
        have hstep := Nat.div_eq_sub_div hwidth hle
        rw [List.length_drop]
        omega
      have hdrop := ih _ hrest
      rw [List.drop_drop] at hdrop
      rw [entries_cons hwidth hle, List.flatten_cons, List.append_assoc, Nat.mul_succ,
        Nat.add_comm, hdrop, List.take_append_drop]

theorem flatten_entries {width : Nat} {file : Bytes} (hwidth : 0 < width)
    (h : width ∣ file.length) : (entries width file).flatten = file := by
  have hsplit := flatten_entries_append hwidth file
  rwa [Nat.mul_div_cancel' h, List.drop_length, List.append_nil] at hsplit

@[simp] theorem entries_length (width : Nat) (file : Bytes) :
    (entries width file).length = file.length / width := by
  simp [entries]

@[simp] theorem entries_nil (width : Nat) : entries width [] = [] := by
  simp [entries]

end Ece318.Foundation
