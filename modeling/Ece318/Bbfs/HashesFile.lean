import Ece318.Bbfs.OurLib

/-!
# The hashes file as a table

On disk the hashes file is a run of 45-byte lines: three digits of an id, a
two-digit counter, a 40-character hash.  `HashLine` is one such line, whatever
its fields hold; `Table` is the list of records a well-kept file stands for.  A
record keeps the content its block was made for, also after the block is gone.
-/

namespace Ece318.Bbfs

open Ece318.Foundation

/-! ## The id of a record -/

theorem idText_injective : Function.Injective fun index : Nat => padDecimal 3 (index + 1) :=
  (padDecimal_injective 3).comp (add_left_injective 1)

theorem idText_length {index : Nat} (h : index < 999) :
    (padDecimal 3 (index + 1)).length = 3 :=
  padDecimal_length (by omega) (by omega)

/-! ## Lines -/

structure HashLine where
  id : Bytes
  counter : Bytes
  hash : Bytes
  id_length : id.length = idLength
  counter_length : counter.length = pointersCounterLength
  hash_length : hash.length = hashSize

namespace HashLine

def bytes (line : HashLine) : Bytes := line.id ++ line.counter ++ line.hash

@[simp] theorem bytes_length (line : HashLine) : line.bytes.length = 45 := by
  rw [bytes, List.length_append, List.length_append, line.id_length,
    line.counter_length, line.hash_length]
  rfl

theorem uniform_bytes (lines : List HashLine) : Uniform 45 (lines.map bytes) := by
  intro record hrecord
  obtain ⟨line, -, rfl⟩ := List.mem_map.mp hrecord
  exact line.bytes_length

def isMatch (hashToCompare : Bytes) (line : HashLine) : Bool :=
  cString line.hash = hashToCompare ∧ cString line.counter ≠ formatInt 2 0

section

variable {lines : List HashLine} {index : Nat} {line : HashLine}

private theorem getElem?_bytes (h : lines[index]? = some line) :
    (lines.map bytes)[index]? = some line.bytes := by
  simp [h]

theorem readAt_id (h : lines[index]? = some line) :
    readAt (lines.map bytes).flatten (45 * index) 3 = line.id := by
  have hread : readAt (lines.map bytes).flatten (45 * index + 0) 3 =
      readAt line.bytes 0 3 :=
    readAt_flatten (uniform_bytes lines) (getElem?_bytes h) (by omega)
  rw [Nat.add_zero] at hread
  rw [hread, readAt, List.drop_zero, bytes, List.append_assoc,
    List.take_left' line.id_length]

theorem readAt_counter (h : lines[index]? = some line) :
    readAt (lines.map bytes).flatten (45 * index + 3) 2 = line.counter := by
  rw [readAt_flatten (uniform_bytes lines) (getElem?_bytes h) (by omega), readAt,
    bytes, List.append_assoc, List.drop_left' line.id_length,
    List.take_left' line.counter_length]

theorem readAt_hash (h : lines[index]? = some line) :
    readAt (lines.map bytes).flatten (45 * index + 5) 40 = line.hash := by
  have hprefix : (line.id ++ line.counter).length = 5 := by
    rw [List.length_append, line.id_length, line.counter_length]
    rfl
  rw [readAt_flatten (uniform_bytes lines) (getElem?_bytes h) (by omega), readAt,
    bytes, List.drop_left' hprefix]
  exact List.take_of_length_le line.hash_length.le

end

theorem readAt_tail {lines : List HashLine} {index inner count : Nat}
    (hindex : index < lines.length) (hinner : inner + count ≤ 45) (tail : Bytes) :
    readAt ((lines.map bytes).flatten ++ tail) (45 * index + inner) count =
      readAt (lines.map bytes).flatten (45 * index + inner) count := by
  apply readAt_append_left
  rw [flatten_length (uniform_bytes lines), List.length_map]
  omega

theorem compareLoop_lines (lastId : Nat) (lines : List HashLine) {tail : Bytes}
    (htail : tail.length < 45) (hashToCompare : Bytes) {fuel index : Nat}
    (hfuel : lines.length - index < fuel) :
    compareLoop lastId ((lines.map bytes).flatten ++ tail) hashToCompare fuel (45 * index + 3) =
      match (lines.drop index).find? (isMatch hashToCompare) with
      | some line => atoi line.id
      | none => lastId + 1 := by
  induction fuel generalizing index with
  | zero => omega
  | succ fuel ih =>
      rw [compareLoop]
      rcases Nat.lt_or_ge index lines.length with hindex | hindex
      · have hline := List.getElem?_eq_getElem hindex
        have hback : 45 * index + 3 + pointersCounterLength + hashSize -
            lineTotalLength = 45 * index := by
          simp only [pointersCounterLength, hashSize, lineTotalLength, idLength]
          omega
        have hnext : 45 * index + 3 + lineTotalLength = 45 * (index + 1) + 3 := by
          simp only [lineTotalLength, idLength, pointersCounterLength, hashSize]
          omega
        have hid : readAt ((lines.map bytes).flatten ++ tail) (45 * index + 0) 3 = _ :=
          readAt_tail hindex (by decide) tail
        rw [Nat.add_zero, readAt_id hline] at hid
        rw [readAt_tail hindex (by decide) tail, readAt_counter hline, hback, hid, hnext,
          show 45 * index + 3 + pointersCounterLength = 45 * index + 5 from rfl,
          readAt_tail hindex (by decide) tail, readAt_hash hline, ih (by omega),
          List.drop_eq_getElem_cons hindex, List.find?_cons]
        simp only [lines[index].counter_length, lines[index].hash_length,
          ne_eq, not_true_eq_false, if_false]
        by_cases hmatch : isMatch hashToCompare lines[index] = true
        · rw [hmatch, if_pos (by simpa [isMatch] using hmatch)]
        · rw [if_neg (by simpa [isMatch] using hmatch)]
          simp [hmatch]
      · -- behind the last line the hash comes back short, if the counter does not
        have hshort : (readAt ((lines.map bytes).flatten ++ tail)
            (45 * index + 3 + pointersCounterLength) hashSize).length ≠ hashSize := by
          rw [readAt_length, List.length_append, flatten_length (uniform_bytes lines),
            List.length_map, pointersCounterLength, hashSize]
          omega
        rw [List.drop_eq_nil_of_le hindex, List.find?_nil, if_pos hshort, ite_self]

end HashLine

@[simp] theorem generateHash_length (host : Host) (data : Bytes) :
    (generateHash host data).length = 40 := by
  simp [generateHash]

@[simp] theorem nulFree_generateHash (host : Host) (data : Bytes) :
    NulFree (generateHash host data) :=
  nulFree_hexBytes _

@[simp] theorem generateHash_cString (host : Host) (data : Bytes) :
    generateHash host (cString data) = generateHash host data := by
  simp [generateHash]

@[simp] theorem generateHash_append_nul (host : Host) (data : Bytes) :
    generateHash host (data ++ [0]) = generateHash host data := by
  simp [generateHash]

theorem cString_eq_of_generateHash_eq {host : Host} {contents : Set Bytes}
    (hinj : Set.InjOn host.sha1 contents) {first second : Bytes}
    (hfirst : cString first ∈ contents) (hsecond : cString second ∈ contents)
    (h : generateHash host first = generateHash host second) :
    cString first = cString second :=
  hinj hfirst hsecond (Vector.toList_inj.mp (hexBytes_injective h))

/-! ## Records -/

/-- A record with its counter and the C string its block holds or held. -/
@[ext] structure Record where
  data : Bytes
  count : Nat
  nulFree : NulFree data
  count_le : count ≤ 99

namespace Record

def new (data : Bytes) : Record :=
  ⟨cString data, 1, cString_nulFree data, by omega⟩

def share (record : Record) : Record :=
  if h : record.count < 99 then
    { record with count := record.count + 1, count_le := by omega }
  else record

def release (record : Record) : Record :=
  { record with
    count := record.count - 1
    count_le := (Nat.sub_le _ _).trans record.count_le }

section

variable (record : Record)

@[simp] theorem new_data (data : Bytes) : (new data).data = cString data := rfl

@[simp] theorem new_count (data : Bytes) : (new data).count = 1 := rfl

@[simp] theorem share_data : record.share.data = record.data := by
  unfold share
  split <;> rfl

theorem share_count (h : record.count < 99) : record.share.count = record.count + 1 := by
  simp [share, h]

theorem le_share_count : record.count ≤ record.share.count := by
  unfold share
  split <;> simp

@[simp] theorem release_data : record.release.data = record.data := rfl

@[simp] theorem release_count : record.release.count = record.count - 1 := rfl

theorem counter_length : (padDecimal 2 record.count).length = 2 :=
  padDecimal_length (by omega) (Nat.lt_succ_of_le record.count_le)

end

def line (host : Host) (index : Nat) (record : Record) : Bytes :=
  padDecimal 3 (index + 1) ++ padDecimal 2 record.count ++
    generateHash host record.data

end Record

/-- What a well-kept hashes file stands for; ids have three digits. -/
structure Table where
  records : List Record
  length_le : records.length ≤ 999

namespace Table

variable (host : Host) (t : Table)

def empty : Table := ⟨[], by simp⟩

def find (data : Bytes) : Option Nat :=
  t.records.findIdx? fun record =>
    record.count ≠ 0 ∧ generateHash host record.data = generateHash host data

def share (index : Nat) : Table :=
  ⟨t.records.modify index Record.share, by simpa using t.length_le⟩

def release (index : Nat) : Table :=
  ⟨t.records.modify index Record.release, by simpa using t.length_le⟩

/-- A new record, if three digits can hold its id. -/
def add (data : Bytes) : Table :=
  if h : t.records.length < 999 then
    ⟨t.records ++ [Record.new data], by simpa using h⟩
  else t

@[simp] theorem share_records (index : Nat) :
    (t.share index).records = t.records.modify index Record.share := rfl

@[simp] theorem release_records (index : Nat) :
    (t.release index).records = t.records.modify index Record.release := rfl

theorem add_records {data : Bytes} (h : t.records.length < 999) :
    (t.add data).records = t.records ++ [Record.new data] := by
  rw [add, dif_pos h]

/-- What `generate_block` means: the record that now stands for `data`. -/
def store (data : Bytes) : Nat × Table :=
  match t.find host data with
  | some index => (index, t.share index)
  | none => (t.records.length, t.add data)

/-- Neither the counter nor the id that a store needs runs out of digits. -/
def HasRoom (data : Bytes) : Prop :=
  match t.find host data with
  | some index => ∀ record, t.records[index]? = some record → record.count < 99
  | none => t.records.length < 999

def lines : List Bytes := t.records.mapIdx (Record.line host)

def bytes : Bytes := (t.lines host).flatten

def hashLines : List HashLine :=
  List.ofFn fun index : Fin t.records.length =>
    { id := padDecimal 3 (index + 1)
      counter := padDecimal 2 t.records[index].count
      hash := generateHash host t.records[index].data
      id_length := padDecimal_length (by omega) (by have := t.length_le; omega)
      counter_length := padDecimal_length (by omega)
        (by have := t.records[index].count_le; omega)
      hash_length := generateHash_length host _ }

theorem map_hashLines : (t.hashLines host).map HashLine.bytes = t.lines host := by
  apply List.ext_getElem
  · simp [hashLines, lines]
  · intro index hleft hright
    simp [hashLines, lines, HashLine.bytes, Record.line]

theorem bytes_eq : t.bytes host = ((t.hashLines host).map HashLine.bytes).flatten := by
  rw [bytes, map_hashLines]

theorem uniform_lines : Uniform 45 (t.lines host) := by
  rw [← map_hashLines]
  exact HashLine.uniform_bytes _

@[simp] theorem lines_length : (t.lines host).length = t.records.length := by
  simp [lines]

@[simp] theorem bytes_length : (t.bytes host).length = 45 * t.records.length := by
  rw [bytes, flatten_length (t.uniform_lines host), lines_length]

section

variable {t} {index : Nat} {record : Record}

theorem index_lt (h : t.records[index]? = some record) : index < t.records.length :=
  (List.getElem?_eq_some_iff.mp h).1

theorem index_lt_999 (h : t.records[index]? = some record) : index < 999 :=
  (index_lt h).trans_le t.length_le

private theorem getElem?_hashLines (h : t.records[index]? = some record) :
    ∃ hashLine, (t.hashLines host)[index]? = some hashLine ∧
      hashLine.id = padDecimal 3 (index + 1) ∧
      hashLine.counter = padDecimal 2 record.count ∧
      hashLine.hash = generateHash host record.data := by
  obtain ⟨hlt, rfl⟩ := List.getElem?_eq_some_iff.mp h
  have hline : index < (t.hashLines host).length := by simpa [hashLines] using hlt
  exact ⟨_, List.getElem?_eq_getElem hline, by simp [hashLines], by simp [hashLines],
    by simp [hashLines]⟩

theorem readAt_id (h : t.records[index]? = some record) :
    readAt (t.bytes host) (45 * index) 3 = padDecimal 3 (index + 1) := by
  obtain ⟨hashLine, hline, hid, -, -⟩ := getElem?_hashLines host h
  rw [bytes_eq, HashLine.readAt_id hline, hid]

theorem readAt_counter (h : t.records[index]? = some record) :
    readAt (t.bytes host) (45 * index + 3) 2 = padDecimal 2 record.count := by
  obtain ⟨hashLine, hline, -, hcounter, -⟩ := getElem?_hashLines host h
  rw [bytes_eq, HashLine.readAt_counter hline, hcounter]

theorem readAt_hash (h : t.records[index]? = some record) :
    readAt (t.bytes host) (45 * index + 5) 40 = generateHash host record.data := by
  obtain ⟨hashLine, hline, -, -, hhash⟩ := getElem?_hashLines host h
  rw [bytes_eq, HashLine.readAt_hash hline, hhash]

theorem modify_eq_set (h : t.records[index]? = some record) (f : Record → Record) :
    t.records.modify index f = t.records.set index (f record) := by
  simp [List.modify_eq_set_getElem?, h]

theorem bytes_share (h : t.records[index]? = some record) :
    (t.share index).bytes host =
      writeAt (t.bytes host) (Record.line host index record.share) (45 * index) := by
  have hlength : (Record.line host index record.share).length = 45 := by
    rw [Record.line, List.length_append, List.length_append, generateHash_length,
      idText_length (index_lt_999 h), record.share.counter_length]
  rw [bytes, bytes, writeAt_flatten (t.uniform_lines host) (by simpa using index_lt h) hlength,
    lines, lines, share_records, modify_eq_set h, List.mapIdx_set]

theorem bytes_add {data : Bytes} (h : t.records.length < 999) :
    (t.add data).bytes host =
      t.bytes host ++ Record.line host t.records.length (Record.new data) := by
  rw [bytes, lines, add_records t h, List.mapIdx_concat, List.flatten_append]
  simp [bytes, lines]

end

/-! ## What `compare_hashes` finds -/

private theorem findIdx?_congr {α β : Type} {first : List α} {second : List β}
    {p : α → Bool} {q : β → Bool} (hlength : first.length = second.length)
    (h : ∀ index (hfirst : index < first.length) (hsecond : index < second.length),
      p first[index] = q second[index]) :
    first.findIdx? p = second.findIdx? q := by
  induction first generalizing second with
  | nil =>
      rw [List.length_nil] at hlength
      rw [List.length_eq_zero_iff.mp hlength.symm]
      rfl
  | cons a first ih =>
      cases second with
      | nil => simp at hlength
      | cons b second =>
          have hhead := h 0 (by simp) (by simp)
          have htail : first.findIdx? p = second.findIdx? q :=
            ih (by simpa using hlength) fun index hfirst hsecond =>
              h (index + 1) (by simpa using hfirst) (by simpa using hsecond)
          simp only [List.getElem_cons_zero] at hhead
          rw [List.findIdx?_cons, List.findIdx?_cons, hhead, htail]

private theorem isMatch_eq (data : Bytes) {record : Record} {hashLine : HashLine}
    (hcounter : hashLine.counter = padDecimal 2 record.count)
    (hhash : hashLine.hash = generateHash host record.data) :
    HashLine.isMatch (generateHash host data) hashLine =
      decide (record.count ≠ 0 ∧
        generateHash host record.data = generateHash host data) := by
  have hzero : padDecimal 2 record.count = formatInt 2 0 ↔ record.count = 0 :=
    (padDecimal_injective 2).eq_iff (b := 0)
  rw [HashLine.isMatch, hcounter, hhash, (nulFree_generateHash host _).cString_eq,
    cString_padDecimal]
  simp only [ne_eq, hzero, and_comm]

private theorem findIdx?_hashLines (data : Bytes) :
    (t.hashLines host).findIdx? (HashLine.isMatch (generateHash host data)) =
      t.find host data := by
  apply findIdx?_congr (by simp [hashLines])
  intro index hfirst hsecond
  exact isMatch_eq host data (by simp [hashLines]) (by simp [hashLines])

theorem compareLoop_find (lastId : Nat) (data : Bytes) :
    compareLoop lastId (t.bytes host) (generateHash host data)
        ((t.bytes host).length + 1) idLength =
      match t.find host data with
      | some index => (index : Int) + 1
      | none => lastId + 1 := by
  have hfuel : (t.hashLines host).length - 0 < (t.bytes host).length + 1 := by
    simp [hashLines]
    omega
  have hscan := HashLine.compareLoop_lines lastId (t.hashLines host)
    (show ([] : Bytes).length < 45 by decide) (generateHash host data) hfuel
  rw [List.append_nil, ← bytes_eq, List.drop_zero, List.find?_eq_bind_findIdx?_getElem?,
    findIdx?_hashLines] at hscan
  rw [hscan]
  cases hfind : t.find host data with
  | none => rfl
  | some index =>
      obtain ⟨hlt, -⟩ := List.findIdx?_eq_some_iff_getElem.mp hfind
      have hline : index < (t.hashLines host).length := by simpa [hashLines] using hlt
      simp [hashLines, hlt]

/-- `compare_hashes` answers the id of the record that `store` takes. -/
theorem compareLoop_bytes (data : Bytes) :
    compareLoop t.records.length (t.bytes host) (generateHash host data)
        ((t.bytes host).length + 1) idLength =
      ((t.store host data).1 : Int) + 1 := by
  rw [compareLoop_find, store]
  cases t.find host data <;> rfl

theorem find_eq_some {data : Bytes} {index : Nat} (h : t.find host data = some index) :
    ∃ record, t.records[index]? = some record ∧ record.count ≠ 0 ∧
      generateHash host record.data = generateHash host data := by
  obtain ⟨hlt, hmatch, -⟩ := List.findIdx?_eq_some_iff_getElem.mp h
  simp only [decide_eq_true_eq] at hmatch
  exact ⟨_, List.getElem?_eq_getElem hlt, hmatch⟩

theorem store_of_find_some {data : Bytes} {index : Nat} (h : t.find host data = some index) :
    t.store host data = (index, t.share index) := by
  rw [store, h]

theorem store_of_find_none {data : Bytes} (h : t.find host data = none) :
    t.store host data = (t.records.length, t.add data) := by
  rw [store, h]

theorem find_eq_none {data : Bytes} (h : t.find host data = none) {record : Record}
    (hrecord : record ∈ t.records) (hlive : record.count ≠ 0) :
    generateHash host record.data ≠ generateHash host data := by
  intro heq
  have hno := List.findIdx?_eq_none_iff.mp h record hrecord
  simp [hlive, heq] at hno

end Table

end Ece318.Bbfs
