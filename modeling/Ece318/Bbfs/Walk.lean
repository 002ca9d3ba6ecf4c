import Ece318.Bbfs.Release
import Ece318.Bbfs.WriteSpec

/-!
# The walk of `delete_blocks`

The walk takes the entries of a pointers file one after the other.  An entry
that names a record releases a reference.  One that names none leaves
everything as it is, as long as the counter that `delete_blocks` then goes by
is 0: a failed `fseek` does not move the hashes file, and a `fread` at its end
does not fill the counter array, so that counter comes from the entries before.
-/

namespace Ece318.Bbfs

open Ece318.Foundation

/-! ## Entries -/

/-- An entry of a pointers file: an id, or what a write past the end leaves before it. -/
inductive Entry where
  | id (number : Nat)
  | hole
  deriving DecidableEq, Repr

namespace Entry

def text : Entry → Bytes
  | id number => padDecimal 3 number
  | hole => [0, 0, 0]

def number : Entry → Nat
  | id number => number
  | hole => 0

def index (entry : Entry) : Nat :=
  if entry.number = 0 then 999 else entry.number - 1

@[simp] theorem index_id (index : Nat) : (id (index + 1)).index = index := by
  simp [Entry.index, number]

theorem eq_id_of_index_lt {entry : Entry} (h : entry.index < 999) :
    entry = id (entry.index + 1) := by
  cases entry with
  | hole => exact absurd h (by decide)
  | id number =>
      cases number with
      | zero => exact absurd h (by simp [Entry.index, Entry.number])
      | succ index => rw [index_id]

theorem text_eq_of_index_lt {entry : Entry} (h : entry.index < 999) :
    entry.text = padDecimal 3 (entry.index + 1) :=
  congrArg text (eq_id_of_index_lt h)

@[simp] theorem atoi_text (entry : Entry) : atoi entry.text = entry.number := by
  cases entry with
  | id number => exact atoi_padDecimal 3 number
  | hole => decide

theorem nulFree_text {entry : Entry} (h : entry.number ≠ 0) : NulFree entry.text := by
  cases entry with
  | id number => exact nulFree_padDecimal 3 number
  | hole => exact absurd rfl h

theorem text_length {entry : Entry} (h : entry.number < 1000) : entry.text.length = 3 := by
  cases entry with
  | id number => exact padDecimal_length (by decide) h
  | hole => rfl

theorem uniform_text {entries : List Entry} (h : ∀ entry ∈ entries, entry.number < 1000) :
    Uniform 3 (entries.map text) := by
  intro record hrecord
  obtain ⟨entry, hentry, rfl⟩ := List.mem_map.mp hrecord
  exact text_length (h entry hentry)

end Entry

/-! ## What the walk does to a store -/

structure Cursor where
  position : Nat
  usage : Option Bytes
  deriving DecidableEq, Repr

namespace Cursor

def start : Cursor := ⟨0, none⟩

/-- The `fseek` and `fread` for the counter of an entry. -/
def read (cursor : Cursor) (hashesfile : Bytes) (entry : Entry) : Cursor :=
  let position :=
    fseek cursor.position (((entry.number : Int) - 1) * lineTotalLength + idLength)
  let got := readAt hashesfile position pointersCounterLength
  ⟨position + got.length, fillArray cursor.usage got pointersCounterLength⟩

end Cursor

def Table.cursor (t : Table) (index : Nat) : Cursor :=
  ⟨45 * index + if t.count index = 0 then 5 else 45, some (padDecimal 2 (t.count index))⟩

def Cursor.next (hash : Nat → Bytes) (t : Table) (cursor : Cursor) (entry : Entry) : Cursor :=
  if entry.index < t.records.length then t.cursor entry.index
  else cursor.read (t.text hash) entry

def Passes (hash : Nat → Bytes) (t : Table) (cursor : Cursor) (entry : Entry) : Prop :=
  entry.index < t.records.length ∨
    ∃ usage ∈ (cursor.read (t.text hash) entry).usage, atoi usage = 0

instance (hash : Nat → Bytes) (t : Table) (cursor : Cursor) (entry : Entry) :
    Decidable (Passes hash t cursor entry) :=
  inferInstanceAs (Decidable (_ ∨ _))

def Benign (hash : Nat → Bytes) : Table → Cursor → List Entry → Prop
  | _, _, [] => True
  | t, cursor, entry :: entries =>
      Passes hash t cursor entry ∧
        Benign hash (t.release entry.index) (cursor.next hash t entry) entries

def decidableBenign (hash : Nat → Bytes) : (t : Table) → (cursor : Cursor) →
    (entries : List Entry) → Decidable (Benign hash t cursor entries)
  | _, _, [] => .isTrue trivial
  | t, cursor, entry :: entries =>
      let := decidableBenign hash (t.release entry.index) (cursor.next hash t entry) entries
      inferInstanceAs (Decidable (_ ∧ _))

instance (hash : Nat → Bytes) (t : Table) (cursor : Cursor) (entries : List Entry) :
    Decidable (Benign hash t cursor entries) :=
  decidableBenign hash t cursor entries

/-- From `s` to `s'` one reference has been released for each of the indices. -/
structure Walked (hash : Nat → Bytes) (inode : Nat) (t : Table) (indices : List Nat)
    (s s' : BbState) : Prop where
  lastId_eq : s'.lastId = s.lastId
  hashes_eq : s'.file .hashes = some ((t.releaseAll indices).text hash)
  block_eq : ∀ index < t.records.length, s'.file (blockOf index) =
    if 0 < t.count index ∧ t.count index ≤ indices.count index then none
    else s.file (blockOf index)
  other_eq : ∀ name, name ≠ .hashes → (∀ index < t.records.length, name ≠ blockOf index) →
    s'.file name = s.file name
  rootdir_eq : s'.rootdir = if t.frees indices then s.rootdir.write inode [] else s.rootdir

namespace Walked

variable {hash : Nat → Bytes} {inode index : Nat} {t : Table} {indices : List Nat}
  {s s₁ s' : BbState}

theorem nil (hfile : s.file .hashes = some (t.text hash)) : Walked hash inode t [] s s :=
  ⟨rfl, hfile, fun index _ => by rw [List.count_nil, if_neg (by omega)], fun _ _ _ => rfl, rfl⟩

theorem dead (hfile : s.file .hashes = some (t.text hash)) (hdead : t.count index = 0) :
    Walked hash inode t [index] s s where
  lastId_eq := rfl
  hashes_eq := by rw [Table.releaseAll_cons, Table.releaseAll_nil, Table.release_dead hdead, hfile]
  block_eq := by
    intro other _
    have hnone : ¬ (0 < t.count other ∧ t.count other ≤ [index].count other) := by
      rintro ⟨hpos, hle⟩
      have hmem : other ∈ [index] := List.count_pos_iff.mp (by omega)
      rw [List.mem_singleton.mp hmem, hdead] at hpos
      omega
    rw [if_neg hnone]
  other_eq := fun _ _ _ => rfl
  rootdir_eq := by simp [Table.frees, hdead]

theorem cons (hfirst : Walked hash inode t [index] s s₁)
    (hrest : Walked hash inode (t.release index) indices s₁ s') :
    Walked hash inode t (index :: indices) s s' where
  lastId_eq := hrest.lastId_eq.trans hfirst.lastId_eq
  hashes_eq := hrest.hashes_eq
  block_eq := by
    intro other hother
    rw [hrest.block_eq other (by rwa [Table.release_length]), hfirst.block_eq other hother,
      Table.count_release, List.count_cons, List.count_cons, List.count_nil]
    by_cases heq : index = other
    · subst other
      simp only [beq_self_eq_true, if_true]
      split_ifs <;> first | rfl | omega
    · simp only [heq, beq_iff_eq, if_false]
      split_ifs <;> first | rfl | omega
  other_eq := by
    intro name hname hnot
    rw [hrest.other_eq name hname (by rwa [Table.release_length]),
      hfirst.other_eq name hname hnot]
  rootdir_eq := by
    have hone := hfirst.rootdir_eq
    simp only [Table.frees, Bool.or_false] at hone
    rw [hrest.rootdir_eq, hone, Table.frees]
    by_cases hcount : t.count index = 1
    · simp [hcount, FileSystem.write]
    · simp [hcount]

end Walked

/-! ## One entry -/

def DeleteLocals.cursor (locals : DeleteLocals) : Cursor := ⟨locals.position, locals.usage⟩

def DeleteLocals.Loaded (locals : DeleteLocals) : Prop :=
  ∀ usage ∈ locals.usage, atoi usage ≠ 0 →
    ∃ hash ∈ locals.hash, hash.length = hashSize ∧ NulFree hash

section

variable {host : Host} {hash : Nat → Bytes} {s : BbState} {t : Table} {fpath : Path}
  {inode index : Nat} {entry : Entry} {record : Record} {locals : DeleteLocals}

theorem deleteLoop_stop
    (hunread : (locals.pointersFile.unread (s.rootdir.data inode)).length < 3)
    (fuel : Nat) : deleteLoop host fpath inode fuel s locals = .ok s := by
  cases fuel with
  | zero => rfl
  | succ fuel =>
      have hshort : (locals.pointersFile.fread 4096 (s.rootdir.data inode) 3).1.length ≠ 3 := by
        rw [ReadStream.fread_fst _ _ (by omega), List.length_take]
        omega
      rw [deleteLoop]
      simp only [hshort, ne_eq, not_false_eq_true, if_true]
      rfl

theorem deleteBlocks_eq_loop (hgrants : host.Grants)
    (hfile : s.file .hashes = some (t.text hash)) (hpath : s.rootdir.resolve fpath = .ok inode) :
    deleteBlocks host s fpath = deleteLoop host fpath inode
      ((s.rootdir.data inode).length + 1) s ⟨.start, 0, none, none⟩ := by
  simp only [deleteBlocks, openPath_of_resolve hgrants hpath .deletePointers, openFile,
    hgrants.fopen, hfile, if_true]

theorem deleteLoop_succ (hfile : s.file .hashes = some (t.text hash))
    (hnumber : entry.number < 1000) {rest : Bytes}
    (hunread : locals.pointersFile.unread (s.rootdir.data inode) = entry.text ++ rest)
    (fuel : Nat) :
    deleteLoop host fpath inode (fuel + 1) s locals =
      match (locals.cursor.read (t.text hash) entry).usage with
      | none => .error .uninitialised
      | some usage =>
          (deleteEntry host s fpath entry.text usage
            ⟨(locals.pointersFile.fread 4096 (s.rootdir.data inode) 3).2,
              (locals.cursor.read (t.text hash) entry).position, some usage, locals.hash⟩).bind
            fun (s, locals) => deleteLoop host fpath inode fuel s locals := by
  have hid : (locals.pointersFile.fread 4096 (s.rootdir.data inode) 3).1 = entry.text := by
    rw [ReadStream.fread_fst _ _ (by omega), hunread,
      List.take_left' (Entry.text_length hnumber)]
  rw [deleteLoop]
  simp only [hid, Entry.text_length hnumber, ne_eq, not_true_eq_false, if_false, hfile,
    Option.getD_some, Entry.atoi_text, Cursor.read, DeleteLocals.cursor]
  rfl

theorem Cursor.read_id (hhash : ∀ index, (hash index).length = hashSize)
    (hrecord : t.records[index]? = some record) (cursor : Cursor) :
    cursor.read (t.text hash) (.id (index + 1)) =
      ⟨45 * index + 5, some (padDecimal 2 record.count)⟩ := by
  have hseek : fseek cursor.position
      ((((Entry.id (index + 1)).number : Int) - 1) * lineTotalLength + idLength) =
      45 * index + 3 := by
    apply fseek_eq
    rw [Entry.number]
    push_cast
    ring
  rw [Cursor.read, hseek, pointersCounterLength, Table.readAt_text_counter hhash hrecord,
    fillArray_full record.counter_length, record.counter_length]

theorem deleteEntry_dead (usage : Bytes) (hdead : atoi usage = 0) :
    deleteEntry host s fpath entry.text usage locals = .ok (s, locals) := by
  rw [deleteEntry, if_pos hdead]
  rfl

theorem Walked.live (hrecord : t.records[index]? = some record) (hpos : 0 < record.count) :
    Walked hash inode t [index] s
      ((if record.count = 1 then (s.setPointers inode []).removeFile (blockOf index)
        else s).setFile .hashes ((t.release index).text hash)) := by
  have hcount := Table.count_eq hrecord
  have hother : ∀ other, other ≠ index → [index].count other = 0 := fun other hne =>
    List.count_eq_zero.mpr (by simpa using hne)
  have hself : [index].count index = 1 := List.count_singleton_self
  have hne : ∀ other, blockOf other ≠ .hashes := fun other => by simp [blockOf]
  by_cases hone : record.count = 1
  · simp only [if_pos hone]
    refine ⟨rfl, by simp, fun other _ => ?_, fun name hname hnot => ?_, ?_⟩
    · by_cases heq : other = index
      · subst other
        rw [if_pos (by omega)]
        simp [hne]
      · rw [if_neg (by have := hother other heq; omega)]
        simp [hne, blockOf_injective.eq_iff, heq]
    · have hblock := hnot index (Table.index_lt hrecord)
      simp [hname, hblock]
    · simp [Table.frees, hcount, hone]
  · simp only [if_neg hone]
    refine ⟨rfl, by simp, fun other _ => ?_, fun name hname _ => by simp [hname], ?_⟩
    · have hnone : ¬ (0 < t.count other ∧ t.count other ≤ [index].count other) := by
        by_cases heq : other = index
        · subst other
          omega
        · have := hother other heq
          omega
      rw [if_neg hnone]
      simp [hne]
    · simp [Table.frees, hcount, hone]

theorem deleteEntry_live (hgrants : host.Grants)
    (hhash : ∀ index, (hash index).length = hashSize) (hnul : ∀ index, NulFree (hash index))
    (hfile : s.file .hashes = some (t.text hash))
    (hpath : s.rootdir.resolve fpath = .ok inode)
    (hrecord : t.records[index]? = some record) (hpos : 0 < record.count)
    (locals : DeleteLocals) (hposition : locals.position = 45 * index + 5) :
    ∃ s', deleteEntry host s fpath (padDecimal 3 (index + 1)) (padDecimal 2 record.count)
        locals = .ok (s', ⟨locals.pointersFile, 45 * index + 45, locals.usage,
          some (hash index)⟩) ∧ Walked hash inode t [index] s s' := by
  have hread : readAt (t.text hash) (45 * index + 5) hashSize = hash index :=
    Table.readAt_text_hash hhash hrecord
  have hseek : fseek (45 * index + 5 + hashSize)
      ((45 * index + 5 + hashSize : Nat) - lineTotalLength : Int) = 45 * index := by
    apply fseek_eq
    push_cast
    ring
  have hline : cString (padDecimal 3 (index + 1)) ++
        formatInt 2 (atoi (padDecimal 2 record.count) - 1) ++ cString (hash index) =
      padDecimal 3 (index + 1) ++ padDecimal 2 (record.count - 1) ++ hash index := by
    rw [cString_padDecimal, atoi_padDecimal, (hnul index).cString_eq,
      show (record.count : Int) - 1 = (record.count - 1 : Nat) by omega, formatInt_natCast]
  have hlength : (padDecimal 3 (index + 1) ++ padDecimal 2 (record.count - 1) ++
      hash index).length = 45 := by
    have hcount := record.count_le
    exact Table.line_length (hhash index) hrecord _ (by omega)
  have hnot : ¬ atoi (padDecimal 2 record.count) = 0 := by
    rw [atoi_padDecimal]
    omega
  -- whatever the counter says, the line is rewritten in the dropped state
  have hdropped : (if atoi (padDecimal 2 record.count) = 1 then
        dropBlock host s fpath (padDecimal 3 (index + 1)) else .ok s) =
      .ok (if record.count = 1 then (s.setPointers inode []).removeFile (blockOf index)
        else s) := by
    have hiff : atoi (padDecimal 2 record.count) = 1 ↔ record.count = 1 := by
      rw [atoi_padDecimal]
      omega
    simp only [hiff, dropBlock, openPath_of_resolve hgrants hpath, cString_padDecimal]
    split <;> rfl
  have hkeeps : (if record.count = 1 then (s.setPointers inode []).removeFile (blockOf index)
      else s).file .hashes = some (t.text hash) := by
    split <;> simp [hfile, blockOf]
  refine ⟨_, ?_, Walked.live hrecord hpos⟩
  rw [deleteEntry, if_neg hnot, hdropped]
  simp only [bind, Except.bind, hkeeps, Option.getD_some, hposition, hread]
  rw [fillArray_full (hhash index)]
  simp only [hhash, hseek, hline, hlength, Table.text_release hhash hrecord]
  rfl

end

/-! ## What the walk gets to see -/

theorem take_reached_cons (total consumed : Nat) (t : Table) (entry : Entry)
    (entries : List Entry) :
    (entry :: entries).take
        (Table.reached total t consumed ((entry :: entries).map Entry.index)) =
      entry :: entries.take (if t.count entry.index = 1
        then Table.fetched total (consumed + 1) - (consumed + 1)
        else Table.reached total (t.release entry.index) (consumed + 1)
          (entries.map Entry.index)) := by
  rw [List.map_cons, Table.reached]
  split
  · rw [Nat.add_comm, List.take_succ_cons, List.length_map, Nat.min_comm,
      ← List.take_eq_take_min]
  · rw [Nat.add_comm, List.take_succ_cons]

/--
The entries ahead of a stream over a pointers file: once that file has been
emptied, those in the buffer, and before that those that `Table.reached` counts.
-/
inductive Ahead (t : Table) (file : Bytes) (stream : ReadStream) (left : List Entry) : Prop
  | emptied {tail : Bytes} (hnumbers : ∀ entry ∈ left, entry.number < 1000)
      (hfile : file = []) (htail : tail.length < 3)
      (hbuffered : stream.buffered = (left.map Entry.text).flatten ++ tail)
  | synced {all entries : List Entry} {consumed refills : Nat}
      (hnumbers : ∀ entry ∈ all, entry.number < 1000)
      (hfile : file = (all.map Entry.text).flatten) (hentries : all.drop consumed = entries)
      (hsynced : ReadStream.Synced 4096 file (3 * consumed) refills stream)
      (hleft : entries.take
        (Table.reached all.length t consumed (entries.map Entry.index)) = left)

namespace Ahead

variable {t : Table} {file : Bytes} {stream : ReadStream} {entry : Entry} {left : List Entry}

theorem start {entries : List Entry} (hnumbers : ∀ entry ∈ entries, entry.number < 1000) :
    Ahead t (entries.map Entry.text).flatten .start
        (entries.take (Table.reached entries.length t 0 (entries.map Entry.index))) ∧
      (entries.take (Table.reached entries.length t 0 (entries.map Entry.index))).length ≤
        (entries.map Entry.text).flatten.length + 1 := by
  refine ⟨.synced hnumbers rfl rfl (ReadStream.synced_start _ (by omega)) rfl, ?_⟩
  rw [flatten_length (Entry.uniform_text hnumbers), List.length_map, List.length_take]
  omega

theorem unread_length_lt (h : Ahead t file stream []) : (stream.unread file).length < 3 := by
  cases h with
  | emptied hnumbers hfile htail hbuffered => simpa [hfile, hbuffered] using htail
  | @synced all entries consumed refills hnumbers hfile hentries hsynced hleft =>
      cases entries with
      | cons entry entries =>
          rw [take_reached_cons] at hleft
          contradiction
      | nil =>
          have hend : all.length ≤ consumed := List.drop_eq_nil_iff.mp hentries
          rw [hsynced.unread_eq, List.length_drop, hfile,
            flatten_length (Entry.uniform_text hnumbers), List.length_map]
          omega

theorem unread_eq (h : Ahead t file stream (entry :: left)) :
    entry.number < 1000 ∧ ∃ rest, stream.unread file = entry.text ++ rest := by
  cases h with
  | @emptied tail hnumbers hfile htail hbuffered =>
      refine ⟨hnumbers entry List.mem_cons_self, (left.map Entry.text).flatten ++ tail, ?_⟩
      rw [hfile, ReadStream.unread_nil, hbuffered, List.map_cons, List.flatten_cons,
        List.append_assoc]
  | @synced all entries consumed refills hnumbers hfile hentries hsynced hleft =>
      cases entries with
      | nil => contradiction
      | cons other entries =>
          rw [take_reached_cons] at hleft
          obtain rfl := (List.cons.inj hleft).1
          have hmem : other ∈ all := List.mem_of_mem_drop (hentries ▸ List.mem_cons_self)
          refine ⟨hnumbers other hmem, (entries.map Entry.text).flatten, ?_⟩
          rw [hsynced.unread_eq, hfile, drop_flatten (Entry.uniform_text hnumbers),
            ← List.map_drop, hentries, List.map_cons, List.flatten_cons]

theorem fread (h : Ahead t file stream (entry :: left)) :
    Ahead (t.release entry.index) (if t.count entry.index = 1 then [] else file)
      (stream.fread 4096 file 3).2 left := by
  obtain ⟨hnumber, rest, hunread⟩ := h.unread_eq
  cases h with
  | @emptied tail hnumbers hfile htail hbuffered =>
      refine .emptied (fun other hother => hnumbers other (List.mem_cons_of_mem _ hother))
        (by rw [hfile, ite_self]) htail ?_
      rw [← ReadStream.unread_nil, ← hfile, ReadStream.fread_unread _ _ (by omega), hfile,
        ReadStream.unread_nil, hbuffered, List.map_cons, List.flatten_cons, List.append_assoc,
        List.drop_left' (Entry.text_length hnumber)]
  | @synced all entries consumed refills hnumbers hfile hentries hsynced hleft =>
      cases entries with
      | nil => contradiction
      | cons other entries =>
          rw [take_reached_cons] at hleft
          obtain ⟨rfl, hrest⟩ := List.cons.inj hleft
          have huniform := Entry.uniform_text hnumbers
          have hnext : all.drop (consumed + 1) = entries := by
            rw [← List.drop_drop, hentries]
            rfl
          have hconsumed : consumed < all.length := by
            by_contra hge
            rw [List.drop_eq_nil_of_le (by omega)] at hentries
            contradiction
          subst hfile
          have hfull : 3 * consumed + 3 ≤ (all.map Entry.text).flatten.length := by
            rw [flatten_length huniform, List.length_map]
            omega
          obtain ⟨refills', hsynced'⟩ : ∃ refills', ReadStream.Synced 4096
              (all.map Entry.text).flatten (3 * (consumed + 1)) refills'
              (stream.fread 4096 (all.map Entry.text).flatten 3).2 :=
            hsynced.fread (by omega) hfull
          split at hrest
          · -- the pointers file is empty now: what follows is in the buffer
            rename_i hone
            obtain ⟨tail, htail, hbuffered⟩ := hsynced'.exists_buffered huniform (by omega)
            have hoffset := hsynced'.offset_eq
            have hle := hsynced'.consumed_le
            have htight := hsynced'.tight
            have hrefills : refills' = (3 * (consumed + 1) + 4095) / 4096 := by omega
            have hcount : (min (3 * all.length) (4096 * refills') - 3 * (consumed + 1)) / 3 =
                Table.fetched all.length (consumed + 1) - (consumed + 1) := by
              rw [Table.fetched, ← hrefills]
              exact Nat.sub_mul_div _ _ _
            rw [hoffset, flatten_length huniform, List.length_map, hcount, ← List.map_drop,
              hnext, ← List.map_take, hrest] at hbuffered
            have hmem : ∀ other ∈ left, other ∈ all := fun other hother =>
              List.mem_of_mem_drop (hnext ▸ List.mem_of_mem_take (hrest ▸ hother))
            exact .emptied (fun other hother => hnumbers other (hmem other hother))
              (if_pos hone) htail hbuffered
          · -- the pointers file is as it was, and its stream one entry further on
            rename_i hone
            rw [if_neg hone]
            exact .synced hnumbers rfl hnext hsynced' hrest

end Ahead

/-! ## Entry after entry -/

namespace Walked

variable {hash : Nat → Bytes} {inode index : Nat} {t : Table} {indices : List Nat}
  {s s' : BbState}

theorem resolve_eq (h : Walked hash inode t indices s s') (fpath : Path) :
    s'.rootdir.resolve fpath = s.rootdir.resolve fpath := by
  rw [h.rootdir_eq]
  split
  · exact FileSystem.resolve_write ..
  · rfl

theorem data_eq (h : Walked hash inode t [index] s s') :
    s'.rootdir.data inode = if t.count index = 1 then [] else s.rootdir.data inode := by
  rw [h.rootdir_eq]
  by_cases hone : t.count index = 1 <;> simp [Table.frees, hone]

end Walked

theorem Table.count_eq_zero {t : Table} {index : Nat} (h : t.records.length ≤ index) :
    t.count index = 0 := by
  rw [Table.count, List.getElem?_eq_none h]

section

variable {host : Host} {hash : Nat → Bytes} {s : BbState} {t : Table} {fpath : Path}
  {inode : Nat} {entry : Entry} {entries left : List Entry} {locals : DeleteLocals}
  (hgrants : host.Grants) (hhash : ∀ index, (hash index).length = hashSize)
  (hnul : ∀ index, NulFree (hash index))

include hgrants hhash hnul

theorem deleteLoop_passes (hfile : s.file .hashes = some (t.text hash))
    (hpath : s.rootdir.resolve fpath = .ok inode) (hnumber : entry.number < 1000)
    (hpasses : Passes hash t locals.cursor entry) {rest : Bytes}
    (hunread : locals.pointersFile.unread (s.rootdir.data inode) = entry.text ++ rest)
    (fuel : Nat) :
    ∃ s' locals', deleteLoop host fpath inode (fuel + 1) s locals =
        deleteLoop host fpath inode fuel s' locals' ∧
      Walked hash inode t [entry.index] s s' ∧
      locals'.pointersFile = (locals.pointersFile.fread 4096 (s.rootdir.data inode) 3).2 ∧
      locals'.cursor = locals.cursor.next hash t entry ∧ locals'.Loaded := by
  by_cases hlt : entry.index < t.records.length
  · have hrecord := List.getElem?_eq_getElem hlt
    have hcount := Table.count_eq hrecord
    have hentry := Entry.eq_id_of_index_lt (Table.index_lt_999 hrecord)
    have hread := Cursor.read_id hhash hrecord locals.cursor
    rw [← hentry] at hread
    rw [deleteLoop_succ hfile hnumber hunread, hread, Cursor.next, if_pos hlt, Table.cursor,
      hcount]
    dsimp only
    rcases Nat.eq_zero_or_pos (t.records[entry.index].count) with hzero | hpos
    · have hnone : atoi (padDecimal 2 t.records[entry.index].count) = 0 := by rw [hzero]; decide
      rw [deleteEntry_dead _ hnone, if_pos hzero]
      refine ⟨s, _, rfl, Walked.dead hfile (by omega), rfl, rfl, fun usage husage hlive => ?_⟩
      obtain rfl := Option.mem_some_iff.mp husage
      contradiction
    · obtain ⟨s', hdelete, hwalked⟩ :=
        deleteEntry_live hgrants hhash hnul hfile hpath hrecord hpos
          ⟨(locals.pointersFile.fread 4096 (s.rootdir.data inode) 3).2, 45 * entry.index + 5,
            some (padDecimal 2 t.records[entry.index].count), locals.hash⟩ rfl
      rw [Entry.text_eq_of_index_lt (Table.index_lt_999 hrecord), hdelete, if_neg (by omega)]
      exact ⟨s', _, rfl, hwalked, rfl, rfl, fun _ _ _ =>
        ⟨_, rfl, hhash entry.index, hnul entry.index⟩⟩
  · obtain ⟨usage, husage, hzero⟩ := hpasses.resolve_left hlt
    have hdead := Table.count_eq_zero (not_lt.mp hlt)
    rw [deleteLoop_succ hfile hnumber hunread, Option.mem_def.mp husage]
    dsimp only
    rw [deleteEntry_dead _ hzero, Cursor.next, if_neg hlt]
    refine ⟨s, _, rfl, Walked.dead hfile hdead, rfl, ?_, fun other hother hlive => ?_⟩
    · rw [DeleteLocals.cursor, ← husage]
    · obtain rfl := Option.mem_some_iff.mp hother
      contradiction

theorem deleteLoop_benign (hfile : s.file .hashes = some (t.text hash))
    (hpath : s.rootdir.resolve fpath = .ok inode)
    (locals : DeleteLocals) (hahead : Ahead t (s.rootdir.data inode) locals.pointersFile left)
    (hbenign : Benign hash t locals.cursor left) {fuel : Nat} (hfuel : left.length ≤ fuel) :
    ∃ s', deleteLoop host fpath inode fuel s locals = .ok s' ∧
      Walked hash inode t (left.map Entry.index) s s' := by
  induction left generalizing s t locals fuel with
  | nil => exact ⟨s, deleteLoop_stop hahead.unread_length_lt fuel, Walked.nil hfile⟩
  | cons entry left ih =>
      obtain ⟨fuel, rfl⟩ : ∃ n, fuel = n + 1 :=
        ⟨fuel - 1, by simp at hfuel; omega⟩
      obtain ⟨hnumber, rest, hunread⟩ := hahead.unread_eq
      obtain ⟨s', locals', hround, hwalked, hstream, hcursor, -⟩ :=
        deleteLoop_passes hgrants hhash hnul hfile hpath hnumber hbenign.1 hunread fuel
      obtain ⟨final, hrun, hfinal⟩ := ih hwalked.hashes_eq (by rwa [hwalked.resolve_eq]) locals'
        (by rw [hwalked.data_eq, hstream]; exact hahead.fread) (by rw [hcursor]; exact hbenign.2)
        (by simpa using hfuel)
      exact ⟨final, by rw [hround, hrun], hwalked.cons hfinal⟩

/-- `delete_blocks` releases one reference for each entry that the walk gets to see. -/
theorem deleteBlocks_walked (hfile : s.file .hashes = some (t.text hash))
    (hpath : s.rootdir.resolve fpath = .ok inode)
    (hnumbers : ∀ entry ∈ entries, entry.number < 1000)
    (hdata : s.rootdir.data inode = (entries.map Entry.text).flatten)
    (hbenign : Benign hash t .start
      (entries.take (Table.reached entries.length t 0 (entries.map Entry.index)))) :
    ∃ s', deleteBlocks host s fpath = .ok s' ∧
      Walked hash inode t ((entries.map Entry.index).take
        (Table.reached entries.length t 0 (entries.map Entry.index))) s s' := by
  obtain ⟨hahead, hfuel⟩ := Ahead.start (t := t) hnumbers
  rw [← hdata] at hahead hfuel
  obtain ⟨s', hrun, hwalked⟩ := deleteLoop_benign hgrants hhash hnul hfile hpath
    ⟨.start, 0, none, none⟩ hahead hbenign hfuel
  exact ⟨s', by rw [deleteBlocks_eq_loop hgrants hfile hpath, hrun],
    by rwa [List.map_take] at hwalked⟩

end

/-! ## Entries that all name a record -/

theorem benign_of_valid {hash : Nat → Bytes} {t : Table} {entries : List Entry}
    (hvalid : t.Valid (entries.map Entry.index)) (cursor : Cursor) :
    Benign hash t cursor entries := by
  induction entries generalizing t cursor with
  | nil => trivial
  | cons entry entries ih =>
      rw [List.map_cons] at hvalid
      refine ⟨.inl (hvalid entry.index List.mem_cons_self),
        ih (Table.Valid.release (fun index hindex => ?_) entry.index) _⟩
      exact hvalid index (List.mem_cons_of_mem _ hindex)

def entriesOf (indices : List Nat) : List Entry := indices.map fun index => .id (index + 1)

@[simp] theorem map_index_entriesOf (indices : List Nat) :
    (entriesOf indices).map Entry.index = indices := by
  simp [entriesOf, Function.comp_def]

theorem pointerBytes_eq (indices : List Nat) :
    pointerBytes indices = ((entriesOf indices).map Entry.text).flatten := by
  rw [pointerBytes, entriesOf, List.map_map]
  rfl

theorem number_entriesOf {indices : List Nat} (h : ∀ index ∈ indices, index < 999) :
    ∀ entry ∈ entriesOf indices, entry.number < 1000 := by
  intro entry hentry
  obtain ⟨index, hindex, rfl⟩ := List.mem_map.mp hentry
  have hlt := h index hindex
  rw [Entry.number]
  omega

theorem deleteBlocks_valid {host : Host} {hash : Nat → Bytes} {s : BbState} {t : Table}
    {fpath : Path} {inode : Nat} (hgrants : host.Grants)
    (hhash : ∀ index, (hash index).length = hashSize) (hnul : ∀ index, NulFree (hash index))
    (hfile : s.file .hashes = some (t.text hash))
    (hpath : s.rootdir.resolve fpath = .ok inode) {indices : List Nat}
    (hvalid : t.Valid indices) (hdata : s.rootdir.data inode = pointerBytes indices) :
    ∃ s', deleteBlocks host s fpath = .ok s' ∧ Walked hash inode t
      (indices.take (Table.reached indices.length t 0 indices)) s s' := by
  have hlength : (entriesOf indices).length = indices.length := by
    rw [entriesOf, List.length_map]
  have hbenign : t.Valid (((entriesOf indices).take
      (Table.reached indices.length t 0 indices)).map Entry.index) := by
    rw [List.map_take, map_index_entriesOf]
    exact fun index hindex => hvalid index (List.mem_of_mem_take hindex)
  have hwalked := deleteBlocks_walked hgrants hhash hnul hfile hpath
    (number_entriesOf fun index hindex => (hvalid index hindex).trans_le t.length_le)
    (hdata.trans (pointerBytes_eq indices))
    (by rw [hlength, map_index_entriesOf]; exact benign_of_valid hbenign .start)
  rwa [hlength, map_index_entriesOf] at hwalked

end Ece318.Bbfs
