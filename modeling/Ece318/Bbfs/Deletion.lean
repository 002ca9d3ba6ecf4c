import Ece318.Bbfs.AnyStore
import Ece318.Bbfs.Lookup
import Ece318.Bbfs.RefCounts

/-!
# Files that are long or damaged

`delete_blocks` on any hashes file of numbered records, whether or not a store
came to it, and on pointers files of any length, with entries that may name no
record.
-/

namespace Ece318.Bbfs

open Ece318.Foundation

/-! ## Numbered records -/

structure Numbered (lines : List HashLine) : Prop where
  wellFormed : ∀ line ∈ lines, line.WellFormed
  id_eq : ∀ index line, lines[index]? = some line → line.id = padDecimal 3 (index + 1)

def HashLine.record (line : HashLine) : Record :=
  ⟨[], min (atoi line.counter).toNat 99, nulFree_nil, Nat.min_le_right _ _⟩

def tableOf (lines : List HashLine) : Table :=
  ⟨(lines.take 999).map HashLine.record, by rw [List.length_map]; exact List.length_take_le _ _⟩

def hashOf (lines : List HashLine) (index : Nat) : Bytes :=
  match lines[index]? with
  | some line => line.hash
  | none => List.replicate hashSize 48

section

variable {lines : List HashLine} {index : Nat} {line : HashLine}

theorem hashOf_length (lines : List HashLine) (index : Nat) :
    (hashOf lines index).length = hashSize := by
  unfold hashOf
  split
  · rename_i line _
    exact line.hash_length
  · exact List.length_replicate

theorem hashOf_eq (hline : lines[index]? = some line) : hashOf lines index = line.hash := by
  rw [hashOf, hline]

namespace Numbered

theorem nulFree_hashOf (h : Numbered lines) (index : Nat) : NulFree (hashOf lines index) := by
  unfold hashOf
  split
  · rename_i line hline
    exact (h.wellFormed line (List.mem_of_getElem? hline)).hash_nulFree
  · decide

theorem length_le (h : Numbered lines) : lines.length ≤ 999 := by
  by_contra hlong
  have hline := List.getElem?_eq_getElem (show 999 < lines.length by omega)
  have hid := h.id_eq 999 _ hline
  have hlength := lines[999].id_length
  rw [hid] at hlength
  exact absurd hlength (by decide)

theorem records_tableOf (h : Numbered lines) :
    (tableOf lines).records = lines.map HashLine.record :=
  congrArg (List.map HashLine.record) (List.take_of_length_le h.length_le)

theorem records_length (h : Numbered lines) : (tableOf lines).records.length = lines.length := by
  rw [h.records_tableOf, List.length_map]

theorem counter_eq (h : Numbered lines) (hline : lines[index]? = some line) :
    line.counter = padDecimal 2 ((tableOf lines).count index) := by
  obtain ⟨count, hlt, hcount⟩ :=
    (h.wellFormed line (List.mem_of_getElem? hline)).exists_counter
  have hrecord : (tableOf lines).records[index]? = some line.record := by
    rw [h.records_tableOf, List.getElem?_map, hline, Option.map_some]
  have hvalue : line.record.count = min (atoi line.counter).toNat 99 := rfl
  rw [Table.count_eq hrecord, hvalue, hcount, atoi_padDecimal, Int.toNat_natCast,
    Nat.min_eq_left (by omega)]

theorem count_le (h : Numbered lines) {indices : List Nat}
    (hvalid : ∀ index ∈ indices, index < lines.length)
    (hcount : ∀ index line, lines[index]? = some line →
      (indices.count index : Int) ≤ atoi line.counter) (index : Nat) :
    indices.count index ≤ (tableOf lines).count index := by
  rcases Nat.lt_or_ge index lines.length with hlt | hge
  · have hline := List.getElem?_eq_getElem hlt
    have henough := hcount index _ hline
    rw [h.counter_eq hline, atoi_padDecimal] at henough
    exact_mod_cast henough
  · have habsent : index ∉ indices := fun hmem => absurd (hvalid index hmem) (by omega)
    rw [List.count_eq_zero.mpr habsent]
    exact Nat.zero_le _

theorem bytes_eq (h : Numbered lines) (hline : lines[index]? = some line) :
    line.bytes = padDecimal 3 (index + 1) ++ padDecimal 2 ((tableOf lines).count index) ++
      hashOf lines index := by
  rw [HashLine.bytes, h.id_eq index line hline, h.counter_eq hline, hashOf_eq hline]

theorem text_tableOf (h : Numbered lines) :
    (tableOf lines).text (hashOf lines) = (lines.map HashLine.bytes).flatten := by
  rw [Table.text]
  congr 1
  apply List.ext_getElem
  · rw [List.length_mapIdx, h.records_length, List.length_map]
  · intro index hleft hright
    rw [List.length_map] at hright
    rw [List.length_mapIdx] at hleft
    rw [List.getElem_mapIdx, List.getElem_map, h.bytes_eq (List.getElem?_eq_getElem hright),
      Table.count_eq (List.getElem?_eq_getElem hleft)]

end Numbered

end

/-! ## Stores with one file -/

theorem numbered_hashLines (host : Host) (t : Table) : Numbered (t.hashLines host) where
  wellFormed := by
    intro line hline
    obtain ⟨index, rfl⟩ := List.mem_ofFn.mp hline
    exact ⟨fun byte => isDigit_of_mem_padDecimal, fun byte => isDigit_of_mem_padDecimal,
      nulFree_generateHash host _⟩
  id_eq := by
    intro index line hline
    obtain ⟨hlt, rfl⟩ := List.getElem?_eq_some_iff.mp hline
    simp [Table.hashLines]

theorem count_le_counter {host : Host} {t : Table} {indices : List Nat}
    (h : ∀ index < t.records.length, indices.count index ≤ t.count index) :
    ∀ index line, (t.hashLines host)[index]? = some line →
      (indices.count index : Int) ≤ atoi line.counter := by
  intro index line hline
  obtain ⟨hlt, rfl⟩ := List.getElem?_eq_some_iff.mp hline
  have hindex : index < t.records.length := by simpa [Table.hashLines] using hlt
  have henough := h index hindex
  rw [Table.count_eq (List.getElem?_eq_getElem hindex)] at henough
  simpa [Table.hashLines] using henough

def storeOf (host : Host) (t : Table) (pointers : Bytes) : BbState :=
  (((bbMknod freshMount "a").2.setFile .hashes (t.bytes host)).setPointers 0 pointers).setLastId
    t.records.length

theorem file_storeOf (host : Host) (t : Table) (pointers : Bytes) :
    (storeOf host t pointers).file .hashes =
      some ((t.hashLines host).map HashLine.bytes).flatten := by
  rw [← Table.bytes_eq]
  simp [storeOf]

theorem resolve_storeOf (host : Host) (t : Table) (pointers : Bytes) :
    (storeOf host t pointers).rootdir.resolve "a" = .ok 0 := by
  rw [storeOf, BbState.rootdir_setLastId, BbState.rootdir_setPointers,
    FileSystem.resolve_write, BbState.rootdir_setFile]
  decide

theorem data_storeOf (host : Host) (t : Table) (pointers : Bytes) :
    (storeOf host t pointers).rootdir.data 0 = pointers := by
  simp [storeOf]

/-! ## Damaged files -/

/-- Wherever the walk gets, an entry that names no record finds a counter that reads as 0. -/
def Harmless (lines : List HashLine) (entries : List Entry) : Prop :=
  Benign (hashOf lines) (tableOf lines) .start (entries.take
    (Table.reached entries.length (tableOf lines) 0 (entries.map Entry.index)))

instance (lines : List HashLine) (entries : List Entry) : Decidable (Harmless lines entries) :=
  inferInstanceAs (Decidable (Benign _ _ _ _))

/-- `delete_blocks` keeps the length of the hashes file and every record that is not named. -/
def LeavesOthers (host : Host) (s : BbState) (fpath : Path) (lines : List HashLine)
    (entries : List Entry) : Prop :=
  ∃ s' hashesfile, deleteBlocks host s fpath = .ok s' ∧ s'.file .hashes = some hashesfile ∧
    hashesfile.length = 45 * lines.length ∧
    ∀ index line, lines[index]? = some line → line.id ∉ entries.map Entry.text →
      readAt hashesfile (45 * index) 45 = line.bytes

section

variable {host : Host} {s s' : BbState} {fpath : Path} {inode : Nat} {lines : List HashLine}
  {entry : Entry} {entries left : List Entry} {hash : Nat → Bytes} {t : Table}
  {locals : DeleteLocals}

theorem Harmless.leavesOthers (h : Harmless lines entries) (hgrants : host.Grants)
    (hlines : Numbered lines) (hfile : s.file .hashes = some (lines.map HashLine.bytes).flatten)
    (hpath : s.rootdir.resolve fpath = .ok inode)
    (hnumbers : ∀ entry ∈ entries, entry.number < 1000)
    (hdata : s.rootdir.data inode = (entries.map Entry.text).flatten) :
    LeavesOthers host s fpath lines entries := by
  have hhash := hashOf_length lines
  rw [← hlines.text_tableOf] at hfile
  obtain ⟨s', hrun, hwalked⟩ := deleteBlocks_walked hgrants hhash hlines.nulFree_hashOf hfile
    hpath hnumbers hdata h
  have hnamed : ∀ index ∈ (entries.map Entry.index).take (Table.reached entries.length
      (tableOf lines) 0 (entries.map Entry.index)), index ∈ entries.map Entry.index :=
    fun index => List.mem_of_mem_take
  generalize (entries.map Entry.index).take _ = indices at hwalked hnamed
  refine ⟨s', _, hrun, hwalked.hashes_eq, ?_, fun index line hline hnot => ?_⟩
  · rw [Table.text_length hhash, Table.releaseAll_length, hlines.records_length]
  · have hlt : index < (tableOf lines).records.length := by
      rw [hlines.records_length]
      exact (List.getElem?_eq_some_iff.mp hline).1
    have habsent : index ∉ indices := by
      intro hmem
      obtain ⟨entry, hentry, rfl⟩ := List.mem_map.mp (hnamed index hmem)
      refine hnot (List.mem_map.mpr ⟨entry, hentry, ?_⟩)
      rw [hlines.id_eq _ line hline,
        Entry.text_eq_of_index_lt (hlt.trans_le (tableOf lines).length_le)]
    rw [Table.readAt_text_line hhash (by rwa [Table.releaseAll_length]), Table.count_releaseAll,
      List.count_eq_zero.mpr habsent, Nat.sub_zero, hlines.bytes_eq hline]

theorem Cursor.read_past (hhash : ∀ index, (hash index).length = hashSize)
    (hindex : t.records.length ≤ entry.index) (hid : entry.number ≠ 0) (cursor : Cursor) :
    cursor.read (t.text hash) entry = ⟨45 * entry.index + 3, cursor.usage⟩ := by
  have hnumber : entry.index + 1 = entry.number := by
    rw [Entry.index, if_neg hid]
    omega
  have hseek : fseek cursor.position (((entry.number : Int) - 1) * lineTotalLength + idLength) =
      45 * entry.index + 3 := by
    apply fseek_eq
    rw [← hnumber]
    push_cast
    ring
  have hnothing : readAt (t.text hash) (45 * entry.index + 3) pointersCounterLength = [] := by
    rw [← List.length_eq_zero_iff, readAt_length, Table.text_length hhash]
    omega
  rw [Cursor.read, hseek, hnothing]
  cases cursor.usage <;> rfl

theorem deleteEntry_past {id usage array : Bytes} {locals' : DeleteLocals}
    (hok : deleteEntry host s fpath id usage locals = .ok (s', locals')) (hid : id.length = 3)
    (hnul : NulFree id) (hlive : atoi usage ≠ 0)
    (hend : ((s.file .hashes).getD []).length ≤ locals.position)
    (harray : locals.hash = some array) (hlength : array.length = hashSize)
    (harrayNul : NulFree array) :
    locals.position ≤ ((s'.file .hashes).getD []).length := by
  rw [deleteEntry, if_neg hlive] at hok
  obtain ⟨dropped, hdropped, hok⟩ := bind_eq_ok.mp hok
  have hfile := file_hashes_of_dropped hdropped
  have hnothing : readAt ((s.file .hashes).getD []) locals.position hashSize = [] := by
    rw [← List.length_eq_zero_iff, readAt_length]
    omega
  have hkept : fillArray locals.hash [] hashSize = some array := by
    rw [harray]
    rfl
  have hcounter := le_formatInt_length 2 (atoi usage - 1)
  simp only [hfile, hnothing, hkept, hnul.cString_eq, harrayNul.cString_eq] at hok
  cases hok
  have hne : id ++ formatInt 2 (atoi usage - 1) ++ array ≠ [] := by
    intro hnil
    have hempty := congrArg List.length hnil
    simp only [List.length_append, List.length_nil, hid] at hempty
    omega
  have hseek : locals.position ≤ fseek (locals.position + 0)
      ((locals.position + 0 : Nat) - lineTotalLength : Int) + 45 := by
    have htotal : lineTotalLength = 45 := rfl
    unfold fseek
    split <;> omega
  have hwidth : hashSize = 40 := rfl
  simp only [BbState.file_setFile, if_true, Option.getD_some, writeAt_length hne,
    List.length_append, List.length_nil, hid, hlength]
  omega

theorem deleteLoop_breaks (hhash : ∀ index, (hash index).length = hashSize)
    (hfile : s.file .hashes = some (t.text hash)) (hnumber : entry.number < 1000)
    (hid : entry.number ≠ 0) (hfails : ¬ Passes hash t locals.cursor entry)
    (hloaded : locals.Loaded) {rest : Bytes}
    (hunread : locals.pointersFile.unread (s.rootdir.data inode) = entry.text ++ rest)
    {fuel : Nat} (hok : deleteLoop host fpath inode (fuel + 1) s locals = .ok s') :
    45 * t.records.length < ((s'.file .hashes).getD []).length := by
  rw [Passes, not_or] at hfails
  have hread := Cursor.read_past hhash (not_lt.mp hfails.1) hid locals.cursor
  rw [hread] at hfails
  rw [deleteLoop_succ hfile hnumber hunread, hread] at hok
  cases husage : locals.usage with
  | none =>
      simp only [DeleteLocals.cursor, husage] at hok
      contradiction
  | some usage =>
      have hlive : atoi usage ≠ 0 := fun hzero => hfails.2 ⟨usage, husage, hzero⟩
      obtain ⟨array, harray, hlength, hnul⟩ := hloaded usage husage hlive
      simp only [DeleteLocals.cursor, husage] at hok
      obtain ⟨⟨next, locals'⟩, hentry, hok⟩ := bind_eq_ok.mp hok
      have hend : ((s.file .hashes).getD []).length ≤ 45 * entry.index + 3 := by
        rw [hfile, Option.getD_some, Table.text_length hhash]
        omega
      have hnext : 45 * entry.index + 3 ≤ ((next.file .hashes).getD []).length :=
        deleteEntry_past hentry (Entry.text_length hnumber) (Entry.nulFree_text hid) hlive hend
          harray hlength hnul
      have hgrows : ((next.file .hashes).getD []).length ≤ ((s'.file .hashes).getD []).length :=
        deleteLoop_hashes_length hok
      omega

theorem benign_of_length_le (hgrants : host.Grants)
    (hhash : ∀ index, (hash index).length = hashSize) (hnul : ∀ index, NulFree (hash index))
    (hfile : s.file .hashes = some (t.text hash))
    (hpath : s.rootdir.resolve fpath = .ok inode)
    (hahead : Ahead t (s.rootdir.data inode) locals.pointersFile left)
    (hids : ∀ entry ∈ left, entry.number ≠ 0) (hloaded : locals.Loaded) {fuel : Nat}
    (hfuel : left.length ≤ fuel) (hok : deleteLoop host fpath inode fuel s locals = .ok s')
    (hle : ((s'.file .hashes).getD []).length ≤ 45 * t.records.length) :
    Benign hash t locals.cursor left := by
  induction left generalizing s t locals fuel with
  | nil => trivial
  | cons entry left ih =>
      obtain ⟨fuel, rfl⟩ : ∃ n, fuel = n + 1 :=
        ⟨fuel - 1, by simp at hfuel; omega⟩
      obtain ⟨hnumber, rest, hunread⟩ := hahead.unread_eq
      have hid := hids entry List.mem_cons_self
      have hpasses : Passes hash t locals.cursor entry := by
        by_contra hfails
        have hlt := deleteLoop_breaks hhash hfile hnumber hid hfails hloaded hunread hok
        omega
      obtain ⟨next, locals', hround, hwalked, hstream, hcursor, hloaded'⟩ :=
        deleteLoop_passes hgrants hhash hnul hfile hpath hnumber hpasses hunread fuel
      rw [hround] at hok
      have hrest := ih hwalked.hashes_eq (by rwa [hwalked.resolve_eq])
        (by rw [hwalked.data_eq, hstream]; exact hahead.fread)
        (fun other hother => hids other (List.mem_cons_of_mem _ hother)) hloaded'
        (by simpa using hfuel) hok (by simpa using hle)
      rw [hcursor] at hrest
      exact ⟨hpasses, hrest⟩

theorem LeavesOthers.harmless (h : LeavesOthers host s fpath lines entries)
    (hgrants : host.Grants) (hlines : Numbered lines)
    (hfile : s.file .hashes = some (lines.map HashLine.bytes).flatten)
    (hpath : s.rootdir.resolve fpath = .ok inode)
    (hnumbers : ∀ entry ∈ entries, entry.number < 1000)
    (hdata : s.rootdir.data inode = (entries.map Entry.text).flatten)
    (hids : ∀ entry ∈ entries, entry.number ≠ 0) : Harmless lines entries := by
  obtain ⟨s', hashesfile, hrun, hhashes, hlength, -⟩ := h
  rw [← hlines.text_tableOf] at hfile
  rw [deleteBlocks_eq_loop hgrants hfile hpath] at hrun
  obtain ⟨hahead, hfuel⟩ := Ahead.start (t := tableOf lines) hnumbers
  rw [← hdata] at hahead hfuel
  have hloaded : DeleteLocals.Loaded ⟨.start, 0, none, none⟩ :=
    fun usage husage => absurd husage (by simp)
  exact benign_of_length_le hgrants (hashOf_length lines) hlines.nulFree_hashOf hfile
    hpath hahead (fun entry hentry => hids entry (List.mem_of_mem_take hentry)) hloaded hfuel hrun
    (by rw [hhashes, Option.getD_some, hlength, hlines.records_length])

/--
`delete_blocks` damages nothing but the records it is to release if each entry that names
no record finds a counter of 0; where no entry is 000, only if.
-/
theorem leavesOthers_of_harmless (hgrants : host.Grants) (hlines : Numbered lines)
    (hfile : s.file .hashes = some (lines.map HashLine.bytes).flatten)
    (hpath : s.rootdir.resolve fpath = .ok inode)
    (hnumbers : ∀ entry ∈ entries, entry.number < 1000)
    (hdata : s.rootdir.data inode = (entries.map Entry.text).flatten) :
    (Harmless lines entries → LeavesOthers host s fpath lines entries) ∧
      ((∀ entry ∈ entries, entry.number ≠ 0) →
        LeavesOthers host s fpath lines entries → Harmless lines entries) :=
  ⟨fun h => h.leavesOthers hgrants hlines hfile hpath hnumbers hdata,
    fun hids h => h.harmless hgrants hlines hfile hpath hnumbers hdata hids⟩

end

def twoRecords : Table :=
  ⟨[Record.new [97], Record.new [98]], by decide⟩

def holeRun : List Request :=
  [.mknod "b", .write "b" [97] 0, .mknod "a", .write "a" [98] 4069]

theorem leavesOthers_of_harmless_holeRun :
    ∃ s, run (serve (.granting sampleSha1)) freshMount holeRun = .ok s ∧
      LeavesOthers (.granting sampleSha1) s "a" (twoRecords.hashLines (.granting sampleSha1))
        [.hole, .id 2] := by
  have hrun : ∃ s, run (serve (.granting sampleSha1)) freshMount holeRun = .ok s ∧
      s.file .hashes = some (twoRecords.bytes (.granting sampleSha1)) ∧
      s.rootdir.resolve "a" = .ok 1 ∧
      s.rootdir.data 1 = ([.hole, .id 2].map Entry.text).flatten := by
    decide +kernel
  obtain ⟨s, hs, hfile, hpath, hdata⟩ := hrun
  rw [Table.bytes_eq] at hfile
  have hharmless : Harmless (twoRecords.hashLines (.granting sampleSha1)) [.hole, .id 2] := by
    decide +kernel
  exact ⟨s, hs, (leavesOthers_of_harmless (Host.granting_grants sampleSha1)
    (numbered_hashLines _ twoRecords) hfile hpath (by decide) hdata).1 hharmless⟩

def twoHolesRun : List Request :=
  [.mknod "b", .write "b" [97] 0, .mknod "a", .write "a" [98] 8138]

/-- The second hole takes `10` in record 001 for a counter and writes into the block of `b`. -/
theorem twoHolesRun_not_leavesOthers :
    ∃ s, run (serve (.granting sampleSha1)) freshMount twoHolesRun = .ok s ∧
      Numbered (twoRecords.hashLines (.granting sampleSha1)) ∧
      s.file .hashes = some
        ((twoRecords.hashLines (.granting sampleSha1)).map HashLine.bytes).flatten ∧
      s.rootdir.resolve "a" = .ok 1 ∧
      s.rootdir.data 1 = ([.hole, .hole, .id 2].map Entry.text).flatten ∧
      ¬ LeavesOthers (.granting sampleSha1) s "a"
        (twoRecords.hashLines (.granting sampleSha1)) [.hole, .hole, .id 2] := by
  have hrun : ∃ s, run (serve (.granting sampleSha1)) freshMount twoHolesRun = .ok s ∧
      s.file .hashes = some (twoRecords.bytes (.granting sampleSha1)) ∧
      s.rootdir.resolve "a" = .ok 1 ∧
      s.rootdir.data 1 = ([.hole, .hole, .id 2].map Entry.text).flatten ∧
      ∃ s', deleteBlocks (.granting sampleSha1) s "a" = .ok s' ∧
        (s'.file .hashes).map (readAt · (45 * 0) 45) ≠
          ((twoRecords.hashLines (.granting sampleSha1))[0]?).map HashLine.bytes := by
    decide +kernel
  obtain ⟨s, hs, hfile, hpath, hdata, s', hdelete, hchanged⟩ := hrun
  have hlines := numbered_hashLines (.granting sampleSha1) twoRecords
  refine ⟨s, hs, hlines, by rwa [← Table.bytes_eq], hpath, hdata, ?_⟩
  rintro ⟨final, hashesfile, hok, hhashes, -, hkept⟩
  obtain rfl := Except.ok.inj (hdelete.symm.trans hok)
  have hlt : 0 < (twoRecords.hashLines (.granting sampleSha1)).length := by decide
  have hline := List.getElem?_eq_getElem hlt
  have hid := hlines.id_eq 0 _ hline
  refine hchanged ?_
  rw [hhashes, hline, Option.map_some, Option.map_some,
    hkept 0 _ hline (by rw [hid]; decide)]

/-! ## Long files -/

/--
`delete_blocks` takes each counter down by the entries with its id, and removes the
blocks whose counter comes to 0.
-/
def ReleasesEach (host : Host) (s : BbState) (fpath : Path) (lines : List HashLine)
    (indices : List Nat) : Prop :=
  ∃ s', deleteBlocks host s fpath = .ok s' ∧
    ∀ index line, lines[index]? = some line →
      s'.counterField (index + 1) = formatInt 2 (atoi line.counter - indices.count index) ∧
      s'.file (blockOf index) =
        if 0 < atoi line.counter ∧ atoi line.counter = indices.count index then none
        else s.file (blockOf index)

theorem Table.counterField_text {hash : Nat → Bytes} {s : BbState} {t : Table} {index : Nat}
    (hhash : ∀ index, (hash index).length = hashSize)
    (hfile : s.file .hashes = some (t.text hash)) (hindex : index < t.records.length) :
    s.counterField (index + 1) = padDecimal 2 (t.count index) := by
  have hrecord := List.getElem?_eq_getElem hindex
  rw [BbState.counterField, BbState.field, hfile, Option.getD_some, Table.count_eq hrecord]
  exact Table.readAt_text_counter hhash hrecord

section

variable {host : Host} {s : BbState} {fpath : Path} {inode : Nat} {lines : List HashLine}
  {indices : List Nat}

theorem releasesEach_iff_reached (hgrants : host.Grants) (hlines : Numbered lines)
    (hfile : s.file .hashes = some (lines.map HashLine.bytes).flatten)
    (hpath : s.rootdir.resolve fpath = .ok inode)
    (hvalid : ∀ index ∈ indices, index < lines.length)
    (hdata : s.rootdir.data inode = pointerBytes indices)
    (hcount : ∀ index, indices.count index ≤ (tableOf lines).count index) :
    ReleasesEach host s fpath lines indices ↔
      Table.reached indices.length (tableOf lines) 0 indices = indices.length := by
  have hhash := hashOf_length lines
  rw [← hlines.text_tableOf] at hfile
  obtain ⟨s', hrun, hwalked⟩ := deleteBlocks_valid hgrants hhash hlines.nulFree_hashOf hfile hpath
    (fun index hindex => (hvalid index hindex).trans_eq hlines.records_length.symm) hdata
  have hle := Table.reached_le (t := tableOf lines) indices.length 0 indices
  generalize Table.reached indices.length (tableOf lines) 0 indices = seen at hwalked hle ⊢
  have hsplit : ∀ index, indices.count index =
      (indices.take seen).count index + (indices.drop seen).count index := by
    intro index
    rw [← List.count_append, List.take_append_drop]
  have hvalue : ∀ {index line}, lines[index]? = some line →
      index < (tableOf lines).records.length ∧
        atoi line.counter = (tableOf lines).count index := by
    intro index line hline
    rw [hlines.records_length, hlines.counter_eq hline, atoi_padDecimal]
    exact ⟨(List.getElem?_eq_some_iff.mp hline).1, rfl⟩
  have hcounter : ∀ index < (tableOf lines).records.length, s'.counterField (index + 1) =
      padDecimal 2 ((tableOf lines).count index - (indices.take seen).count index) := by
    intro index hindex
    rw [Table.counterField_text hhash hwalked.hashes_eq (by rwa [Table.releaseAll_length]),
      Table.count_releaseAll]
  constructor
  · rintro ⟨final, hok, hreleases⟩
    obtain rfl := Except.ok.inj (hrun.symm.trans hok)
    have hrest : indices.drop seen = [] := by
      -- an entry that the walk has not seen keeps its reference
      refine eq_nil_of_count fun index => ?_
      rcases Nat.lt_or_ge index lines.length with hlt | hge
      · have hline := List.getElem?_eq_getElem hlt
        obtain ⟨hindex, hvalue⟩ := hvalue hline
        have hreleased := (hreleases index _ hline).1
        have henough := hcount index
        have hparts := hsplit index
        rw [hcounter index hindex, hvalue, ← Int.ofNat_sub henough, formatInt_natCast] at hreleased
        have hsame := padDecimal_injective 2 hreleased
        omega
      · refine List.count_eq_zero.mpr fun hmem => ?_
        have hlt := hvalid index (List.mem_of_mem_drop hmem)
        omega
    have hend := List.drop_eq_nil_iff.mp hrest
    omega
  · rintro rfl
    rw [List.take_length] at hwalked hcounter
    refine ⟨s', hrun, fun index line hline => ?_⟩
    obtain ⟨hindex, hvalue⟩ := hvalue hline
    have henough := hcount index
    rw [hcounter index hindex, hwalked.block_eq index hindex, hvalue, ← Int.ofNat_sub henough,
      formatInt_natCast]
    refine ⟨rfl, ?_⟩
    split_ifs <;> first | rfl | omega

/--
`delete_blocks` releases every reference if and only if no counter comes to 0 before
the last 4096 bytes of the pointers file.
-/
theorem releasesEach_iff_walkIsWhole (hgrants : host.Grants) (hlines : Numbered lines)
    (hfile : s.file .hashes = some (lines.map HashLine.bytes).flatten)
    (hpath : s.rootdir.resolve fpath = .ok inode)
    (hvalid : ∀ index ∈ indices, index < lines.length)
    (hdata : s.rootdir.data inode = pointerBytes indices)
    (hcount : ∀ index line, lines[index]? = some line →
      (indices.count index : Int) ≤ atoi line.counter) :
    ReleasesEach host s fpath lines indices ↔ s.WalkIsWhole inode := by
  have hvalid' : (tableOf lines).Valid indices :=
    fun index hindex => (hvalid index hindex).trans_eq hlines.records_length.symm
  have hcount' := hlines.count_le hvalid hcount
  rw [releasesEach_iff_reached hgrants hlines hfile hpath hvalid hdata hcount',
    s.walkIsWhole_iff_reached hvalid' hdata (fun index hindex => ?_) hcount']
  rw [← hlines.text_tableOf] at hfile
  exact Table.counterField_text (hashOf_length lines) hfile (hvalid' index hindex)

end

def threeEntries : Table :=
  ⟨[(Record.new [97]).share, Record.new [98]], by decide⟩

theorem releasesEach_iff_walkIsWhole_threeEntries :
    ReleasesEach (.granting sampleSha1)
      (storeOf (.granting sampleSha1) threeEntries (pointerBytes [0, 1, 0])) "a"
      (threeEntries.hashLines (.granting sampleSha1)) [0, 1, 0] := by
  have hwhole : (storeOf (.granting sampleSha1) threeEntries
      (pointerBytes [0, 1, 0])).WalkIsWhole 0 := by
    unfold BbState.WalkIsWhole
    decide +kernel
  exact (releasesEach_iff_walkIsWhole (Host.granting_grants sampleSha1)
    (numbered_hashLines _ threeEntries) (file_storeOf _ threeEntries _)
    (resolve_storeOf _ threeEntries _) (by decide) (data_storeOf _ threeEntries _)
    (count_le_counter (by decide))).mpr hwhole

def longTable : Table :=
  ⟨Record.new [97] :: List.replicate 14 { Record.new [98] with
      count := 99
      count_le := le_rfl },
    by decide⟩

def longIndices : List Nat :=
  0 :: (List.range 14).flatMap fun index => List.replicate 99 (index + 1)

def longStore : BbState :=
  storeOf (.granting sampleSha1) longTable (pointerBytes longIndices)

/-- The pointers file is emptied at once, and only 1365 entries are in the buffer. -/
theorem longStore_not_releasesEach :
    Numbered (longTable.hashLines (.granting sampleSha1)) ∧
      longStore.file .hashes =
        some ((longTable.hashLines (.granting sampleSha1)).map HashLine.bytes).flatten ∧
      longStore.rootdir.resolve "a" = .ok 0 ∧
      (∀ index ∈ longIndices, index < (longTable.hashLines (.granting sampleSha1)).length) ∧
      longStore.rootdir.data 0 = pointerBytes longIndices ∧
      (∀ index line, (longTable.hashLines (.granting sampleSha1))[index]? = some line →
        (longIndices.count index : Int) ≤ atoi line.counter) ∧
      ¬ ReleasesEach (.granting sampleSha1) longStore "a"
        (longTable.hashLines (.granting sampleSha1)) longIndices := by
  have hlines := numbered_hashLines (.granting sampleSha1) longTable
  have hlength : (longTable.hashLines (.granting sampleSha1)).length = 15 := by decide
  have hvalid : ∀ index ∈ longIndices,
      index < (longTable.hashLines (.granting sampleSha1)).length := by
    rw [hlength]
    decide +kernel
  have hcount : ∀ index line, (longTable.hashLines (.granting sampleSha1))[index]? = some line →
      (longIndices.count index : Int) ≤ atoi line.counter :=
    count_le_counter (by decide +kernel)
  have hone : (tableOf (longTable.hashLines (.granting sampleSha1))).count 0 = 1 := by
    decide +kernel
  have hfile := file_storeOf (.granting sampleSha1) longTable (pointerBytes longIndices)
  have hpath := resolve_storeOf (.granting sampleSha1) longTable (pointerBytes longIndices)
  have hdata := data_storeOf (.granting sampleSha1) longTable (pointerBytes longIndices)
  refine ⟨hlines, hfile, hpath, hvalid, hdata, hcount, fun hreleases => ?_⟩
  have hreached := (releasesEach_iff_reached (Host.granting_grants sampleSha1) hlines hfile hpath
    hvalid hdata (hlines.count_le hvalid hcount)).mp hreleases
  have hrest : longIndices = 0 :: longIndices.tail := rfl
  have htail : longIndices.tail.length = 1386 := by decide +kernel
  have htotal : longIndices.length = 1387 := by rw [hrest, List.length_cons, htail]
  rw [htotal, hrest, Table.reached, if_pos hone, htail] at hreached
  exact absurd hreached (by decide)

end Ece318.Bbfs
