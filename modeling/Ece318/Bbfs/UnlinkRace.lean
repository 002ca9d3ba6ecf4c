import Ece318.Bbfs.FullBlocks
import Ece318.Bbfs.UnlinkStops

/-!
# A write into a removal

`bb_unlink` reads a counter, empties the file and unlinks the block if that was the last
reference, and rewrites the line from what it has read.  A `bb_write` of another thread
that falls in between counts its reference in a line that is about to be rewritten.  At
the end its slot is there, and everything else is as if it had not been written.
-/

namespace Ece318.Bbfs

open Ece318.Foundation

def UnlinkPhase.held : UnlinkPhase → Option Bytes
  | .emptying _ id _ _ | .dropping _ id _ _ | .counting _ id _ _ => some id
  | .waiting | .reading _ _ | .closing | .answered _ => none

structure Beside (fh : Nat) (pointers : Bytes) (s s' : BbState) : Prop where
  file_eq : ∀ name, s'.file name = s.file name
  rootdir_eq : s'.rootdir = s.rootdir.write fh pointers

/-- The line of the index counts one more in `s'`, and the removal is about to rewrite it. -/
structure Overcounts (fh : Nat) (pointers : Bytes) (index count : Nat) (hash : Bytes)
    (s s' : BbState) (id usage : Bytes) (locals : DeleteLocals) : Prop where
  file_eq : ∀ name, name ≠ .hashes → s'.file name = s.file name
  rootdir_eq : s'.rootdir = s.rootdir.write fh pointers
  hashes_eq : ∃ hashesfile, s.file .hashes = some hashesfile ∧
    readAt hashesfile (45 * index + 5) hashSize = hash ∧
    s'.file .hashes = some (writeAt hashesfile
      (padDecimal 3 (index + 1) ++ padDecimal 2 (count + 1) ++ hash) (45 * index))
  id_eq : id = padDecimal 3 (index + 1)
  usage_eq : usage = padDecimal 2 count
  position_eq : locals.position = 45 * index + 5
  index_lt : index < 999
  count_pos : 0 < count
  count_lt : count < 99
  hash_length : hash.length = hashSize
  hash_nulFree : NulFree hash

section

variable {host : Host} {fpath : Path} {fh inode index count : Nat} {pointers hash : Bytes}
  {s s' : BbState} {id usage : Bytes} {locals : DeleteLocals} {phase : UnlinkPhase}
  {r : UnlinkRun}

namespace Beside

theorem data_eq (h : Beside fh pointers s s') (hne : inode ≠ fh) :
    s'.rootdir.data inode = s.rootdir.data inode := by
  rw [h.rootdir_eq, FileSystem.data_write, Function.update_of_ne hne]

theorem resolve_eq (h : Beside fh pointers s s') (path : Path) :
    s'.rootdir.resolve path = s.rootdir.resolve path := by
  rw [h.rootdir_eq, FileSystem.resolve_write]

end Beside

theorem write_comm {fs : FileSystem Path Bytes} (hne : inode ≠ fh) (content : Bytes) :
    (fs.write fh pointers).write inode content = (fs.write inode content).write fh pointers := by
  simp only [FileSystem.write, Function.update_comm hne]

theorem Beside.setPointers (h : Beside fh pointers s s') (hne : inode ≠ fh) :
    Beside fh pointers (s.setPointers inode []) (s'.setPointers inode []) where
  file_eq := h.file_eq
  rootdir_eq := by
    rw [BbState.rootdir_setPointers, h.rootdir_eq, write_comm hne]
    rfl

/-- The last call of `bb_unlink`. -/
def unlinkName (mayUnlink : Bool) (fpath : Path) (s : BbState) : Int × BbState :=
  logSyscall s (if mayUnlink then s.rootdir.unlink fpath else .error .accessDenied)

theorem Beside.unlink (h : Beside fh pointers s s') (mayUnlink : Bool) (fpath : Path) :
    (unlinkName mayUnlink fpath s').1 = (unlinkName mayUnlink fpath s).1 ∧
      Beside fh pointers (unlinkName mayUnlink fpath s).2 (unlinkName mayUnlink fpath s').2 := by
  cases mayUnlink with
  | false => exact ⟨rfl, h⟩
  | true =>
      simp only [unlinkName, if_true, FileSystem.unlink, h.rootdir_eq, FileSystem.lookup_write]
      cases s.rootdir.lookup fpath with
      | none => exact ⟨rfl, h⟩
      | some node => exact ⟨rfl, h.file_eq, rfl⟩

theorem Overcounts.setPointers (h : Overcounts fh pointers index count hash s s' id usage locals)
    (hne : inode ≠ fh) :
    Overcounts fh pointers index count hash (s.setPointers inode []) (s'.setPointers inode [])
      id usage locals :=
  { h with
    rootdir_eq := by
      rw [BbState.rootdir_setPointers, h.rootdir_eq, write_comm hne]
      rfl }

theorem Overcounts.removeFile (h : Overcounts fh pointers index count hash s s' id usage locals)
    (block : Bytes) :
    Overcounts fh pointers index count hash (s.removeFile (.block block))
      (s'.removeFile (.block block)) id usage locals :=
  { h with
    file_eq := fun name hname => by
      rw [BbState.file_removeFile, BbState.file_removeFile, h.file_eq name hname]
    hashes_eq := by simpa using h.hashes_eq }

theorem countDown_line {hashesfile : Bytes} (hfile : s.file .hashes = some hashesfile)
    (hread : readAt hashesfile (45 * index + 5) hashSize = hash)
    (hlength : hash.length = hashSize) (hnul : NulFree hash) (hcount : 0 < count)
    (hid : id = padDecimal 3 (index + 1)) (husage : usage = padDecimal 2 count)
    (hposition : locals.position = 45 * index + 5) (hwidth : index < 999) (hlimit : count ≤ 99) :
    countDown s id usage locals =
      .ok (s.setFile .hashes (writeAt hashesfile
          (padDecimal 3 (index + 1) ++ padDecimal 2 (count - 1) ++ hash) (45 * index)),
        ⟨locals.pointersFile, 45 * index + 45, locals.usage, some hash⟩) := by
  have hseek : fseek (45 * index + 5 + hashSize)
      ((45 * index + 5 + hashSize : Nat) - lineTotalLength : Int) = 45 * index := by
    apply fseek_eq
    push_cast
    ring
  have hline : cString (padDecimal 3 (index + 1)) ++
        formatInt 2 (atoi (padDecimal 2 count) - 1) ++ cString hash =
      padDecimal 3 (index + 1) ++ padDecimal 2 (count - 1) ++ hash := by
    rw [cString_padDecimal, atoi_padDecimal, hnul.cString_eq,
      show (count : Int) - 1 = (count - 1 : Nat) by omega, formatInt_natCast]
  have hwritten : (padDecimal 3 (index + 1) ++ padDecimal 2 (count - 1) ++ hash).length = 45 := by
    rw [List.length_append, List.length_append, hlength, idText_length hwidth,
      padDecimal_length (by omega) (by omega)]
    rfl
  subst hid husage
  simp only [countDown, hfile, Option.getD_some, hposition, hread, fillArray_full hlength, hlength,
    hseek, hline, hwritten]

theorem Beside.setFile (h : Beside fh pointers s s') (name : StorageFile) (content : Bytes) :
    Beside fh pointers (s.setFile name content) (s'.setFile name content) where
  file_eq := fun other => by
    rw [BbState.file_setFile, BbState.file_setFile, h.file_eq other]
  rootdir_eq := h.rootdir_eq

theorem Beside.countDown (h : Beside fh pointers s s') {r : BbState × DeleteLocals}
    (hcount : Bbfs.countDown s id usage locals = .ok r) :
    ∃ s₁, Bbfs.countDown s' id usage locals = .ok (s₁, r.2) ∧ Beside fh pointers r.1 s₁ := by
  simp only [Bbfs.countDown, h.file_eq] at hcount ⊢
  split at hcount
  · contradiction
  · obtain rfl := Except.ok.inj hcount
    exact ⟨_, rfl, h.setFile _ _⟩

/-- The line is rewritten from the counter that was read: what came in between is gone. -/
theorem Overcounts.countDown (h : Overcounts fh pointers index count hash s s' id usage locals)
    {r : BbState × DeleteLocals} (hcount : Bbfs.countDown s id usage locals = .ok r) :
    ∃ s₁, Bbfs.countDown s' id usage locals = .ok (s₁, r.2) ∧ Beside fh pointers r.1 s₁ := by
  obtain ⟨hashesfile, hfile, hread, hfile'⟩ := h.hashes_eq
  have hlt := h.count_lt
  have hfront : (padDecimal 3 (index + 1) ++ padDecimal 2 (count + 1)).length = 5 := by
    rw [List.length_append, idText_length h.index_lt, padDecimal_length (by omega) (by omega)]
  have hread' : readAt (writeAt hashesfile
      (padDecimal 3 (index + 1) ++ padDecimal 2 (count + 1) ++ hash) (45 * index))
        (45 * index + 5) hashSize = hash := by
    rw [readAt_writeAt_within _ (by rw [List.length_append, hfront, h.hash_length]), readAt,
      List.drop_left' hfront, List.take_of_length_le h.hash_length.le]
  have hwidths : (padDecimal 3 (index + 1) ++ padDecimal 2 (count - 1) ++ hash).length =
      (padDecimal 3 (index + 1) ++ padDecimal 2 (count + 1) ++ hash).length := by
    rw [List.length_append, List.length_append, List.length_append, List.length_append,
      padDecimal_length (n := count - 1) (by omega) (by omega),
      padDecimal_length (n := count + 1) (by omega) (by omega)]
  have hline := countDown_line hfile hread h.hash_length h.hash_nulFree h.count_pos h.id_eq
    h.usage_eq h.position_eq h.index_lt hlt.le
  have hline' := countDown_line hfile' hread' h.hash_length h.hash_nulFree h.count_pos h.id_eq
    h.usage_eq h.position_eq h.index_lt hlt.le
  obtain rfl := Except.ok.inj (hcount.symm.trans hline)
  refine ⟨_, hline', fun name => ?_, h.rootdir_eq⟩
  rw [BbState.file_setFile, BbState.file_setFile, writeAt_writeAt hashesfile hwidths]
  split
  · rfl
  · exact h.file_eq name ‹_›

variable (fpath fh index count pointers hash) in
/-- The removal in `s'` keeps pace with the removal in `s`. -/
def Alongside (s s' : BbState) : UnlinkPhase → Prop
  | .waiting => False
  | .reading opened _ => opened ≠ fh ∧ s.rootdir.resolve fpath = .ok opened ∧
      Beside fh pointers s s'
  | .emptying opened id usage locals | .dropping opened id usage locals
  | .counting opened id usage locals => opened ≠ fh ∧ s.rootdir.resolve fpath = .ok opened ∧
      (Beside fh pointers s s' ∨ Overcounts fh pointers index count hash s s' id usage locals)
  | .closing | .answered _ => Beside fh pointers s s'

variable (host fpath s) in
theorem moveUnlink_closing : moveUnlink host fpath ⟨s, .closing⟩ () =
    .ok ⟨(unlinkName host.mayUnlink fpath s).2, .answered (unlinkName host.mayUnlink fpath s).1⟩ :=
  rfl

theorem alongside_move (h : Alongside fpath fh index count pointers hash s s' phase)
    (hmove : moveUnlink host fpath ⟨s, phase⟩ () = .ok r) :
    ∃ s₁, moveUnlink host fpath ⟨s', phase⟩ () = .ok ⟨s₁, r.phase⟩ ∧
      Alongside fpath fh index count pointers hash r.store s₁ r.phase := by
  cases phase with
  | waiting => exact h.elim
  | reading opened locals =>
      obtain ⟨hne, hpath, hbeside⟩ := h
      simp only [moveUnlink, hbeside.data_eq hne, hbeside.file_eq] at hmove ⊢
      split at hmove
      · obtain rfl := Except.ok.inj hmove
        rw [if_pos ‹_›]
        exact ⟨s', rfl, hbeside⟩
      · rw [if_neg ‹_›]
        split at hmove
        · contradiction
        · obtain rfl := Except.ok.inj hmove
          refine ⟨s', rfl, ?_⟩
          dsimp only
          split_ifs
          · exact ⟨hne, hpath, hbeside⟩
          · exact ⟨hne, hpath, .inl hbeside⟩
          · exact ⟨hne, hpath, .inl hbeside⟩
  | emptying opened id usage locals =>
      obtain ⟨hne, hpath, hstores⟩ := h
      have hresolve : s'.rootdir.resolve fpath = s.rootdir.resolve fpath := by
        rcases hstores with hbeside | hover
        · exact hbeside.resolve_eq fpath
        · rw [hover.rootdir_eq, FileSystem.resolve_write]
      cases hopen : openPath host s .removePointers fpath with
      | none => simp [moveUnlink, hopen] at hmove
      | some emptied =>
          obtain rfl := Except.ok.inj ((resolve_of_openPath hopen).symm.trans hpath)
          have hopen' : openPath host s' .removePointers fpath = some emptied := by
            rw [openPath, hresolve, ← openPath, hopen]
          simp only [moveUnlink, hopen] at hmove
          obtain rfl := Except.ok.inj hmove
          refine ⟨s'.setPointers emptied [], by simp only [moveUnlink, hopen'], hne, ?_,
            hstores.imp (Beside.setPointers · hne) (Overcounts.setPointers · hne)⟩
          rwa [BbState.rootdir_setPointers, FileSystem.resolve_write]
  | dropping opened id usage locals =>
      obtain ⟨hne, hpath, hstores⟩ := h
      obtain rfl := Except.ok.inj hmove
      refine ⟨_, rfl, hne, hpath, hstores.imp (fun hbeside => ⟨fun name => ?_, hbeside.rootdir_eq⟩)
        (Overcounts.removeFile · _)⟩
      rw [BbState.file_removeFile, BbState.file_removeFile, hbeside.file_eq name]
  | counting opened id usage locals =>
      obtain ⟨hne, hpath, hstores⟩ := h
      simp only [moveUnlink, map_eq_ok] at hmove
      obtain ⟨counted, hcount, rfl⟩ := hmove
      obtain ⟨s₁, hcount', hbeside⟩ : ∃ s₁, countDown s' id usage locals = .ok (s₁, counted.2) ∧
          Beside fh pointers counted.1 s₁ := by
        rcases hstores with hbeside | hover
        · exact hbeside.countDown hcount
        · exact hover.countDown hcount
      obtain ⟨⟨hashesfile, hcounted⟩, -⟩ := countDown_cases hcount
      refine ⟨s₁, by simp only [moveUnlink, hcount']; rfl, hne, ?_, hbeside⟩
      rw [hcounted]
      exact hpath
  | closing =>
      obtain ⟨hstat, hbeside⟩ := Beside.unlink h host.mayUnlink fpath
      rw [moveUnlink_closing] at hmove
      obtain rfl := Except.ok.inj hmove
      exact ⟨_, by rw [moveUnlink_closing, hstat], hbeside⟩
  | answered retstat =>
      obtain rfl := Except.ok.inj hmove
      exact ⟨s', rfl, h⟩

theorem alongside_run (h : Alongside fpath fh index count pointers hash s s' phase) (steps : Nat)
    (hrun : run (moveUnlink host fpath) ⟨s, phase⟩ (List.replicate steps ()) = .ok r) :
    ∃ s₁, run (moveUnlink host fpath) ⟨s', phase⟩ (List.replicate steps ()) =
        .ok ⟨s₁, r.phase⟩ ∧
      Alongside fpath fh index count pointers hash r.store s₁ r.phase := by
  induction steps generalizing s s' phase with
  | zero =>
      obtain rfl := Except.ok.inj hrun
      exact ⟨s', rfl, h⟩
  | succ steps ih =>
      rw [List.replicate_succ] at hrun ⊢
      cases hmove : moveUnlink host fpath ⟨s, phase⟩ () with
      | error fault => simp [run, hmove] at hrun
      | ok next =>
          rw [run_cons _ hmove] at hrun
          obtain ⟨s₁, hmove', hnext⟩ := alongside_move h hmove
          rw [run_cons _ hmove']
          exact ih hnext hrun

theorem Comes.after {r₀ final : UnlinkRun} (h : Comes host fpath r₀ (.ok final))
    (hfinal : moveUnlink host fpath final () = .ok final) {steps : Nat}
    (hrun : run (moveUnlink host fpath) r₀ (List.replicate steps ()) = .ok r) :
    Comes host fpath r (.ok final) := by
  obtain ⟨total, htotal⟩ := h
  rcases Nat.le_total steps total with hle | hle
  · obtain ⟨more, rfl⟩ := Nat.exists_eq_add_of_le hle
    rw [List.replicate_add, run_append _ hrun] at htotal
    exact ⟨more, htotal⟩
  · obtain ⟨more, rfl⟩ := Nat.exists_eq_add_of_le hle
    rw [List.replicate_add, run_append _ htotal, run_replicate hfinal] at hrun
    obtain rfl := Except.ok.inj hrun
    exact .here

/-! ## The write -/

/-- The store of a removal that holds the counter of an index. -/
structure Holding (host : Host) (m : Ledger) (inode : Nat) (s₀ : BbState) (t : Table)
    (index : Nat) (id : Bytes) (s : BbState) : Prop extends Seen m inode s₀ s where
  hashes_eq : s.file .hashes = some (t.bytes host)
  lastId_eq : s.lastId = t.records.length
  length_eq : t.records.length = m.table.records.length
  data_eq : ∀ index, t.data index = m.table.data index
  index_lt : index < t.records.length
  live : 0 < t.count index
  id_eq : id = padDecimal 3 (index + 1)

variable {m : Ledger} {s₀ : BbState} {t : Table} {left : List Nat} {other : Path} {buf : Bytes}
  {offset : Nat}

theorem AtEntry.holding (h : AtEntry host m inode s₀ t index left s id usage locals) :
    Holding host m inode s₀ t index id s where
  toSeen := h.unlinking.toSeen
  hashes_eq := by
    rw [h.unlinking.hashes, Table.bytes_eq_text]
    simp only [h.unlinking.data_eq]
  lastId_eq := h.unlinking.lastId_eq
  length_eq := h.unlinking.length_eq
  data_eq := h.unlinking.data_eq
  index_lt := h.unlinking.valid index List.mem_cons_self
  live := h.live
  id_eq := h.id_eq

namespace Holding

theorem congr (h : Holding host m inode s₀ t index id s) (hseen : Seen m inode s₀ s')
    (hhashes : s'.file .hashes = s.file .hashes) (hlast : s'.lastId = s.lastId) :
    Holding host m inode s₀ t index id s' :=
  { h with
    toSeen := hseen
    hashes_eq := hhashes.trans h.hashes_eq
    lastId_eq := hlast.trans h.lastId_eq }

theorem write (h : Holding host m inode s₀ t index id s) (hgrants : host.Grants)
    (hpath : s.rootdir.resolve other = .ok fh) (horderly : Orderly host s (.write other buf offset))
    (hrecorded : recordedId host s buf = some (atoi id)) :
    generateHash host buf = generateHash host (t.data index) ∧ t.count index < 99 ∧
      ∃ s', serve host s (.write other buf offset) = .ok s' ∧
        (∀ name, name ≠ .hashes → s'.file name = s.file name) ∧
        s'.file .hashes = some (writeAt (t.bytes host) (padDecimal 3 (index + 1) ++
          padDecimal 2 (t.count index + 1) ++ generateHash host (t.data index)) (45 * index)) ∧
        s'.rootdir = s.rootdir.write fh (writeAt (s.rootdir.data fh) (padDecimal 3 (index + 1))
          (offset / bbfsMaxBlockSize * idLength)) := by
  have hrecord := List.getElem?_eq_getElem h.index_lt
  have hcompare : (compareHashes host s (generateHash host buf)).1 =
      ((t.store host buf).1 : Int) + 1 := by
    simp only [compareHashes, hgrants.fopen, if_true, h.hashes_eq, Option.getD_some, h.lastId_eq,
      t.compareLoop_bytes host]
  have hfound := hrecorded
  rw [recordedId_eq (hgrants.fopen _), hcompare, h.lastId_eq, h.id_eq, atoi_padDecimal] at hfound
  split at hfound
  case isFalse => cases hfound
  case isTrue hle =>
    have hstore : (t.store host buf).1 = index := by
      have hid := Option.some.inj hfound
      push_cast at hid
      omega
    cases hfind : t.find host buf with
    | none =>
        rw [t.store_of_find_none host hfind] at hle
        simp only at hle
        omega
    | some found =>
        rw [t.store_of_find_some host hfind] at hstore
        obtain rfl : found = index := hstore
        obtain ⟨record, hrecord', -, hsame⟩ := t.find_eq_some host hfind
        obtain rfl := Option.some.inj (hrecord'.symm.trans hrecord)
        simp only [Orderly, hpath] at horderly
        obtain ⟨hsize, hlimits, -⟩ := horderly
        have hcounter : s.counterField (found + 1) = padDecimal 2 (t.count found) := by
          rw [BbState.counterField, BbState.field, h.hashes_eq, Option.getD_some,
            Table.count_eq hrecord]
          exact Table.readAt_counter host hrecord
        have hlimit : t.count found < 99 := by
          rw [t.store_of_find_some host hfind] at hcompare hle
          rw [WithinLimits, hcompare, h.lastId_eq, if_pos hle,
            show ((found : Int) + 1).toNat = found + 1 by omega, hcounter,
            atoi_padDecimal] at hlimits
          omega
        have hwrite := writeBlocks_recorded hgrants hsize hrecorded
        rw [h.id_eq, atoi_padDecimal, h.hashes_eq, Option.getD_some] at hwrite
        push_cast at hwrite
        rw [Stores.writeHash_old (by simp) (hgrants.fopen _) hrecord
          (by rw [BbState.lastId_setFile, h.lastId_eq]; exact h.index_lt)] at hwrite
        refine ⟨?_, hlimit, _, serve_write_eq hpath hwrite offset, ?_, ?_, ?_⟩
        · rw [Table.data_eq hrecord, hsame]
        · intro name hname
          simp [hname]
        · rw [Table.data_eq hrecord, hsame, Table.count_eq hrecord]
          simp
        · have hid : formatInt 3 ((found : Int) + 1) = padDecimal 3 (found + 1) := rfl
          simp only [hid]
          rfl

theorem overcounts (h : Holding host m inode s₀ t index id s) (hlimit : t.count index < 99)
    (husage : usage = padDecimal 2 (t.count index)) (hposition : locals.position = 45 * index + 5)
    (hfile : ∀ name, name ≠ .hashes → s'.file name = s.file name)
    (hhashes : s'.file .hashes = some (writeAt (t.bytes host) (padDecimal 3 (index + 1) ++
      padDecimal 2 (t.count index + 1) ++ generateHash host (t.data index)) (45 * index)))
    (hrootdir : s'.rootdir = s.rootdir.write fh pointers) :
    Overcounts fh pointers index (t.count index) (generateHash host (t.data index)) s s' id usage
      locals where
  file_eq := hfile
  rootdir_eq := hrootdir
  hashes_eq := by
    have hrecord := List.getElem?_eq_getElem h.index_lt
    refine ⟨t.bytes host, h.hashes_eq, ?_, hhashes⟩
    rw [Table.data_eq hrecord]
    exact Table.readAt_hash host hrecord
  id_eq := h.id_eq
  usage_eq := husage
  position_eq := hposition
  index_lt := h.index_lt.trans_le t.length_le
  count_pos := h.live
  count_lt := hlimit
  hash_length := generateHash_length host _
  hash_nulFree := nulFree_generateHash host _

end Holding

theorem Removing.holding (h : Removing host m inode s₀ fpath s phase)
    (hpath : s₀.rootdir.resolve fpath = .ok inode) (hheld : phase.held = some id) :
    ∃ t index, Holding host m inode s₀ t index id s ∧ ∀ fh pointers s', inode ≠ fh →
      t.count index < 99 → (∀ name, name ≠ .hashes → s'.file name = s.file name) →
      s'.file .hashes = some (writeAt (t.bytes host) (padDecimal 3 (index + 1) ++
        padDecimal 2 (t.count index + 1) ++ generateHash host (t.data index)) (45 * index)) →
      s'.rootdir = s.rootdir.write fh pointers →
        Alongside fpath fh index (t.count index) pointers (generateHash host (t.data index)) s s'
          phase := by
  cases phase with
  | waiting => cases hheld
  | reading opened locals => cases hheld
  | emptying opened id' usage locals =>
      obtain rfl := Option.some.inj hheld
      obtain ⟨rfl, t, index, left, hentry, -⟩ := h
      refine ⟨t, index, hentry.holding, fun fh pointers s' hne hlimit hfile hhashes hrootdir =>
        ⟨hne, hentry.unlinking.resolve hpath, .inr ?_⟩⟩
      exact hentry.holding.overcounts hlimit hentry.usage_eq hentry.position_eq hfile hhashes
        hrootdir
  | dropping opened id' usage locals =>
      obtain rfl := Option.some.inj hheld
      obtain ⟨rfl, t, index, left, before, hentry, -, rfl⟩ := h
      have hholding := hentry.holding.congr hentry.unlinking.empty rfl rfl
      refine ⟨t, index, hholding, fun fh pointers s' hne hlimit hfile hhashes hrootdir =>
        ⟨hne, (hholding.resolve_eq fpath).trans hpath, .inr ?_⟩⟩
      exact hholding.overcounts hlimit hentry.usage_eq hentry.position_eq hfile hhashes hrootdir
  | counting opened id' usage locals =>
      obtain rfl := Option.some.inj hheld
      obtain ⟨rfl, t, index, left, before, hentry, rfl⟩ := h
      have hholding : Holding host m opened s₀ t index id' (dropped t opened index before) := by
        rw [dropped]
        split
        · exact hentry.holding.congr (hentry.unlinking.drop (hentry.unlinking.onlyOwn ‹_›))
            (by simp [blockOf]) rfl
        · exact hentry.holding
      refine ⟨t, index, hholding, fun fh pointers s' hne hlimit hfile hhashes hrootdir =>
        ⟨hne, (hholding.resolve_eq fpath).trans hpath, .inr ?_⟩⟩
      exact hholding.overcounts hlimit hentry.usage_eq hentry.position_eq hfile hhashes hrootdir
  | closing => cases hheld
  | answered retstat => cases hheld

/-! ## What is read in the end -/

section

variable {contents : Set Bytes} {files : PathMap} {slot : Nat}

theorem Beside.readFile_iff
    (h : Beside fh (writeAt (s.rootdir.data fh) (padDecimal 3 (index + 1)) (slot * idLength)) s s')
    (hgrants : host.Grants) (hs : Represents host s m) (hm : Reflects contents m files)
    (hpath : s.rootdir.resolve other = .ok fh)
    (hslot : slot * idLength ≤ (s.rootdir.data fh).length)
    (hindex : index < m.table.records.length) :
    readFile host s' other = .ok ((files other).map fun blocks =>
      (putSlot blocks slot (m.table.data index)).flatten) ↔ s.file (blockOf index) ≠ none := by
  have hresolve := (h.resolve_eq other).trans hpath
  have hledger := (hs.resolve_eq other).symm.trans hpath
  have hlinked := Ledger.linked_of_resolve hledger
  have hfile : files other = some ((m.rootdir.data fh).map m.table.data) := by
    rw [hm.files_eq, Ledger.lookup_of_resolve hm.noLinks hledger]
    rfl
  have hle : slot ≤ (m.rootdir.data fh).length := by
    rw [hs.data_length, idLength] at hslot
    omega
  have hvalid : m.table.Valid (putSlot (m.rootdir.data fh) slot index) := by
    intro found hfound
    rcases mem_putSlot hfound with hold | rfl
    · exact hs.valid fh found hold
    · exact hindex
  have hpointers := hs.writeAt_pointers hle (hindex.trans_le m.table.length_le)
  have hentries : entries idLength (s'.rootdir.data fh) =
      (putSlot (m.rootdir.data fh) slot index).map fun index => padDecimal 3 (index + 1) := by
    rw [h.rootdir_eq, FileSystem.data_write, Function.update_self, hpointers,
      entries_pointerBytes hvalid]
  rw [hfile, Option.map_some, ← putSlot_map]
  constructor
  · intro hread hgone
    have hid : padDecimal 3 (index + 1) ∈ entries idLength (s'.rootdir.data fh) := by
      rw [hentries]
      exact List.mem_map.mpr ⟨index, by simp [putSlot], rfl⟩
    refine readFile_missing_block hid ?_ hresolve _ hread
    rw [cString_padDecimal, h.file_eq]
    exact hgone
  · intro hblock
    have hlive : ∀ found ∈ putSlot (m.rootdir.data fh) slot index, m.table.count found ≠ 0 := by
      intro found hfound
      rcases mem_putSlot hfound with hold | rfl
      · exact hm.covered.live hlinked found hold
      · intro hdead
        have hrecord := List.getElem?_eq_getElem hindex
        rw [Table.count_eq hrecord] at hdead
        exact hblock (by rw [hs.stores.block_eq _ _ hrecord, if_pos hdead])
    refine readFile_eq hgrants hresolve ?_ ?_ ?_
    · rw [hentries]
      exact (hs.stores.leads hlive).imp fun id content hfile => (h.file_eq _).trans hfile
    · intro content hcontent
      obtain ⟨found, hfound, rfl⟩ := List.mem_map.mp hcontent
      exact ⟨m.table.nulFree_data found, hm.fits.data (hvalid found hfound)⟩
    · have hslots := hm.slots_length_le (hs.valid fh) hlinked
      have hlength := hm.content_length_le hvalid
      have hput := putSlot_length_le (m.rootdir.data fh) slot index
      omega

theorem Beside.readFile_of_ne (h : Beside fh pointers s s') (hgrants : host.Grants)
    (hs : Represents host s m) (hm : Reflects contents m files)
    (hpath : s.rootdir.resolve other = .ok fh) {third : Path} (hne : third ≠ other) :
    readFile host s' third = readFile host s third := by
  exact readFile_congr hgrants (h.resolve_eq third)
    (fun found hfound => h.data_eq (hs.inode_ne hm hpath hfound hne)) fun _ _ _ _ => h.file_eq _

theorem Represents.unlinked (hs : Represents host s m) (hgrants : host.Grants)
    (hm : Reflects contents m files) (hpath : s.rootdir.resolve fpath = .ok inode)
    (hserve : Bbfs.serve host s (.unlink fpath) = .ok s') :
    Comes host fpath ⟨s, .waiting⟩ (.ok ⟨s', .answered 0⟩) ∧
      ∀ other found, other ≠ fpath → s.rootdir.resolve other = .ok found →
        s'.rootdir.resolve other = .ok found ∧ s'.rootdir.data found = s.rootdir.data found := by
  have hledger := (hs.resolve_eq fpath).symm.trans hpath
  obtain ⟨deleted, hdelete, hdeleted⟩ := hs.deleteBlocks hgrants hledger
  have hrootdir : deleted.rootdir = s.rootdir ∨ deleted.rootdir = s.rootdir.write inode [] := by
    rw [hdeleted.rootdir_eq, hs.rootdir_eq, Ledger.deleteBlocks_of_resolve hledger]
    dsimp only
    split
    · exact .inr (FileSystem.map_write _ _ _ _)
    · exact .inl rfl
  have hnoLinks := hs.noLinks hm
  have hname : deleted.rootdir.lookup fpath = some (.file inode) := by
    have hbefore := hs.lookup_of_resolve hm hpath
    rcases hrootdir with hsame | hempty
    · rw [hsame, hbefore]
    · rw [hempty, FileSystem.lookup_write, hbefore]
  have hanswer : bbUnlink host s fpath =
      .ok (0, { deleted with rootdir := deleted.rootdir.erase fpath }) := by
    rw [bbUnlink_eq hdelete, if_pos hgrants.unlink, FileSystem.unlink, hname]
    rfl
  have hserved : Bbfs.serve host s (.unlink fpath) =
      .ok { deleted with rootdir := deleted.rootdir.erase fpath } := by
    rw [Bbfs.serve, hanswer]
    rfl
  obtain rfl := Except.ok.inj (hserved.symm.trans hserve)
  refine ⟨?_, fun other found hne hfound => ?_⟩
  · have hcomes := moveUnlink_alone host s fpath
    rw [hanswer] at hcomes
    exact hcomes
  · have hapart := hs.inode_ne hm hpath hfound hne
    rcases hrootdir with hsame | hempty
    · simp only [hsame, hnoLinks.resolve_erase hne, hfound, FileSystem.data_erase, and_self]
    · simp only [hempty, (hnoLinks.write inode []).resolve_erase hne, FileSystem.resolve_write,
        hfound, FileSystem.data_erase, FileSystem.data_write, Function.update_of_ne hapart,
        and_self]

end

end

/--
A `bb_write` of a block falls between the reading and the rewriting of its counter in a
`bb_unlink` of another path.  When both are through, the hashes file and the blocks are
what the `bb_unlink` alone would have left, so the written file has what it should have
if and only if the `bb_unlink` alone would have left the block.
-/
theorem raced_write_uncounted (sha1 : Bytes → Vector UInt8 20) (events : List Event)
    {path other : Path} {buf : Bytes} {offset : Nat}
    (hinj : Set.InjOn sha1 (handedOver (events ++ [.request (.write other buf offset)])))
    (hrun : Along (serveEvent (.granting sha1)) (Resumable (.granting sha1)) freshMount events)
    {s : BbState} (hok : run (serveEvent (.granting sha1)) freshMount events = .ok s)
    {inode fh : Nat} (hpath : s.rootdir.resolve path = .ok inode)
    (hother : s.rootdir.resolve other = .ok fh) (hne : other ≠ path) {steps : Nat}
    {r : UnlinkRun} {id : Bytes} (hsteps : run (moveUnlink (.granting sha1) path) ⟨s, .waiting⟩
      (List.replicate steps ()) = .ok r) (hheld : r.phase.held = some id)
    (hplain : PlainRequest (.granting sha1) r.store (.write other buf offset))
    (hrecorded : recordedId (.granting sha1) r.store buf = some (atoi id)) :
    ∃ written ended s', serve (.granting sha1) r.store (.write other buf offset) = .ok written ∧
      Comes (.granting sha1) path ⟨written, r.phase⟩ (.ok ⟨ended, .answered 0⟩) ∧
      serve (.granting sha1) s (.unlink path) = .ok s' ∧
      (∀ name, ended.file name = s'.file name) ∧
      (∀ third, third ≠ other →
        readFile (.granting sha1) ended third = readFile (.granting sha1) s' third) ∧
      (readFile (.granting sha1) ended other = .ok (((events.foldl PathMap.serveEvent .empty).serve
          (.write other buf offset) other).map List.flatten) ↔
        s'.file (.block id) ≠ none) := by
  have hgrants := Host.granting_grants sha1
  obtain ⟨s₀, hok₀, hcarries⟩ := session_carries hgrants hinj
    (handedOver_mono (List.subset_append_left _ _)) hrun
  obtain rfl := Except.ok.inj (hok₀.symm.trans hok)
  obtain ⟨-, m, hs, hm⟩ := hcarries
  have hledger := (hs.resolve_eq path).symm.trans hpath
  have hapart := hs.inode_ne hm hother hpath hne.symm
  -- the removal alone
  obtain ⟨s', hserve, hs'⟩ := hs.unlink hgrants hledger
  have hm' : Reflects _ (m.serve (.granting sha1) (.unlink path)) _ :=
    hm.serve hinj hs.valid trivial trivial trivial (by
      rintro content ⟨written, buf, offset, hmem, -⟩
      simp at hmem)
  obtain ⟨hcomes, hnames⟩ := hs.unlinked hgrants hm hpath hserve
  obtain ⟨hresolve', hdata'⟩ := hnames other fh hne hother
  -- the write, where the removal holds the counter
  obtain ⟨r', hrun', hremoving⟩ := removing_run hgrants hs hm.covered hpath steps
  obtain rfl := Except.ok.inj (hrun'.symm.trans hsteps)
  obtain ⟨t, index, hholding, halongside⟩ := hremoving.holding hpath hheld
  obtain ⟨hsame, hlimit, written, hwrite, hfile, hhashes, hrootdir⟩ := hholding.write hgrants
    ((hholding.resolve_eq other).trans hother) hplain.1 hrecorded
  -- both to the end
  have hdata : r'.store.rootdir.data fh = s'.rootdir.data fh :=
    (hholding.toSeen.data_eq hapart.symm).trans hdata'.symm
  rw [hdata] at hrootdir
  obtain ⟨more, hmore⟩ := hcomes.after rfl hsteps
  obtain ⟨ended, hended, hbeside⟩ := alongside_run
    (halongside fh _ written hapart hlimit hfile hhashes hrootdir) more hmore
  refine ⟨written, ended, s', hwrite, ⟨more, hended⟩, hserve, hbeside.file_eq, fun third hthird =>
    hbeside.readFile_of_ne hgrants hs' hm' hresolve' hthird, ?_⟩
  -- the new slot
  obtain ⟨horderly, -, hnul⟩ := hplain
  simp only [Orderly, (hholding.resolve_eq other).trans hother, hdata] at horderly
  have htable : (m.serve (.granting sha1) (.unlink path)).table =
      m.table.releaseAll (m.seen inode) := Ledger.table_unlink hledger
  have hindex : index < (m.serve (.granting sha1) (.unlink path)).table.records.length := by
    rw [htable, Table.releaseAll_length, ← hholding.length_eq]
    exact hholding.index_lt
  have hbuf : (m.serve (.granting sha1) (.unlink path)).table.data index = buf := by
    have hstored : cString (m.table.data index) ∈
        handedOver (events ++ [.request (.write other buf offset)]) := by
      rw [(m.table.nulFree_data index).cString_eq]
      exact hm.stored.data (hholding.length_eq ▸ hholding.index_lt)
    rw [hholding.data_eq] at hsame
    have heq := cString_eq_of_generateHash_eq hinj
      (.inl ⟨other, buf, offset, by simp, rfl⟩) hstored hsame
    rw [NulFree.cString_eq hnul, (m.table.nulFree_data index).cString_eq] at heq
    rw [htable, Table.data_releaseAll, ← heq]
  have hiff := Beside.readFile_iff hbeside hgrants hs' hm' hresolve' horderly.2.2 hindex
  rw [hbuf] at hiff
  rw [hholding.id_eq, PathMap.serve, Function.update_self, Option.map_map]
  rw [PathMap.serve, Function.update_of_ne hne] at hiff
  exact hiff

def unequalSession : List Event :=
  [.request (.mknod "a"), .request (.write "a" [97] 0), .request (.mknod "b")]

theorem handedOver_unequalSession :
    handedOver (unequalSession ++ [.request (.write "b" [97] 0)]) ⊆ {[97], [98]} := by
  rintro content (⟨path, buf, offset, hmem, rfl⟩ | ⟨buf, steps, hmem, rfl⟩)
  · simp only [unequalSession, List.cons_append, List.nil_append, List.mem_cons,
      Event.request.injEq, Request.write.injEq, List.not_mem_nil, reduceCtorEq, false_or,
      or_false] at hmem
    rcases hmem with ⟨-, rfl, -⟩ | ⟨-, rfl, -⟩ <;> decide
  · simp [unequalSession] at hmem

/-- The last reference is being removed, so the block of the new slot is gone. -/
theorem raced_write_uncounted_unequalSession :
    ∃ s r written ended, run (serveEvent (.granting sampleSha1)) freshMount unequalSession = .ok s ∧
      run (moveUnlink (.granting sampleSha1) "a") ⟨s, .waiting⟩ (List.replicate 2 ()) = .ok r ∧
      serve (.granting sampleSha1) r.store (.write "b" [97] 0) = .ok written ∧
      Comes (.granting sampleSha1) "a" ⟨written, r.phase⟩ (.ok ⟨ended, .answered 0⟩) ∧
      readFile (.granting sampleSha1) ended "b" ≠ .ok (some [97]) := by
  have hmeets : ∃ s, run (serveEvent (.granting sampleSha1)) freshMount unequalSession = .ok s ∧
      s.rootdir.resolve "a" = .ok 0 ∧ s.rootdir.resolve "b" = .ok 1 ∧
      (∃ s', serve (.granting sampleSha1) s (.unlink "a") = .ok s' ∧
        s'.file (.block (padDecimal 3 1)) = none) ∧
      ∃ r, run (moveUnlink (.granting sampleSha1) "a") ⟨s, .waiting⟩ (List.replicate 2 ()) =
          .ok r ∧
        r.phase.held = some (padDecimal 3 1) ∧
        PlainRequest (.granting sampleSha1) r.store (.write "b" [97] 0) ∧
        recordedId (.granting sampleSha1) r.store [97] = some (atoi (padDecimal 3 1)) := by
    decide +kernel
  obtain ⟨s, hok, hpath, hother, ⟨s', hserve, hgone⟩, r, hsteps, hheld, hplain, hrecorded⟩ := hmeets
  obtain ⟨written, ended, s'', hwrite, hcomes, hserve', -, -, hiff⟩ := raced_write_uncounted
    sampleSha1 unequalSession (sampleSha1_injOn.mono handedOver_unequalSession)
    (by decide +kernel) hok hpath hother (by decide) hsteps hheld hplain hrecorded
  obtain rfl := Except.ok.inj (hserve.symm.trans hserve')
  exact ⟨s, r, written, ended, hok, hsteps, hwrite, hcomes, fun hread => hiff.mp hread hgone⟩

end Ece318.Bbfs
