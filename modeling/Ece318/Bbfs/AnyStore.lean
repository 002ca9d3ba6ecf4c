import Ece318.Foundation.Runs
import Ece318.Bbfs.ReadSpec

/-!
# What the functions leave alone in any store

The hashes file of a damaged store may hold anything, and so may the counters
and ids that `our_lib.c` reads from it.  Whatever it finds there, a write gives
away no id but the next one and touches no block but that one, and
`delete_blocks` only takes things away.
-/

namespace Ece318.Bbfs

open Ece318.Foundation

/-! ## Writing -/

section

variable {host : Host} {s s' : BbState}

theorem neg_lt_compareLoop (lastId : Nat) (hashesfile hashToCompare : Bytes)
    (fuel position : Nat) :
    (-100 : Int) < compareLoop lastId hashesfile hashToCompare fuel position := by
  induction fuel generalizing position with
  | zero =>
      rw [compareLoop]
      omega
  | succ fuel ih =>
      rw [compareLoop]
      split
      · omega
      · split
        · omega
        · split
          · have hwidth : (readAt hashesfile (position + pointersCounterLength + hashSize -
                lineTotalLength) idLength).length ≤ 2 + 1 := by
              rw [readAt_length]
              exact Nat.min_le_left _ _
            simpa using neg_lt_atoi hwidth
          · exact ih _

theorem compareHashes_eq (hgrants : host.Grants) (hash : Bytes) :
    ∃ answer : Int, -100 < answer ∧
      compareHashes host s hash = (answer, s.setFile .hashes ((s.file .hashes).getD [])) := by
  have hcompare : compareHashes host s hash =
      (compareLoop s.lastId ((s.file .hashes).getD []) hash
        (((s.file .hashes).getD []).length + 1) idLength,
        s.setFile .hashes ((s.file .hashes).getD [])) := by
    simp only [compareHashes, hgrants.fopen, if_true]
  exact ⟨_, neg_lt_compareLoop _ _ _ _ _, hcompare⟩

theorem writeHash_cases {hash : Bytes} {id : Int} (h : writeHash host s hash id = .ok s') :
    s' = s ∨ ∃ hashesfile, s' = s.setFile .hashes hashesfile := by
  unfold writeHash at h
  split at h
  · cases h
    exact .inl rfl
  · split at h
    · cases h
      exact .inr ⟨_, rfl⟩
    · dsimp only at h
      split at h
      · contradiction
      · cases h
        exact .inr ⟨_, rfl⟩

theorem writeHash_add_any (hgrant : host.grants .writeHash = true) {hashesfile : Bytes}
    (hfile : s.file .hashes = some hashesfile) (hash : Bytes) :
    ∃ line, hash.length + 5 ≤ line.length ∧ writeHash host s hash (s.lastId + 1) =
      .ok (s.setFile .hashes (hashesfile ++ line)) := by
  refine ⟨formatInt 3 (s.lastId + 1) ++ [48, 49] ++ hash, ?_, ?_⟩
  · have hid : 3 ≤ (formatInt 3 ((s.lastId : Int) + 1)).length :=
      le_padDecimal_length 3 (s.lastId + 1)
    simp only [List.length_append, List.length_cons, List.length_nil]
    omega
  · rw [writeHash, openFile, if_pos hgrant, hfile]
    simp only [gt_iff_lt, show (s.lastId : Int) < s.lastId + 1 by omega, if_true, writeAt_end]

theorem writeHash_hashes_length {hash : Bytes} {id : Int}
    (h : writeHash host s hash id = .ok s') :
    ((s.file .hashes).getD []).length ≤ ((s'.file .hashes).getD []).length := by
  unfold writeHash at h
  split at h
  · cases h
    exact le_rfl
  · rename_i hashesfile hopen
    have hfile : s.file .hashes = some hashesfile := by
      unfold openFile at hopen
      split at hopen
      · exact hopen
      · cases hopen
    split at h
    · cases h
      simp [hfile]
    · dsimp only at h
      split at h
      · contradiction
      · cases h
        simpa [hfile] using le_writeAt_length _ _ _

structure AddsBlock (s s' : BbState) (data : Bytes) : Prop where
  rootdir_eq : s'.rootdir = s.rootdir
  lastId_eq : s'.lastId = s.lastId + 1
  hashes_eq : ∃ line, s'.file .hashes = some ((s.file .hashes).getD [] ++ line)
  file_eq : ∀ name, name ≠ .hashes →
    s'.file name = if name = blockOf s.lastId then some (cString data) else s.file name

theorem generateBlock_new (hgrants : host.Grants) (data : Bytes)
    (hnew : s.lastId < (compareHashes host s (generateHash host data)).1) :
    ∃ s', generateBlock host s data = .ok ((s.lastId + 1 : Nat), s') ∧
      AddsBlock s s' data := by
  obtain ⟨answer, -, hcompare⟩ := compareHashes_eq (s := s) hgrants (generateHash host data)
  rw [hcompare] at hnew
  have hhashes : ((s.setFile .hashes ((s.file .hashes).getD [])).setFile
      (blockOf s.lastId) []).file .hashes = some ((s.file .hashes).getD []) := by simp
  obtain ⟨line, -, hline⟩ :=
    writeHash_add_any (hgrants.fopen _) hhashes (generateHash host data)
  have hgenerate := generateBlock_miss hcompare (by simpa using hnew) (hgrants.fopen _) hline
  refine ⟨_, hgenerate, rfl, rfl, ⟨line, by simp⟩, fun name hname => ?_⟩
  by_cases hblock : name = blockOf s.lastId
  · simp [hblock]
  · simp [hname, hblock]

theorem writeBlocks_new (hgrants : host.Grants) {buf : Bytes}
    (hsize : buf.length ≤ maxBlockSize)
    (hnew : s.lastId < (compareHashes host s (generateHash host buf)).1) :
    ∃ s', writeBlocks host s buf = .ok (padDecimal 3 (s.lastId + 1), s') ∧
      AddsBlock s s' buf := by
  obtain ⟨s', hgenerate, hadds⟩ := generateBlock_new hgrants (buf ++ [0])
    (by rwa [generateHash_append_nul])
  refine ⟨s', ?_, hadds.rootdir_eq, hadds.lastId_eq, hadds.hashes_eq, ?_⟩
  · rw [writeBlocks, if_neg (by omega)]
    simp only [hgenerate]
    rfl
  · simpa using hadds.file_eq

structure WritesBlock (s s' : BbState) (data : Bytes) (id : Int) : Prop where
  rootdir_eq : s'.rootdir = s.rootdir
  hashes : s'.file .hashes ≠ none
  id_gt : -100 < id
  id_le : id ≤ s'.lastId
  old_or_new : (s'.lastId = s.lastId ∧ ∀ name, name ≠ .hashes → s'.file name = s.file name) ∨
    AddsBlock s s' data

theorem generateBlock_cases (hgrants : host.Grants) {data : Bytes} {id : Int}
    (h : generateBlock host s data = .ok (id, s')) : WritesBlock s s' data id := by
  obtain ⟨answer, hlow, hcompare⟩ := compareHashes_eq (s := s) hgrants (generateHash host data)
  rcases Int.lt_or_le s.lastId answer with hnew | hold
  · obtain ⟨written, hgenerate, hadds⟩ :=
      generateBlock_new hgrants data (by rwa [hcompare])
    rw [hgenerate, Except.ok.injEq, Prod.mk.injEq] at h
    obtain ⟨rfl, rfl⟩ := h
    obtain ⟨line, hhashes⟩ := hadds.hashes_eq
    have hlast := hadds.lastId_eq
    exact ⟨hadds.rootdir_eq, by simp [hhashes], by omega, by omega, .inr hadds⟩
  · rw [generateBlock_hit hcompare (by simpa using hold), map_eq_ok] at h
    obtain ⟨written, hwrite, h⟩ := h
    obtain ⟨rfl, rfl⟩ := Prod.mk.inj h
    -- whatever id was found, `write_hash` changes the hashes file alone
    have hkept : written.lastId = s.lastId ∧ written.rootdir = s.rootdir ∧
        written.file .hashes ≠ none ∧
        ∀ name, name ≠ .hashes → written.file name = s.file name := by
      rcases writeHash_cases hwrite with rfl | ⟨hashesfile, rfl⟩
      · exact ⟨rfl, rfl, by simp, fun name hname => by simp [hname]⟩
      · exact ⟨rfl, rfl, by simp, fun name hname => by simp [hname]⟩
    obtain ⟨hlast, hrootdir, hhashes, hfile⟩ := hkept
    exact ⟨hrootdir, hhashes, hlow, by omega, .inl ⟨hlast, hfile⟩⟩

theorem generateBlock_hashes_length (hgrants : host.Grants) {data : Bytes} {id : Int}
    (h : generateBlock host s data = .ok (id, s')) :
    ((s.file .hashes).getD []).length + lineTotalLength * (s'.lastId - s.lastId) ≤
      ((s'.file .hashes).getD []).length := by
  obtain ⟨answer, -, hcompare⟩ := compareHashes_eq (s := s) hgrants (generateHash host data)
  rcases Int.lt_or_le s.lastId answer with hnew | hold
  · have hhashes : ((s.setFile .hashes ((s.file .hashes).getD [])).setFile
        (blockOf s.lastId) []).file .hashes = some ((s.file .hashes).getD []) := by simp
    obtain ⟨line, hlength, hline⟩ :=
      writeHash_add_any (hgrants.fopen _) hhashes (generateHash host data)
    rw [generateHash_length] at hlength
    have hgrown : lineTotalLength ≤ line.length := hlength
    have hgenerate := generateBlock_miss hcompare (by simpa using hnew) (hgrants.fopen _) hline
    obtain ⟨-, rfl⟩ := Prod.mk.inj (Except.ok.inj (hgenerate.symm.trans h))
    simpa using hgrown
  · rw [generateBlock_hit hcompare (by simpa using hold), map_eq_ok] at h
    obtain ⟨written, hwrite, h⟩ := h
    obtain ⟨rfl, rfl⟩ := Prod.mk.inj h
    have hlength := writeHash_hashes_length hwrite
    have hlast : written.lastId = s.lastId := by
      rcases writeHash_cases hwrite with rfl | ⟨hashesfile, rfl⟩
      · rfl
      · rfl
    simpa [hlast] using hlength

theorem writeBlocks_cases (hgrants : host.Grants) {buf text : Bytes}
    (h : writeBlocks host s buf = .ok (text, s')) :
    ∃ id, text = formatInt 3 id ∧ WritesBlock s s' buf id := by
  rw [writeBlocks] at h
  split at h
  · contradiction
  · obtain ⟨⟨id, written⟩, hgenerate, h⟩ := bind_eq_ok.mp h
    cases h
    obtain ⟨hrootdir, hhashes, hlow, hhigh, hold | hnew⟩ :=
      generateBlock_cases hgrants hgenerate
    · exact ⟨id, rfl, hrootdir, hhashes, hlow, hhigh, .inl hold⟩
    · exact ⟨id, rfl, hrootdir, hhashes, hlow, hhigh, .inr ⟨hrootdir, hnew.lastId_eq,
        hnew.hashes_eq, by simpa using hnew.file_eq⟩⟩

end

/-! ## Deleting -/

structure Loses (s s' : BbState) : Prop where
  lastId_eq : s'.lastId = s.lastId
  hashes : s.file .hashes ≠ none → s'.file .hashes ≠ none
  file : ∀ name, name ≠ .hashes → s'.file name = s.file name ∨ s'.file name = none
  data : ∀ inode, s'.rootdir.data inode = s.rootdir.data inode ∨ s'.rootdir.data inode = []

namespace Loses

theorem refl (s : BbState) : Loses s s :=
  ⟨rfl, id, fun _ _ => .inl rfl, fun _ => .inl rfl⟩

theorem trans {s s' s'' : BbState} (h : Loses s s') (h' : Loses s' s'') : Loses s s'' where
  lastId_eq := h'.lastId_eq.trans h.lastId_eq
  hashes := h'.hashes ∘ h.hashes
  file := by
    intro name hname
    rcases h'.file name hname with heq | hnone
    · rw [heq]
      exact h.file name hname
    · exact .inr hnone
  data := by
    intro inode
    rcases h'.data inode with heq | hnil
    · rw [heq]
      exact h.data inode
    · exact .inr hnil

theorem setHashes (s : BbState) (hashesfile : Bytes) :
    Loses s (s.setFile .hashes hashesfile) :=
  ⟨rfl, by simp, fun name hname => .inl (by simp [hname]), fun _ => .inl rfl⟩

end Loses

section

variable {host : Host} {s s' : BbState} {fpath : Path}

theorem dropBlock_loses {id : Bytes} (h : dropBlock host s fpath id = .ok s') :
    Loses s s' := by
  unfold dropBlock at h
  split at h
  · contradiction
  · rename_i inode _
    cases h
    refine ⟨rfl, by simp, fun name _ => ?_, fun other => ?_⟩
    · by_cases hname : name = .block (cString id)
      · exact .inr (by simp [hname])
      · exact .inl (by simp [hname])
    · by_cases hother : other = inode
      · exact .inr (by simp [hother])
      · exact .inl (by simp [Function.update_of_ne hother])

theorem deleteEntry_loses {id usage : Bytes} {locals locals' : DeleteLocals}
    (h : deleteEntry host s fpath id usage locals = .ok (s', locals')) : Loses s s' := by
  unfold deleteEntry at h
  split at h
  · cases h
    exact .refl s
  · obtain ⟨dropped, hdropped, h⟩ := bind_eq_ok.mp h
    have hloses : Loses s dropped := by
      split at hdropped
      · exact dropBlock_loses hdropped
      · cases hdropped
        exact .refl s
    dsimp only at h
    split at h
    · contradiction
    · cases h
      exact hloses.trans (.setHashes dropped _)

theorem file_hashes_of_dropped {id usage : Bytes}
    (h : (if atoi usage = 1 then dropBlock host s fpath id else .ok s) = .ok s') :
    s'.file .hashes = s.file .hashes := by
  unfold dropBlock at h
  split at h
  · split at h
    · contradiction
    · cases h
      simp
  · cases h
    rfl

theorem deleteEntry_hashes_length {id usage : Bytes} {locals locals' : DeleteLocals}
    (h : deleteEntry host s fpath id usage locals = .ok (s', locals')) :
    ((s.file .hashes).getD []).length ≤ ((s'.file .hashes).getD []).length := by
  unfold deleteEntry at h
  split at h
  · cases h
    exact le_rfl
  · obtain ⟨dropped, hdropped, h⟩ := bind_eq_ok.mp h
    dsimp only at h
    split at h
    · contradiction
    · cases h
      simpa [file_hashes_of_dropped hdropped] using le_writeAt_length _ _ _

section

variable (R : BbState → BbState → Prop) (hrefl : ∀ s, R s s)
  (htrans : ∀ {s s' s''}, R s s' → R s' s'' → R s s'')
  (hentry : ∀ {s s' id usage locals locals'},
    deleteEntry host s fpath id usage locals = .ok (s', locals') → R s s')

include hrefl htrans hentry

theorem deleteLoop_of_entry {inode fuel : Nat} {locals : DeleteLocals}
    (h : deleteLoop host fpath inode fuel s locals = .ok s') : R s s' := by
  induction fuel generalizing s locals with
  | zero =>
      cases h
      exact hrefl _
  | succ fuel ih =>
      rw [deleteLoop] at h
      dsimp only at h
      split at h
      · cases h
        exact hrefl _
      · split at h
        · contradiction
        · obtain ⟨⟨next, locals'⟩, hnext, h⟩ := bind_eq_ok.mp h
          exact htrans (hentry hnext) (ih h)

theorem deleteBlocks_of_entry (h : deleteBlocks host s fpath = .ok s') : R s s' := by
  unfold deleteBlocks at h
  split at h
  · contradiction
  · cases h
    exact hrefl s
  · cases h
    exact hrefl s
  · exact deleteLoop_of_entry R hrefl htrans hentry h

end

theorem deleteBlocks_loses (h : deleteBlocks host s fpath = .ok s') : Loses s s' :=
  deleteBlocks_of_entry Loses Loses.refl Loses.trans deleteEntry_loses h

theorem deleteLoop_hashes_length {inode fuel : Nat} {locals : DeleteLocals}
    (h : deleteLoop host fpath inode fuel s locals = .ok s') :
    ((s.file .hashes).getD []).length ≤ ((s'.file .hashes).getD []).length :=
  deleteLoop_of_entry
    (fun s s' => ((s.file .hashes).getD []).length ≤ ((s'.file .hashes).getD []).length)
    (fun _ => le_rfl) le_trans deleteEntry_hashes_length h

theorem deleteBlocks_hashes_length (h : deleteBlocks host s fpath = .ok s') :
    ((s.file .hashes).getD []).length ≤ ((s'.file .hashes).getD []).length :=
  deleteBlocks_of_entry
    (fun s s' => ((s.file .hashes).getD []).length ≤ ((s'.file .hashes).getD []).length)
    (fun _ => le_rfl) le_trans deleteEntry_hashes_length h

end

/-! ## Reading -/

section

variable {host : Host} {s s' : BbState}

theorem sizeLoop_congr {ids : List Bytes}
    (h : ∀ id ∈ ids, s'.file (.block (cString id)) = s.file (.block (cString id)))
    (st : Option Nat) (totalSize : Int) :
    sizeLoop s' ids st totalSize = sizeLoop s ids st totalSize := by
  induction ids generalizing st totalSize with
  | nil => rfl
  | cons id ids ih =>
      have hrest := ih fun other hother => h other (List.mem_cons_of_mem _ hother)
      simp only [sizeLoop, h id List.mem_cons_self, hrest]

theorem appendLoop_congr {ids : List Bytes}
    (h : ∀ id ∈ ids, s'.file (.block (cString id)) = s.file (.block (cString id)))
    (capacity : Nat) (fileData : Bytes) :
    appendLoop host s' capacity ids fileData = appendLoop host s capacity ids fileData := by
  induction ids generalizing fileData with
  | nil => rfl
  | cons id ids ih =>
      have hrest := ih fun other hother => h other (List.mem_cons_of_mem _ hother)
      simp only [appendLoop, readBlock, openFile, h id List.mem_cons_self, hrest]

theorem readFile_congr (hgrants : host.Grants) {path : Path}
    (hpath : s'.rootdir.resolve path = s.rootdir.resolve path)
    (hdata : ∀ inode, s.rootdir.resolve path = .ok inode →
      s'.rootdir.data inode = s.rootdir.data inode)
    (hblock : ∀ inode, s.rootdir.resolve path = .ok inode →
      ∀ id ∈ entries idLength (s.rootdir.data inode),
        s'.file (.block (cString id)) = s.file (.block (cString id))) :
    readFile host s' path = readFile host s path := by
  cases hresolve : s.rootdir.resolve path with
  | error errno =>
      rw [readFile_missing hgrants hresolve, readFile_missing hgrants (hpath.trans hresolve)]
  | ok inode =>
      have hids := hblock inode hresolve
      simp only [readFile, getRealSize, openPath_of_resolve hgrants hresolve,
        openPath_of_resolve hgrants (hpath.trans hresolve), hdata inode hresolve,
        sizeLoop_congr hids, appendLoop_congr hids]

end

end Ece318.Bbfs
