import Ece318.Bbfs.AnyRun
import Ece318.Bbfs.Lookup
import Ece318.Bbfs.Sequential

/-!
# Files of full blocks

The README has every block full: a file of `4096 * k` bytes is `k` blocks, and
its pointers file has `3 * k` bytes.  Truncation passes a size in bytes of
content to the pointers file.
-/

namespace Ece318.Bbfs

open Ece318.Foundation

structure HoldsFull (s : BbState) (inode : Nat) (ids contents : List Bytes) : Prop where
  uniform : Uniform idLength ids
  data_eq : s.rootdir.data inode = ids.flatten
  leads : Leads s ids contents
  full : ∀ content ∈ contents, NulFree content ∧ content.length = maxBlockSize

namespace HoldsFull

variable {host : Host} {s : BbState} {path : Path} {inode m : Nat} {ids contents : List Bytes}

theorem length_eq (h : HoldsFull s inode ids contents) : ids.length = contents.length :=
  List.Forall₂.length_eq h.leads

theorem data_length (h : HoldsFull s inode ids contents) :
    (s.rootdir.data inode).length = idLength * ids.length := by
  rw [h.data_eq, flatten_length h.uniform]

theorem uniform_contents (h : HoldsFull s inode ids contents) :
    Uniform maxBlockSize contents := fun content hcontent => (h.full content hcontent).2

theorem isBlock (h : HoldsFull s inode ids contents) :
    ∀ content ∈ contents, IsBlock content :=
  fun content hcontent => (h.full content hcontent).imp_right fun hlength => hlength.le

theorem readFile_eq (h : HoldsFull s inode ids contents) (hgrants : host.Grants)
    (hpath : s.rootdir.resolve path = .ok inode)
    (hlength : maxBlockSize * ids.length < 2 ^ 31) :
    readFile host s path = .ok (some contents.flatten) := by
  refine Bbfs.readFile_eq hgrants hpath ?_ h.isBlock ?_
  · rw [h.data_eq, entries_flatten h.uniform (by decide)]
    exact h.leads
  · rwa [flatten_length h.uniform_contents, ← h.length_eq]

theorem take (h : HoldsFull s inode ids contents) {s' : BbState}
    (hfile : ∀ id, s'.file (.block id) = s.file (.block id))
    (hdata : s'.rootdir.data inode = (ids.take m).flatten) :
    HoldsFull s' inode (ids.take m) (contents.take m) where
  uniform := h.uniform.take m
  data_eq := hdata
  leads := by
    have hleads : Leads s' ids contents := h.leads.imp fun id content hid => by rwa [hfile]
    exact List.forall₂_take m hleads
  full := fun content hcontent => h.full content (List.mem_of_mem_take hcontent)

end HoldsFull

/-! ## A write at the end -/

def recordedId (host : Host) (s : BbState) (buf : Bytes) : Option Int :=
  (((linesOf ((s.file .hashes).getD [])).find?
    (HashLine.isMatch (generateHash host buf))).map fun line => atoi line.id).filter
      fun id => id ≤ s.lastId

/-- The block recorded for the buffer is the buffer, or an id of three digits is left. -/
def CanHold (host : Host) (s : BbState) (buf : Bytes) : Prop :=
  match recordedId host s buf with
  | some id => s.file (.block (formatInt 3 id)) = some buf
  | none => s.lastId < 999

/-- One `bb_write` at the end of the file stores the buffer as `j` more blocks. -/
def Appends (host : Host) (s : BbState) (path : Path) (inode : Nat) (ids contents : List Bytes)
    (buf : Bytes) (j : Nat) : Prop :=
  ∃ ret s' added, bbWrite host s buf (maxBlockSize * ids.length) inode = .ok (ret, s') ∧
    added.length = j ∧ Uniform idLength added ∧
    s'.rootdir.data inode = (ids ++ added).flatten ∧
    readFile host s' path = .ok (some (contents.flatten ++ buf))

section

variable {host : Host} {s s' written : BbState} {path : Path} {inode : Nat}
  {ids contents : List Bytes} {buf text : Bytes} {id : Int}

theorem recordedId_eq (hgrant : host.grants .compareHashes = true) (buf : Bytes) :
    recordedId host s buf =
      if (compareHashes host s (generateHash host buf)).1 ≤ s.lastId then
        some (compareHashes host s (generateHash host buf)).1
      else none := by
  rw [recordedId, compareHashes_eq_find hgrant]
  cases (linesOf ((s.file .hashes).getD [])).find?
      (HashLine.isMatch (generateHash host buf)) with
  | none => simp
  | some line => simp [Option.filter]

theorem lt_of_recordedId_none (hgrant : host.grants .compareHashes = true)
    (hrecorded : recordedId host s buf = none) :
    s.lastId < (compareHashes host s (generateHash host buf)).1 := by
  rw [recordedId_eq hgrant] at hrecorded
  by_contra hle
  rw [if_pos (by omega)] at hrecorded
  cases hrecorded

theorem recordedId_length (hrecorded : recordedId host s buf = some id) :
    (formatInt 3 id).length = idLength := by
  rw [recordedId, Option.filter_eq_some_iff, Option.map_eq_some_iff] at hrecorded
  obtain ⟨⟨line, -, rfl⟩, -⟩ := hrecorded
  have hlength := line.id_length
  exact formatInt_length (neg_lt_atoi hlength.le) (atoi_lt hlength.le) (by decide)

theorem writeBlocks_recorded (hgrants : host.Grants) (hsize : buf.length ≤ maxBlockSize)
    (hrecorded : recordedId host s buf = some id) :
    writeBlocks host s buf =
      (writeHash host (s.setFile .hashes ((s.file .hashes).getD [])) (generateHash host buf)
        id).map fun written => (formatInt 3 id, written) := by
  rw [recordedId_eq (hgrants.fopen _)] at hrecorded
  split at hrecorded
  · rename_i hle
    obtain rfl := Option.some.inj hrecorded
    rw [← generateHash_append_nul] at hle ⊢
    obtain ⟨answer, -, hcompare⟩ :=
      compareHashes_eq (s := s) hgrants (generateHash host (buf ++ [0]))
    rw [hcompare] at hle ⊢
    have hgenerate := generateBlock_hit hcompare (by simpa using hle)
    rw [writeBlocks, if_neg (by omega)]
    simp only [hgenerate]
    cases writeHash host _ (generateHash host (buf ++ [0])) answer <;> rfl
  · cases hrecorded

theorem writeHash_of_length (hgrant : host.grants .writeHash = true) {hashesfile : Bytes}
    (hfile : s.file .hashes = some hashesfile) {index : Nat} (hindex : index < s.lastId)
    (hlength : lineTotalLength * (index + 1) ≤ hashesfile.length) (hash : Bytes) :
    ∃ written, writeHash host s hash ((index : Int) + 1) = .ok written := by
  have hseek : fseek 0 ((((index : Int) + 1) - 1) * lineTotalLength + idLength) =
      45 * index + 3 := by
    apply fseek_eq
    push_cast
    ring
  have husage : (readAt hashesfile (45 * index + 3) pointersCounterLength).length =
      pointersCounterLength := by
    have hbound : 45 * (index + 1) ≤ hashesfile.length := hlength
    rw [readAt_length, pointersCounterLength]
    omega
  have hold : ¬ (index : Int) + 1 > s.lastId := by omega
  simp only [writeHash, openFile, hgrant, if_true, hfile, if_neg hold, hseek, husage, ne_eq,
    not_true_eq_false, if_false]
  exact ⟨_, rfl⟩

theorem Accounted.writeBlocks_recorded (hs : Accounted s) (hgrants : host.Grants)
    (hsize : buf.length ≤ maxBlockSize) (hrecorded : recordedId host s buf = some id)
    {content : Bytes} (hblock : s.file (.block (formatInt 3 id)) = some content) :
    ∃ written, Bbfs.writeBlocks host s buf = .ok (formatInt 3 id, written) := by
  obtain ⟨-, index, hindex, hid⟩ := hs.block _ _ hblock
  obtain rfl : id = (index : Int) + 1 := formatInt_injective 3 hid
  have hlength : lineTotalLength * (index + 1) ≤ ((s.file .hashes).getD []).length :=
    (Nat.mul_le_mul_left _ hindex).trans hs.hashes_le
  obtain ⟨written, hwrite⟩ := writeHash_of_length
    (s := s.setFile .hashes ((s.file .hashes).getD [])) (hgrants.fopen _) (by simp) hindex hlength
    (generateHash host buf)
  refine ⟨written, ?_⟩
  rw [Bbfs.writeBlocks_recorded hgrants hsize hrecorded, hwrite]
  rfl

theorem HoldsFull.bbWrite_eq (h : HoldsFull s inode ids contents) (hk : ids.length ≤ 150)
    (hwrite : writeBlocks host s buf = .ok (text, written))
    (hrootdir : written.rootdir = s.rootdir) :
    bbWrite host s buf (maxBlockSize * ids.length) inode =
      .ok (int32 buf.length, written.setPointers inode (ids.flatten ++ text)) := by
  have hpointers : writeAt (written.rootdir.data inode) text
      (maxBlockSize * ids.length / bbfsMaxBlockSize * idLength) = ids.flatten ++ text := by
    rw [slot_eq hk, hrootdir, Nat.mul_comm, ← h.data_length, writeAt_end, h.data_eq]
  simp only [bbWrite, hwrite, ← hpointers]
  rfl

theorem HoldsFull.leads_append (h : HoldsFull s inode ids contents)
    (hkept : ∀ id content, s.file (.block id) = some content →
      s'.file (.block id) = some content)
    (hdata : s'.rootdir.data inode = ids.flatten ++ text) (htext : text.length = idLength)
    {content : Bytes} (hblock : s'.file (.block (cString text)) = some content) :
    Leads s' (entries idLength (s'.rootdir.data inode)) (contents ++ [content]) := by
  have huniform : Uniform idLength (ids ++ [text]) :=
    uniform_append.mpr ⟨h.uniform, uniform_cons.mpr ⟨htext, uniform_nil⟩⟩
  have hflatten : ids.flatten ++ text = (ids ++ [text]).flatten := by simp
  have hold : Leads s' ids contents := h.leads.imp fun id content hid => hkept _ _ hid
  rw [hdata, hflatten, entries_flatten huniform (by decide)]
  exact List.rel_append hold (.cons hblock .nil)

theorem HoldsFull.readFile_append (h : HoldsFull s inode ids contents) (hgrants : host.Grants)
    (hk : ids.length < 150) (hpath : s'.rootdir.resolve path = .ok inode)
    (hkept : ∀ id content, s.file (.block id) = some content →
      s'.file (.block id) = some content)
    (hdata : s'.rootdir.data inode = ids.flatten ++ text) (htext : text.length = idLength)
    {content : Bytes} (hblock : s'.file (.block (cString text)) = some content)
    (hcontent : IsBlock content) :
    readFile host s' path = .ok (some (contents.flatten ++ content)) := by
  have hleads := h.leads_append hkept hdata htext hblock
  have hread := Bbfs.readFile_eq hgrants hpath hleads
    (List.forall_mem_append.mpr ⟨h.isBlock, List.forall_mem_singleton.mpr hcontent⟩) (by
      have hlength := flatten_length h.uniform_contents
      have hle : content.length ≤ 4096 := hcontent.2
      rw [← h.length_eq, maxBlockSize] at hlength
      rw [List.flatten_append, List.length_append, hlength, List.flatten_singleton]
      omega)
  rw [hread, List.flatten_append, List.flatten_singleton]

theorem HoldsFull.appends_iff (h : HoldsFull s inode ids contents) (hk : ids.length ≤ 150)
    (hwrite : writeBlocks host s buf = .ok (text, written))
    (hrootdir : written.rootdir = s.rootdir) :
    Appends host s path inode ids contents buf 1 ↔ text.length = idLength ∧
      readFile host (written.setPointers inode (ids.flatten ++ text)) path =
        .ok (some (contents.flatten ++ buf)) := by
  have hok := h.bbWrite_eq hk hwrite hrootdir
  constructor
  · rintro ⟨ret, s', added, hadded, hlength, huniform, hdata, hread⟩
    obtain ⟨-, rfl⟩ := Prod.mk.inj (Except.ok.inj (hok.symm.trans hadded))
    obtain ⟨entry, rfl⟩ := List.length_eq_one_iff.mp hlength
    simp only [BbState.rootdir_setPointers, FileSystem.data_write, Function.update_self,
      List.flatten_append, List.flatten_singleton, List.append_cancel_left_eq] at hdata
    exact ⟨hdata ▸ (uniform_cons.mp huniform).1, hread⟩
  · rintro ⟨htext, hread⟩
    exact ⟨_, _, [text], hok, rfl, uniform_cons.mpr ⟨htext, uniform_nil⟩, by simp, hread⟩

theorem HoldsFull.appends_recorded_iff (h : HoldsFull s inode ids contents) (hs : Accounted s)
    (hgrants : host.Grants) (hpath : s.rootdir.resolve path = .ok inode)
    (hk : ids.length < 150) (hbuf : NulFree buf ∧ buf.length = maxBlockSize)
    (hrecorded : recordedId host s buf = some id) :
    Appends host s path inode ids contents buf 1 ↔
      s.file (.block (formatInt 3 id)) = some buf := by
  have hfiles : ∀ written, writeBlocks host s buf = .ok (formatInt 3 id, written) →
      written.rootdir = s.rootdir ∧ ∀ name, written.file (.block name) = s.file (.block name) := by
    intro written hwrite
    rw [writeBlocks_recorded hgrants hbuf.2.le hrecorded, map_eq_ok] at hwrite
    obtain ⟨stored, hstored, hwrite⟩ := hwrite
    obtain ⟨-, rfl⟩ := Prod.mk.inj hwrite
    rcases writeHash_cases hstored with rfl | ⟨hashesfile, rfl⟩
    · exact ⟨rfl, fun name => by simp⟩
    · exact ⟨rfl, fun name => by simp⟩
  have hlength := recordedId_length hrecorded
  have hread : ∀ written content, writeBlocks host s buf = .ok (formatInt 3 id, written) →
      s.file (.block (formatInt 3 id)) = some content →
        readFile host (written.setPointers inode (ids.flatten ++ formatInt 3 id)) path =
          .ok (some (contents.flatten ++ content)) := by
    intro written content hwrite hcontent
    obtain ⟨hrootdir, hfile⟩ := hfiles written hwrite
    apply h.readFile_append hgrants hk (by simpa [hrootdir] using hpath) _ (by simp) hlength
    · rwa [(nulFree_formatInt 3 id).cString_eq, BbState.file_setPointers, hfile]
    · exact (hs.block _ _ hcontent).1
    · intro name old hold
      rwa [BbState.file_setPointers, hfile]
  constructor
  · rintro happends
    obtain ⟨written, hwrite⟩ : ∃ written,
        writeBlocks host s buf = .ok (formatInt 3 id, written) := by
      obtain ⟨ret, s', added, hok, -⟩ := happends
      obtain ⟨answer, hanswer, -⟩ := bind_eq_ok.mp hok
      rw [writeBlocks_recorded hgrants hbuf.2.le hrecorded] at hanswer ⊢
      obtain ⟨written, hwritten, -⟩ := map_eq_ok.mp hanswer
      exact ⟨written, by rw [hwritten]; rfl⟩
    obtain ⟨hrootdir, hfile⟩ := hfiles written hwrite
    have happended := ((h.appends_iff hk.le hwrite hrootdir).mp happends).2
    cases hblock : s.file (.block (formatInt 3 id)) with
    | none =>
        have hmissing : (written.setPointers inode (ids.flatten ++ formatInt 3 id)).file
            (.block (cString (formatInt 3 id))) = none := by
          rw [(nulFree_formatInt 3 id).cString_eq, BbState.file_setPointers, hfile, hblock]
        refine absurd happended (readFile_missing_block ?_ hmissing
          (by simpa [hrootdir] using hpath) _)
        rw [BbState.rootdir_setPointers, FileSystem.data_write, Function.update_self,
          entries_flatten_append h.uniform (by decide), entries_cons (by decide) hlength.ge,
          List.take_of_length_le hlength.le]
        exact List.mem_append_right _ List.mem_cons_self
    | some content =>
        have hsame := happended.symm.trans (hread written content hwrite hblock)
        simp only [Except.ok.injEq, Option.some.injEq, List.append_cancel_left_eq] at hsame
        rw [hsame]
  · intro hblock
    obtain ⟨written, hwrite⟩ := hs.writeBlocks_recorded hgrants hbuf.2.le hrecorded hblock
    exact (h.appends_iff hk.le hwrite (hfiles written hwrite).1).mpr
      ⟨hlength, hread written buf hwrite hblock⟩

theorem HoldsFull.appends_new_iff (h : HoldsFull s inode ids contents) (hs : Accounted s)
    (hgrants : host.Grants) (hpath : s.rootdir.resolve path = .ok inode)
    (hk : ids.length < 150) (hbuf : NulFree buf ∧ buf.length = maxBlockSize)
    (hrecorded : recordedId host s buf = none) :
    Appends host s path inode ids contents buf 1 ↔ s.lastId < 999 := by
  obtain ⟨written, hwrite, hadds⟩ :=
    writeBlocks_new hgrants hbuf.2.le (lt_of_recordedId_none (hgrants.fopen _) hrecorded)
  rw [h.appends_iff hk.le hwrite hadds.rootdir_eq]
  constructor
  · rintro ⟨hlength, -⟩
    have hvalue := digitsValue_lt (padDecimal 3 (s.lastId + 1))
    rw [digitsValue_padDecimal, hlength, idLength] at hvalue
    omega
  · intro hlast
    refine ⟨idText_length hlast, ?_⟩
    apply h.readFile_append hgrants hk (by simpa [hadds.rootdir_eq] using hpath) _ (by simp)
      (idText_length hlast)
    · rw [cString_padDecimal, BbState.file_setPointers, hadds.file_eq _ (by simp), if_pos rfl,
        hbuf.1.cString_eq]
    · exact ⟨hbuf.1, hbuf.2.le⟩
    · intro name old hold
      obtain ⟨-, index, hindex, rfl⟩ := hs.block name old hold
      have hne : blockOf index ≠ blockOf s.lastId := by
        rw [Ne, blockOf_inj]
        omega
      rw [BbState.file_setPointers, hadds.file_eq _ (by simp), if_neg hne, hold]

theorem bbWrite_overflow (hsize : maxBlockSize < buf.length) (offset fh : Nat) :
    bbWrite host s buf offset fh = .error .overflow := by
  simp only [bbWrite, writeBlocks, if_pos hsize]
  rfl

end

/--
In every state that is reached: a write of `j` blocks at the end of a file of full
blocks is stored if and only if it is one block, and what is recorded for it is the
same block, or an id of three digits is left.
-/
theorem bbWrite_appends_iff (sha1 : Bytes → Vector UInt8 20) (requests : List Request)
    {s : BbState} (hrun : run (serve (.granting sha1)) freshMount requests = .ok s)
    {path : Path} {inode : Nat} {ids contents : List Bytes}
    (hpath : s.rootdir.resolve path = .ok inode) (h : HoldsFull s inode ids contents)
    {j : Nat} (hj : 1 ≤ j) (hlimit : ids.length + j ≤ 150) {buf : Bytes} (hnul : NulFree buf)
    (hbuf : buf.length = j * maxBlockSize) :
    Appends (.granting sha1) s path inode ids contents buf j ↔
      j = 1 ∧ CanHold (.granting sha1) s buf := by
  have hgrants := Host.granting_grants sha1
  have hs := Accounted.run hgrants hrun
  rcases Nat.lt_or_eq_of_le hj with hlong | rfl
  · -- the copy loop of `write_blocks` leaves its array
    have hsize : maxBlockSize < buf.length := by
      rw [hbuf, maxBlockSize]
      omega
    apply iff_of_false
    · rintro ⟨ret, s', added, hok, -⟩
      rw [bbWrite_overflow hsize] at hok
      cases hok
    · omega
  · rw [Nat.one_mul] at hbuf
    cases hrecorded : recordedId (.granting sha1) s buf with
    | none =>
        rw [h.appends_new_iff hs hgrants hpath (by omega) ⟨hnul, hbuf⟩ hrecorded]
        simp [CanHold, hrecorded]
    | some id =>
        rw [h.appends_recorded_iff hs hgrants hpath (by omega) ⟨hnul, hbuf⟩ hrecorded]
        simp [CanHold, hrecorded]

theorem run_mknod : ∃ s, run (serve (.granting sampleSha1)) freshMount [.mknod "f"] = .ok s ∧
    s.rootdir.resolve "f" = .ok 0 ∧ HoldsFull s 0 [] [] ∧
    recordedId (.granting sampleSha1) s (fullBlock 97) = none ∧ s.lastId = 0 := by
  have hrun : ∃ s, run (serve (.granting sampleSha1)) freshMount [.mknod "f"] = .ok s ∧
      s.rootdir.resolve "f" = .ok 0 ∧ s.rootdir.data 0 = [] ∧ s.file .hashes = none ∧
      s.lastId = 0 := by
    decide +kernel
  rcases hrun with ⟨s, hs, hpath, hdata, hhashes, hlast⟩
  exact ⟨s, hs, hpath, ⟨uniform_nil, hdata, .nil, by simp⟩,
    by simp [recordedId, hhashes, linesOf], hlast⟩

theorem bbWrite_appends_iff_oneBlock :
    ∃ s, run (serve (.granting sampleSha1)) freshMount [.mknod "f"] = .ok s ∧
      Appends (.granting sampleSha1) s "f" 0 [] [] (fullBlock 97) 1 := by
  rcases run_mknod with ⟨s, hs, hpath, hholds, hrecorded, hlast⟩
  have hblock := fullBlock_isBlock 97 (by decide)
  refine ⟨s, hs, (bbWrite_appends_iff sampleSha1 [.mknod "f"] hs hpath hholds le_rfl (by decide)
    hblock.1 (hblock.2.trans (Nat.one_mul _).symm)).mpr ⟨rfl, ?_⟩⟩
  simp [CanHold, hrecorded, hlast]

/-- Two blocks in one request run past the end of `block_data`. -/
theorem twoBlocks_not_appended :
    ∃ s, run (serve (.granting sampleSha1)) freshMount [.mknod "f"] = .ok s ∧
      s.rootdir.resolve "f" = .ok 0 ∧ HoldsFull s 0 [] [] ∧
      NulFree (fullBlock 97 ++ fullBlock 97) ∧
      (fullBlock 97 ++ fullBlock 97).length = 2 * maxBlockSize ∧
      bbWrite (.granting sampleSha1) s (fullBlock 97 ++ fullBlock 97) 0 0 = .error .overflow ∧
      ¬ Appends (.granting sampleSha1) s "f" 0 [] [] (fullBlock 97 ++ fullBlock 97) 2 := by
  rcases run_mknod with ⟨s, hs, hpath, hholds, -⟩
  obtain ⟨hnul, hlength⟩ := fullBlock_isBlock 97 (by decide)
  have hsize : (fullBlock 97 ++ fullBlock 97).length = 2 * maxBlockSize := by
    rw [List.length_append, hlength, Nat.two_mul]
  have hoverflow : ∀ offset fh, bbWrite (.granting sampleSha1) s
      (fullBlock 97 ++ fullBlock 97) offset fh = .error .overflow :=
    fun offset fh => bbWrite_overflow (by rw [hsize]; decide) offset fh
  refine ⟨s, hs, hpath, hholds, ?_, hsize, hoverflow 0 0, ?_⟩
  · simpa [NulFree] using hnul
  · rintro ⟨ret, s', added, hok, -⟩
    rw [hoverflow] at hok
    cases hok

/-! ## Truncation -/

structure CutTo (host : Host) (s' : BbState) (path : Path) (inode : Nat)
    (ids contents : List Bytes) (m : Nat) : Prop where
  data_eq : s'.rootdir.data inode = (ids.take m).flatten
  readFile_eq : readFile host s' path = .ok (some (contents.flatten.take (maxBlockSize * m)))

section

variable {host : Host} {s : BbState} {path : Path} {inode m : Nat} {ids contents : List Bytes}

theorem bbTruncate_of_resolve (hpath : s.rootdir.resolve path = .ok inode) (newsize : Nat) :
    bbTruncate s path newsize =
      (0, s.setPointers inode (resize (s.rootdir.data inode) newsize)) := by
  rw [bbTruncate, hpath]

theorem bbFtruncate_eq (hpath : s.rootdir.resolve path = .ok inode) (newsize : Nat) :
    bbFtruncate s newsize inode = bbTruncate s path newsize := by
  rw [bbTruncate_of_resolve hpath, bbFtruncate]

theorem cutTo_pointers (hgrants : host.Grants) (hpath : s.rootdir.resolve path = .ok inode)
    (h : HoldsFull s inode ids contents) (hm : m ≤ ids.length)
    (hlength : maxBlockSize * m < 2 ^ 31) :
    CutTo host (bbTruncate s path (idLength * m)).2 path inode ids contents m := by
  rw [bbTruncate_of_resolve hpath]
  have hresize : resize (s.rootdir.data inode) (idLength * m) = (ids.take m).flatten := by
    rw [resize_of_le (by rw [h.data_length]; exact Nat.mul_le_mul_left _ hm), h.data_eq,
      take_flatten h.uniform]
  have hcut : HoldsFull (s.setPointers inode (resize (s.rootdir.data inode) (idLength * m)))
      inode (ids.take m) (contents.take m) := h.take (fun _ => rfl) (by simp [hresize])
  refine ⟨hcut.data_eq, ?_⟩
  rw [hcut.readFile_eq hgrants (by simpa using hpath)
    (by rwa [List.length_take_of_le hm]), take_flatten h.uniform_contents]

theorem CutTo.eq_zero (hpath : s.rootdir.resolve path = .ok inode)
    (h : HoldsFull s inode ids contents) (hm : m ≤ ids.length)
    (hcut : CutTo host (bbTruncate s path (maxBlockSize * m)).2 path inode ids contents m) :
    m = 0 := by
  have hlength := congrArg List.length hcut.data_eq
  rw [bbTruncate_of_resolve hpath, flatten_length (h.uniform.take m),
    List.length_take_of_le hm] at hlength
  simp only [BbState.rootdir_setPointers, FileSystem.data_write, Function.update_self,
    resize_length, maxBlockSize, idLength] at hlength
  omega

/--
The size that is asked for never is that of the pointers file, unless it is 0:
the file is cut to `m` blocks, by path or by descriptor, if and only if `m` is 0.
-/
theorem truncate_cutTo_iff (hgrants : host.Grants) (hpath : s.rootdir.resolve path = .ok inode)
    (h : HoldsFull s inode ids contents) (hm : m ≤ ids.length) :
    (CutTo host (bbTruncate s path (maxBlockSize * m)).2 path inode ids contents m ↔ m = 0) ∧
      (CutTo host (bbFtruncate s (maxBlockSize * m) inode).2 path inode ids contents m ↔
        m = 0) := by
  rw [bbFtruncate_eq hpath, and_self]
  refine ⟨CutTo.eq_zero hpath h hm, ?_⟩
  rintro rfl
  exact cutTo_pointers hgrants hpath h hm (by simp)

theorem readFile_grown (hpath : s.rootdir.resolve path = .ok inode)
    (h : HoldsFull s inode ids contents) (hmissing : s.file (.block []) = none)
    (hgrown : idLength * (ids.length + 1) ≤ maxBlockSize * m) (data : Bytes) :
    readFile host (bbTruncate s path (maxBlockSize * m)).2 path ≠ .ok (some data) := by
  rw [bbTruncate_of_resolve hpath]
  have hdata := h.data_length
  rw [Nat.mul_succ] at hgrown
  have hzeros : [0, 0, 0] ∈ entries idLength
      (List.replicate (maxBlockSize * m - idLength * ids.length) (0 : UInt8)) := by
    rw [entries_cons (by decide) (by rw [List.length_replicate]; omega), List.take_replicate,
      Nat.min_eq_left (by omega)]
    exact List.mem_cons_self
  have hentry : [0, 0, 0] ∈ entries idLength ((s.setPointers inode
      (resize (s.rootdir.data inode) (maxBlockSize * m))).rootdir.data inode) := by
    rw [BbState.rootdir_setPointers, FileSystem.data_write, Function.update_self,
      resize_of_ge (by omega), hdata, h.data_eq, entries_flatten_append h.uniform (by decide)]
    exact List.mem_append_right _ hzeros
  exact readFile_missing_block hentry hmissing (by simpa using hpath) data

end

theorem run_fullBlock :
    ∃ s, run (serve (.granting sampleSha1)) freshMount
        [.mknod "f", .write "f" (fullBlock 97) 0] = .ok s ∧
      s.rootdir.resolve "f" = .ok 0 ∧ HoldsFull s 0 [padDecimal 3 1] [fullBlock 97] := by
  rcases run_mknod with ⟨s, hs, hpath, hholds, hrecorded, hlast⟩
  have hgrants := Host.granting_grants sampleSha1
  have hblock := fullBlock_isBlock 97 (by decide)
  obtain ⟨written, hwrite, hadds⟩ :=
    writeBlocks_new hgrants hblock.2.le (lt_of_recordedId_none (hgrants.fopen _) hrecorded)
  rw [hlast] at hwrite
  have hdata : written.rootdir.data 0 = [] := by rw [hadds.rootdir_eq, hholds.data_eq]; rfl
  refine ⟨_, (run_concat _ hs).trans (serve_write_eq hpath hwrite 0), ?_, ?_⟩
  · simpa [hadds.rootdir_eq] using hpath
  · refine ⟨uniform_cons.mpr ⟨by decide, uniform_nil⟩, ?_, .cons ?_ .nil, by simpa using hblock⟩
    · simp [hdata]
    · rw [cString_padDecimal, BbState.file_setPointers, hadds.file_eq _ (by simp), hlast,
        if_pos rfl, hblock.1.cString_eq]

theorem truncate_cutTo_iff_fullBlock :
    ∃ s, run (serve (.granting sampleSha1)) freshMount
        [.mknod "f", .write "f" (fullBlock 97) 0] = .ok s ∧
      CutTo (.granting sampleSha1) (bbTruncate s "f" 0).2 "f" 0 [padDecimal 3 1]
        [fullBlock 97] 0 := by
  rcases run_fullBlock with ⟨s, hs, hpath, hholds⟩
  exact ⟨s, hs, (truncate_cutTo_iff (Host.granting_grants sampleSha1) hpath hholds
    (Nat.zero_le _)).1.mpr rfl⟩

/-- Truncated to the size it has, the file of one block is no longer that file. -/
theorem fullBlock_not_cutTo :
    ∃ s, run (serve (.granting sampleSha1)) freshMount
        [.mknod "f", .write "f" (fullBlock 97) 0] = .ok s ∧
      s.rootdir.resolve "f" = .ok 0 ∧ HoldsFull s 0 [padDecimal 3 1] [fullBlock 97] ∧
      ¬ CutTo (.granting sampleSha1) (bbTruncate s "f" (maxBlockSize * 1)).2 "f" 0
        [padDecimal 3 1] [fullBlock 97] 1 := by
  rcases run_fullBlock with ⟨s, hs, hpath, hholds⟩
  refine ⟨s, hs, hpath, hholds, fun hcut => ?_⟩
  have hzero := hcut.eq_zero hpath hholds le_rfl
  cases hzero

end Ece318.Bbfs
