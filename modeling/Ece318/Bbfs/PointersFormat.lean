import Ece318.Foundation.Runs
import Ece318.Bbfs.AnyStore

/-!
# What a pointers file decodes to

`write_blocks` writes an id with at least three digits, and whoever reads a
pointers file takes three bytes for an entry.  The two agree up to id 999; of
id 1000 the readers take the first three digits.
-/

namespace Ece318.Bbfs

open Ece318.Foundation

structure Encoding where
  store : BbState
  pointers : Bytes
  ids : List Int

def Encoding.start : Encoding := ⟨freshMount, [], []⟩

/-- One more block, and what `write_blocks` returns for it in the next three bytes. -/
def encodeBlock (host : Host) (e : Encoding) (buf : Bytes) : Except Fault Encoding := do
  let (id, _) ← generateBlock host e.store (buf ++ [0])
  let (text, store) ← writeBlocks host e.store buf
  return ⟨store, writeAt e.pointers text (idLength * e.ids.length), e.ids ++ [id]⟩

def Encoding.Decodes (e : Encoding) (blocks : List Bytes) : Prop :=
  (entries idLength e.pointers).length = blocks.length ∧
    (entries idLength e.pointers).map atoi = e.ids

section

variable {host : Host} {e e' : Encoding} {buf : Bytes}

theorem encodeBlock_eq {id : Int} {text : Bytes} {store other : BbState}
    (hgenerate : generateBlock host e.store (buf ++ [0]) = .ok (id, other))
    (hwrite : writeBlocks host e.store buf = .ok (text, store)) :
    encodeBlock host e buf =
      .ok ⟨store, writeAt e.pointers text (idLength * e.ids.length), e.ids ++ [id]⟩ := by
  simp only [encodeBlock, hgenerate, hwrite]
  rfl

theorem encodeBlock_cases (h : encodeBlock host e buf = .ok e') :
    ∃ text id, e'.pointers = writeAt e.pointers text (idLength * e.ids.length) ∧
      e'.ids = e.ids ++ [id] := by
  obtain ⟨⟨id, other⟩, -, h⟩ := bind_eq_ok.mp h
  obtain ⟨⟨text, store⟩, -, h⟩ := bind_eq_ok.mp h
  cases h
  exact ⟨text, id, rfl, rfl⟩

/-! ## Up to 999 blocks -/

theorem uniform_range {count : Nat} (hle : count ≤ 999) :
    Uniform 3 ((List.range count).map fun index => padDecimal 3 (index + 1)) :=
  uniform_pointers fun _ hindex => (List.mem_range.mp hindex).trans_le hle

structure Encoded (host : Host) (e : Encoding) (blocks : List Bytes) : Prop where
  stores : ∃ t, Stores host e.store t ∧ t.records.map Record.data = blocks
  pointers_eq : e.pointers = pointerBytes (List.range blocks.length)
  ids_eq : e.ids = (List.range blocks.length).map fun index : Nat => (index : Int) + 1

namespace Encoded

theorem start (host : Host) : Encoded host .start [] :=
  ⟨⟨.empty, stores_freshMount host, rfl⟩, rfl, rfl⟩

variable {blocks : List Bytes} {contents : Set Bytes}

theorem pointers_length (h : Encoded host e blocks) (hle : blocks.length ≤ 999) :
    e.pointers.length = idLength * blocks.length := by
  have huniform := uniform_range hle
  rw [h.pointers_eq, pointerBytes, flatten_length huniform, List.length_map, List.length_range]

theorem ids_length (h : Encoded host e blocks) : e.ids.length = blocks.length := by
  rw [h.ids_eq, List.length_map, List.length_range]

end Encoded

theorem find_eq_none_of_notMem {t : Table} {blocks : List Bytes} {contents : Set Bytes}
    (hdata : t.records.map Record.data = blocks) (hinj : Set.InjOn host.sha1 contents)
    (hblocks : ∀ block ∈ blocks, block ∈ contents) (hbuf : buf ∈ contents)
    (hnul : NulFree buf) (hnew : buf ∉ blocks) : t.find host buf = none := by
  cases hfind : t.find host buf with
  | none => rfl
  | some index =>
      obtain ⟨record, hrecord, -, hhash⟩ := t.find_eq_some host hfind
      have hmem : record.data ∈ blocks := by
        rw [← hdata]
        exact List.mem_map_of_mem (List.mem_of_getElem? hrecord)
      have heq := cString_eq_of_generateHash_eq hinj
        (by rw [record.nulFree.cString_eq]; exact hblocks _ hmem)
        (by rwa [hnul.cString_eq]) hhash
      rw [record.nulFree.cString_eq, hnul.cString_eq] at heq
      exact absurd (heq ▸ hmem) hnew

theorem Encoded.encodeBlock {blocks : List Bytes} {contents : Set Bytes}
    (h : Encoded host e blocks) (hgrants : host.Grants) (hinj : Set.InjOn host.sha1 contents)
    (hblocks : ∀ block ∈ blocks, block ∈ contents) (hbuf : buf ∈ contents)
    (hnul : NulFree buf) (hnew : buf ∉ blocks) (hsize : buf.length ≤ maxBlockSize)
    (hlt : blocks.length < 999) :
    ∃ e', encodeBlock host e buf = .ok e' ∧ Encoded host e' (blocks ++ [buf]) := by
  obtain ⟨t, hs, hdata⟩ := h.stores
  have hlength : t.records.length = blocks.length := by rw [← hdata, List.length_map]
  have hfind := find_eq_none_of_notMem hdata hinj hblocks hbuf hnul hnew
  have hroom : t.HasRoom host buf := by
    simp only [Table.HasRoom, hfind]
    omega
  have hstore : t.store host buf = (blocks.length, t.add buf) := by
    rw [t.store_of_find_none host hfind, hlength]
  obtain ⟨other, hgenerate, -⟩ := hs.generateBlock hgrants (buf ++ [0])
    ((t.hasRoom_append_nul host buf).mpr hroom)
  obtain ⟨store, hwrite, hs', -⟩ := hs.writeBlocks hgrants hsize hroom
  rw [Table.store_append_nul, hstore] at hgenerate
  rw [hstore] at hwrite hs'
  refine ⟨_, encodeBlock_eq hgenerate hwrite, ⟨⟨_, hs', ?_⟩, ?_, ?_⟩⟩
  · rw [Table.add_records t (by omega), List.map_append, hdata]
    simp [hnul.cString_eq]
  · rw [h.ids_length, ← h.pointers_length hlt.le, writeAt_end, h.pointers_eq,
      List.length_append, List.length_singleton, List.range_succ, pointerBytes_append]
    simp
  · rw [h.ids_eq, List.length_append, List.length_singleton, List.range_succ]
    simp

theorem encode_short (hgrants : host.Grants) {blocks : List Bytes} {contents : Set Bytes}
    (hinj : Set.InjOn host.sha1 contents) (hcontents : ∀ block ∈ blocks, block ∈ contents)
    (hnodup : blocks.Nodup)
    (hblocks : ∀ block ∈ blocks, NulFree block ∧ block.length ≤ maxBlockSize)
    (hle : blocks.length ≤ 999) :
    ∃ e, run (Bbfs.encodeBlock host) .start blocks = .ok e ∧ Encoded host e blocks := by
  induction blocks using List.reverseRecOn with
  | nil => exact ⟨.start, rfl, .start host⟩
  | append_singleton blocks buf ih =>
      have hsub : ∀ block ∈ blocks, block ∈ blocks ++ [buf] :=
        fun block => List.mem_append_left _
      rw [List.length_append, List.length_singleton] at hle
      rw [List.nodup_append] at hnodup
      have hold : ∀ block ∈ blocks, block ∈ contents :=
        fun block hblock => hcontents block (hsub block hblock)
      obtain ⟨e, hrun, hencoded⟩ := ih hold hnodup.1
        (fun block hblock => hblocks block (hsub block hblock)) (by omega)
      obtain ⟨hnul, hsize⟩ := hblocks buf (by simp)
      have hnew : buf ∉ blocks := fun hmem => hnodup.2.2 buf hmem buf (by simp) rfl
      obtain ⟨e', hstep, hencoded'⟩ := hencoded.encodeBlock hgrants hinj hold
        (hcontents buf (by simp)) hnul hnew hsize (by omega)
      exact ⟨e', by rw [run_concat buf hrun, hstep], hencoded'⟩

theorem Encoded.decodes {blocks : List Bytes} (h : Encoded host e blocks)
    (hle : blocks.length ≤ 999) : e.Decodes blocks := by
  have huniform := uniform_range hle
  have hentries : entries idLength e.pointers =
      (List.range blocks.length).map fun index => padDecimal 3 (index + 1) := by
    rw [h.pointers_eq]
    exact entries_flatten huniform (by decide)
  rw [Encoding.Decodes, hentries, h.ids_eq]
  simp

/-! ## From block 1000 on -/

structure Overrun (e : Encoding) : Prop where
  id_eq : e.ids[999]? = some 1000
  length_le : 3000 ≤ e.pointers.length
  entry_eq : readAt e.pointers 2997 3 = padDecimal 3 100

theorem Encoded.encodeBlock_last {blocks : List Bytes} {contents : Set Bytes}
    (h : Encoded host e blocks) (hgrants : host.Grants) (hinj : Set.InjOn host.sha1 contents)
    (hblocks : ∀ block ∈ blocks, block ∈ contents) (hbuf : buf ∈ contents)
    (hnul : NulFree buf) (hnew : buf ∉ blocks) (hsize : buf.length ≤ maxBlockSize)
    (hlength : blocks.length = 999) :
    ∃ e', Bbfs.encodeBlock host e buf = .ok e' ∧ Overrun e' := by
  obtain ⟨t, hs, hdata⟩ := h.stores
  have hfind := find_eq_none_of_notMem hdata hinj hblocks hbuf hnul hnew
  have hlast : e.store.lastId = 999 := by
    rw [hs.lastId_eq, ← hlength, ← hdata, List.length_map]
  have hgt : e.store.lastId < (compareHashes host e.store (generateHash host buf)).1 := by
    rw [hs.compareHashes (hgrants.fopen _) buf, Table.store, hfind, hs.lastId_eq]
    exact Int.lt_succ _
  obtain ⟨other, hgenerate, -⟩ := generateBlock_new hgrants (buf ++ [0])
    (by rwa [generateHash_append_nul])
  obtain ⟨store, hwrite, -⟩ := writeBlocks_new hgrants hsize hgt
  have hids : e.ids.length = 999 := h.ids_length.trans hlength
  have hpointers : e.pointers.length = 2997 := by
    rw [h.pointers_length hlength.le, hlength]
    rfl
  -- four digits at the end of the file, where an entry has three
  have hwritten : writeAt e.pointers (padDecimal 3 1000) (idLength * 999) =
      e.pointers ++ padDecimal 3 1000 := by
    rw [← writeAt_end, hpointers]
    rfl
  rw [hlast] at hgenerate hwrite
  refine ⟨_, encodeBlock_eq hgenerate hwrite, ?_, ?_, ?_⟩
  · simp [hids]
  · rw [hids, hwritten, List.length_append, hpointers]
    decide
  · rw [hids, hwritten, ← hpointers]
    exact readAt_append_right e.pointers (padDecimal 3 1000) 0 3

theorem Overrun.encodeBlock (h : Overrun e) (hstep : encodeBlock host e buf = .ok e') :
    Overrun e' := by
  obtain ⟨text, id, hpointers, hids⟩ := encodeBlock_cases hstep
  have hlength : 1000 ≤ e.ids.length := (List.getElem?_eq_some_iff.mp h.id_eq).1
  -- later entries stand behind the three digits
  have hbehind : 2997 + 3 ≤ idLength * e.ids.length := by
    simp only [idLength]
    omega
  refine ⟨?_, ?_, ?_⟩
  · rw [hids, List.getElem?_append_left hlength, h.id_eq]
  · rw [hpointers]
    exact h.length_le.trans (le_writeAt_length _ _ _)
  · rw [hpointers, readAt_writeAt_front text h.length_le hbehind, h.entry_eq]

theorem Overrun.not_decodes (h : Overrun e) (blocks : List Bytes) : ¬ e.Decodes blocks := by
  rintro ⟨-, hentries⟩
  have hlt : 999 < e.pointers.length / idLength := by
    have := h.length_le
    simp only [idLength]
    omega
  have hentry := congrArg (·[999]?) hentries
  simp only [entries, List.getElem?_map, List.getElem?_range hlt, Option.map_some,
    h.id_eq, Option.some.injEq] at hentry
  have hread : readAt e.pointers (idLength * 999) idLength = padDecimal 3 100 := h.entry_eq
  rw [hread, atoi_padDecimal] at hentry
  omega

theorem encode_long (hgrants : host.Grants) {blocks rest : List Bytes}
    {contents : Set Bytes} (hinj : Set.InjOn host.sha1 contents)
    (hcontents : ∀ block ∈ blocks ++ buf :: rest, block ∈ contents)
    (hnodup : (blocks ++ buf :: rest).Nodup)
    (hblocks : ∀ block ∈ blocks ++ buf :: rest, NulFree block ∧ block.length ≤ maxBlockSize)
    (hlength : blocks.length = 999)
    (hrun : run (Bbfs.encodeBlock host) .start (blocks ++ buf :: rest) = .ok e) :
    Overrun e := by
  have hsub : ∀ block ∈ blocks, block ∈ blocks ++ buf :: rest :=
    fun block => List.mem_append_left _
  obtain ⟨hnodup', -, hdisjoint⟩ := List.nodup_append.mp hnodup
  have hold : ∀ block ∈ blocks, block ∈ contents :=
    fun block hblock => hcontents block (hsub block hblock)
  obtain ⟨e₁, hrun₁, hencoded⟩ := encode_short hgrants hinj hold hnodup'
    (fun block hblock => hblocks block (hsub block hblock)) hlength.le
  obtain ⟨hnul, hsize⟩ := hblocks buf (by simp)
  have hnew : buf ∉ blocks := fun hmem => hdisjoint buf hmem buf (by simp) rfl
  obtain ⟨e₂, hstep, hoverrun⟩ := hencoded.encodeBlock_last hgrants hinj hold
    (hcontents buf (by simp)) hnul hnew hsize hlength
  rw [run_append _ hrun₁, run_cons _ hstep] at hrun
  have hguard : Along (Bbfs.encodeBlock host) (fun _ _ => True) e₂ rest :=
    .of_forall (fun _ _ _ => trivial) _
  exact run_preserves Overrun (fun _ _ _ h _ hok => h.encodeBlock hok) hoverrun hguard hrun

end

/--
Different blocks stored one after the other decode to the ids they were given
if and only if there are no more than 999 of them.
-/
theorem pointers_decode_iff (sha1 : Bytes → Vector UInt8 20) (blocks : List Bytes)
    (hinj : Set.InjOn sha1 {block | block ∈ blocks}) (hnodup : blocks.Nodup)
    (hblocks : ∀ block ∈ blocks, NulFree block ∧ block.length ≤ maxBlockSize) :
    (∃ e, run (encodeBlock (.granting sha1)) .start blocks = .ok e ∧ e.Decodes blocks) ↔
      blocks.length ≤ 999 := by
  have hgrants := Host.granting_grants sha1
  constructor
  · rintro ⟨e, hrun, hdecodes⟩
    by_contra hlong
    obtain ⟨buf, rest, hdrop⟩ : ∃ buf rest, blocks.drop 999 = buf :: rest := by
      refine List.exists_cons_of_ne_nil fun hnil => ?_
      have := List.drop_eq_nil_iff.mp hnil
      omega
    have hsplit : blocks = blocks.take 999 ++ buf :: rest := by
      rw [← hdrop, List.take_append_drop]
    have hlength : (blocks.take 999).length = 999 := by
      rw [List.length_take]
      omega
    have hcontents : ∀ block ∈ blocks.take 999 ++ buf :: rest, block ∈ {b | b ∈ blocks} := by
      rw [← hsplit]
      exact fun block hblock => hblock
    rw [hsplit] at hnodup hblocks hrun
    exact (encode_long hgrants hinj hcontents hnodup hblocks hlength hrun).not_decodes _
      hdecodes
  · intro hle
    obtain ⟨e, hrun, hencoded⟩ := encode_short hgrants hinj (fun _ hblock => hblock)
      hnodup hblocks hle
    exact ⟨e, hrun, hencoded.decodes hle⟩

theorem pointers_decode_iff_two :
    (∃ e, run (encodeBlock (.granting sampleSha1)) .start [[97], [98]] = .ok e ∧
      e.Decodes [[97], [98]]) ↔ 2 ≤ 999 :=
  pointers_decode_iff sampleSha1 [[97], [98]]
    (sampleSha1_injOn.mono fun block hblock => by simpa using hblock)
    (by decide) (by decide)

def thousandBlocks : List Bytes := (List.range 1000).map (padDecimal 4)

theorem length_of_mem_thousandBlocks {block : Bytes} (h : block ∈ thousandBlocks) :
    block.length = 4 ∧ NulFree block := by
  obtain ⟨index, hindex, rfl⟩ := List.mem_map.mp h
  have hlt := List.mem_range.mp hindex
  exact ⟨padDecimal_length (by decide) (by omega), nulFree_padDecimal 4 index⟩

/-- The last of a thousand blocks gets the id 1000, and its entry says 100. -/
theorem thousandBlocks_misread :
    ∃ e, run (encodeBlock (.granting frontSha1)) .start thousandBlocks = .ok e ∧
      e.ids[999]? = some 1000 ∧ readAt e.pointers (idLength * 999) idLength = padDecimal 3 100 ∧
      ¬ e.Decodes thousandBlocks := by
  have hgrants := Host.granting_grants frontSha1
  have hsplit : thousandBlocks = (List.range 999).map (padDecimal 4) ++ [padDecimal 4 999] := by
    rw [thousandBlocks, List.range_succ, List.map_append, List.map_singleton]
  have hnodup : thousandBlocks.Nodup :=
    List.Nodup.map (padDecimal_injective 4) List.nodup_range
  have hcontents : ∀ block ∈ thousandBlocks, block ∈ {data : Bytes | data.length = 4} :=
    fun block hblock => (length_of_mem_thousandBlocks hblock).1
  have hblocks : ∀ block ∈ thousandBlocks, NulFree block ∧ block.length ≤ maxBlockSize := by
    intro block hblock
    obtain ⟨hlength, hnul⟩ := length_of_mem_thousandBlocks hblock
    exact ⟨hnul, by rw [hlength]; decide⟩
  have hsub : ∀ block ∈ (List.range 999).map (padDecimal 4), block ∈ thousandBlocks := by
    rw [hsplit]
    exact fun block => List.mem_append_left _
  have hmem : padDecimal 4 999 ∈ thousandBlocks := by
    rw [hsplit]
    exact List.mem_append_right _ (List.mem_singleton_self _)
  rw [hsplit] at hnodup
  obtain ⟨hfirst, -, hdisjoint⟩ := List.nodup_append.mp hnodup
  obtain ⟨e, hrun, hencoded⟩ := encode_short hgrants frontSha1_injOn
    (fun block hblock => hcontents block (hsub block hblock)) hfirst
    (fun block hblock => hblocks block (hsub block hblock)) (by simp)
  obtain ⟨hnul, hsize⟩ := hblocks _ hmem
  obtain ⟨e', hstep, hoverrun⟩ := hencoded.encodeBlock_last hgrants frontSha1_injOn
    (fun block hblock => hcontents block (hsub block hblock)) (hcontents _ hmem) hnul
    (fun hold => hdisjoint _ hold _ (by simp) rfl) hsize (by simp)
  refine ⟨e', ?_, hoverrun.id_eq, hoverrun.entry_eq, hoverrun.not_decodes _⟩
  rw [hsplit, run_concat _ hrun, hstep]

end Ece318.Bbfs
