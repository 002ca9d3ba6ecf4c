import Ece318.Foundation.Runs
import Ece318.Bbfs.References

/-!
# Reading a file

`read_file` answers the concatenation of the blocks its entries lead to, as
long as the sizes add up to less than 2^31.  Past that the `int` wraps around,
and `malloc` either fails or allocates too little.
-/

namespace Ece318.Bbfs

open Ece318.Foundation

def Leads (s : BbState) : List Bytes → List Bytes → Prop :=
  List.Forall₂ fun id content => s.file (.block (cString id)) = some content

/-- What a block file may hold: a C string that fits a block. -/
def IsBlock (content : Bytes) : Prop := NulFree content ∧ content.length ≤ maxBlockSize

theorem IsBlock.length_lt {content : Bytes} (h : IsBlock content) :
    content.length + 1 < 2 ^ 31 := by
  have hle : content.length ≤ 4096 := h.2
  omega

theorem int32_of_lt {value : Nat} (h : value < 2 ^ 31) : int32 value = value := by
  unfold int32
  exact Int.bmod_eq_of_le (by omega) (by omega)

theorem malloc_of_lt {size : Nat} (h : size < 2 ^ 63) : malloc size = some size := by
  have hmod : ((size : Int) % 2 ^ 64).toNat = size := by omega
  rw [malloc, hmod, if_pos h]

theorem withMalloc_some {size : Int} {capacity : Nat} (h : malloc size = some capacity)
    (use : Nat → Except Fault (Option Bytes)) : withMalloc size use = use capacity := by
  rw [withMalloc, h]

theorem withMalloc_none {size : Int} (h : malloc size = none)
    (use : Nat → Except Fault (Option Bytes)) : withMalloc size use = .ok none := by
  rw [withMalloc, h]

section

variable {host : Host} {s : BbState} {ids contents : List Bytes}

theorem sizeLoop_eq (h : Leads s ids contents) (st : Option Nat) (totalSize : Int) :
    sizeLoop s ids st (int32 totalSize) =
      .ok (int32 (totalSize + contents.flatten.length)) := by
  induction h generalizing st totalSize with
  | nil => simp [sizeLoop]
  | cons hfile _ ih =>
      have hadd : ∀ size : Int, int32 (int32 totalSize + size) = int32 (totalSize + size) :=
        fun size => Int.bmod_add_bmod
      simp only [sizeLoop, hfile, hadd, ih, List.flatten_cons, List.length_append]
      congr 2
      push_cast
      ring

theorem readBlock_eq (hgrants : host.Grants) {id content : Bytes}
    (hfile : s.file (.block (cString id)) = some content)
    (hsize : content.length + 1 < 2 ^ 31) :
    readBlock host s id = .ok (some content) := by
  have hreal : int32 content.length = content.length := int32_of_lt (by omega)
  have hsucc : malloc (int32 ((content.length : Int) + 1)) = some (content.length + 1) := by
    have hcast : (content.length : Int) + 1 = (content.length + 1 : Nat) := by push_cast; rfl
    rw [hcast, int32_of_lt (by omega), malloc_of_lt (by omega)]
  simp only [readBlock, openFile, hgrants.fopen, hgrants.slack, Bool.true_eq_false, and_false,
    if_true, if_false, hfile, hreal, withMalloc_some hsucc, Int.toNat_natCast, List.take_length]
  rw [if_neg (by omega)]

theorem appendLoop_eq (hgrants : host.Grants) (h : Leads s ids contents)
    (hnul : ∀ content ∈ contents, NulFree content)
    (hsize : ∀ content ∈ contents, content.length + 1 < 2 ^ 31) {capacity : Nat}
    {fileData : Bytes} (hcapacity : fileData.length + contents.flatten.length < capacity) :
    appendLoop host s capacity ids fileData = .ok (fileData ++ contents.flatten) := by
  induction h generalizing fileData with
  | nil => simp [appendLoop]
  | @cons id content ids contents hfile _ ih =>
      rw [List.forall_mem_cons] at hnul hsize
      rw [List.flatten_cons, List.length_append] at hcapacity
      have hfits : ¬ capacity < (fileData ++ content).length + 1 := by
        rw [List.length_append]
        omega
      rw [appendLoop, readBlock_eq hgrants hfile hsize.1]
      simp only [bind, Except.bind, hnul.1.cString_eq, if_neg hfits]
      rw [ih hnul.2 hsize.2 (by rw [List.length_append]; omega), List.flatten_cons,
        List.append_assoc]

theorem appendLoop_missing {id : Bytes} (hid : id ∈ ids)
    (hmissing : s.file (.block (cString id)) = none) (capacity : Nat) (fileData : Bytes) :
    ∃ fault, appendLoop host s capacity ids fileData = .error fault := by
  induction ids generalizing fileData with
  | nil => simp at hid
  | cons other ids ih =>
      rw [appendLoop]
      cases hread : readBlock host s other with
      | error fault => exact ⟨fault, rfl⟩
      | ok buffer =>
          cases buffer with
          | none => exact ⟨.nullPointer, rfl⟩
          | some buffer =>
              rcases List.mem_cons.mp hid with rfl | hrest
              · have hopen : openFile host s .readBlock (.block (cString id)) = none := by
                  rw [openFile, hmissing, ite_self]
                simp only [readBlock, hopen] at hread
                split at hread <;> cases hread
              · simp only [bind, Except.bind]
                split
                · exact ⟨.overflow, rfl⟩
                · exact ih hrest _

theorem appendLoop_overflow (hgrants : host.Grants) (h : Leads s ids contents)
    (hblocks : ∀ content ∈ contents, IsBlock content) {capacity : Nat} {fileData : Bytes}
    (hstart : fileData.length < capacity)
    (hcapacity : capacity ≤ fileData.length + contents.flatten.length) :
    appendLoop host s capacity ids fileData = .error .overflow := by
  induction h generalizing fileData with
  | nil =>
      simp only [List.flatten_nil, List.length_nil, Nat.add_zero] at hcapacity
      omega
  | @cons id content ids contents hfile _ ih =>
      have hblock := hblocks content List.mem_cons_self
      have hrest := fun other hother => hblocks other (List.mem_cons_of_mem _ hother)
      rw [List.flatten_cons, List.length_append] at hcapacity
      rw [appendLoop, readBlock_eq hgrants hfile hblock.length_lt]
      simp only [bind, Except.bind, hblock.1.cString_eq]
      split
      · rfl
      · rename_i hfits
        rw [List.length_append] at hfits
        exact ih hrest (by rw [List.length_append]; omega)
          (by rw [List.length_append]; omega)

end

section

variable {host : Host} {s : BbState} {path : Path} {inode : Nat} {contents : List Bytes}

theorem getRealSize_eq (hgrants : host.Grants) (hpath : s.rootdir.resolve path = .ok inode)
    (h : Leads s (entries idLength (s.rootdir.data inode)) contents) :
    getRealSize host s path = .ok (int32 contents.flatten.length) := by
  have hloop := sizeLoop_eq h none 0
  rw [Int.zero_add] at hloop
  rw [getRealSize, openPath_of_resolve hgrants hpath]
  exact hloop

theorem readFile_eq_of_nulFree (hgrants : host.Grants)
    (hpath : s.rootdir.resolve path = .ok inode)
    (h : Leads s (entries idLength (s.rootdir.data inode)) contents)
    (hnul : ∀ content ∈ contents, NulFree content)
    (hsize : ∀ content ∈ contents, content.length + 1 < 2 ^ 31)
    (hlength : contents.flatten.length < 2 ^ 31) :
    readFile host s path = .ok (some contents.flatten) := by
  have hreal : getRealSize host s path = .ok (contents.flatten.length : Int) := by
    rw [getRealSize_eq hgrants hpath h, int32_of_lt hlength]
  have hmalloc : malloc ((contents.flatten.length : Int) + 10) =
      some (contents.flatten.length + 10) := by
    have hcast : (contents.flatten.length : Int) + 10 =
        (contents.flatten.length + 10 : Nat) := by push_cast; rfl
    rw [hcast, malloc_of_lt (by omega)]
  have hloop : appendLoop host s (contents.flatten.length + 10)
      (entries idLength (s.rootdir.data inode)) [] = .ok contents.flatten :=
    appendLoop_eq hgrants h hnul hsize (by simp)
  simp only [readFile, hreal, openPath_of_resolve hgrants hpath, bind, Except.bind,
    withMalloc_some hmalloc]
  rw [if_neg (by omega), hloop]
  rfl

theorem readFile_eq (hgrants : host.Grants) (hpath : s.rootdir.resolve path = .ok inode)
    (h : Leads s (entries idLength (s.rootdir.data inode)) contents)
    (hblocks : ∀ content ∈ contents, IsBlock content)
    (hlength : contents.flatten.length < 2 ^ 31) :
    readFile host s path = .ok (some contents.flatten) :=
  readFile_eq_of_nulFree hgrants hpath h (fun content hcontent => (hblocks content hcontent).1)
    (fun content hcontent => (hblocks content hcontent).length_lt) hlength

/-- `malloc` refuses a size that wrapped around to a negative `int`. -/
theorem readFile_null (hgrants : host.Grants) (hpath : s.rootdir.resolve path = .ok inode)
    (h : Leads s (entries idLength (s.rootdir.data inode)) contents)
    (hlength : int32 contents.flatten.length < -10) :
    readFile host s path = .ok none := by
  have hlow : -2 ^ 31 ≤ int32 contents.flatten.length := Int.le_bmod (by omega)
  have hmalloc : malloc (int32 contents.flatten.length + 10) = none := by
    rw [malloc, if_neg]
    omega
  simp only [readFile, getRealSize_eq hgrants hpath h, openPath_of_resolve hgrants hpath,
    bind, Except.bind, withMalloc_none hmalloc]

/-- A size that wrapped around to a small `int` gives too short an array. -/
theorem readFile_overflow (hgrants : host.Grants)
    (hpath : s.rootdir.resolve path = .ok inode)
    (h : Leads s (entries idLength (s.rootdir.data inode)) contents)
    (hblocks : ∀ content ∈ contents, IsBlock content)
    (hlength : 2 ^ 31 ≤ contents.flatten.length)
    (hwrapped : -10 ≤ int32 contents.flatten.length) :
    readFile host s path = .error .overflow := by
  have hhigh : int32 contents.flatten.length < 2 ^ 31 := Int.bmod_lt (by omega)
  have hless : int32 contents.flatten.length + 10 ≤ contents.flatten.length := by
    unfold int32
    rw [Int.bmod_def]
    split <;> omega
  obtain ⟨capacity, hcapacity⟩ : ∃ capacity : Nat,
      int32 contents.flatten.length + 10 = capacity :=
    ⟨(int32 contents.flatten.length + 10).toNat, by omega⟩
  have hmalloc : malloc (int32 contents.flatten.length + 10) = some capacity := by
    rw [hcapacity, malloc_of_lt (by omega)]
  simp only [readFile, getRealSize_eq hgrants hpath h, openPath_of_resolve hgrants hpath,
    bind, Except.bind, withMalloc_some hmalloc]
  split
  · rfl
  · rw [appendLoop_overflow hgrants h hblocks (by simp only [List.length_nil]; omega)
      (by simp only [List.length_nil]; omega)]
    rfl

theorem readFile_missing_block {id : Bytes}
    (hid : id ∈ entries idLength (s.rootdir.data inode))
    (hmissing : s.file (.block (cString id)) = none)
    (hpath : s.rootdir.resolve path = .ok inode) (data : Bytes) :
    readFile host s path ≠ .ok (some data) := by
  intro hread
  rw [readFile, bind_eq_ok] at hread
  obtain ⟨size, -, hread⟩ := hread
  cases hopen : openPath host s .readFile path with
  | none => simp [hopen, pure, Except.pure] at hread
  | some found =>
      have hfound : found = inode := by
        rw [openPath, hpath] at hopen
        split at hopen
        · exact (Option.some.inj hopen).symm
        · cases hopen
      subst found
      simp only [hopen] at hread
      cases hmalloc : malloc (size + 10) with
      | none => simp [withMalloc_none hmalloc] at hread
      | some capacity =>
          obtain ⟨fault, hfault⟩ : ∃ fault, appendLoop host s capacity
              (entries idLength (s.rootdir.data inode)) [] = .error fault :=
            appendLoop_missing hid hmissing capacity []
          simp only [withMalloc_some hmalloc, hfault] at hread
          split at hread
          · cases hread
          · cases hread

theorem readFile_missing (hgrants : host.Grants) {errno : Errno}
    (hpath : s.rootdir.resolve path = .error errno) : readFile host s path = .ok none := by
  simp only [readFile, getRealSize, openPath_of_error hgrants hpath]
  rfl

end

/-! ## The files of a ledger -/

theorem entries_pointerBytes {t : Table} {indices : List Nat} (h : t.Valid indices) :
    entries idLength (pointerBytes indices) =
      indices.map fun index => padDecimal 3 (index + 1) :=
  entries_flatten h.uniform (by decide)

theorem length_le_of_count {indices : List Nat} (hlt : ∀ index ∈ indices, index < 999)
    (hcount : ∀ index, indices.count index ≤ 99) : indices.length ≤ 99 * 999 := by
  -- no id occurs more than 99 times, and there are 999 ids
  have hsub : indices.toFinset ⊆ Finset.range 999 := by
    intro index hindex
    exact Finset.mem_range.mpr (hlt index (List.mem_toFinset.mp hindex))
  have hcard : indices.toFinset.card ≤ 999 := by
    simpa using Finset.card_le_card hsub
  calc indices.length = ∑ index ∈ indices.toFinset, indices.count index :=
        (List.sum_toFinset_count_eq_length indices).symm
    _ ≤ indices.toFinset.card * 99 :=
        Finset.sum_le_card_nsmul _ _ 99 fun index _ => hcount index
    _ ≤ 99 * 999 := by omega

theorem flatten_length_le {contents : List Bytes} {size : Nat}
    (h : ∀ content ∈ contents, content.length ≤ size) :
    contents.flatten.length ≤ contents.length * size := by
  rw [List.length_flatten, ← List.length_map (f := List.length)]
  refine List.sum_le_card_nsmul _ _ fun length hlength => ?_
  obtain ⟨content, hcontent, rfl⟩ := List.mem_map.mp hlength
  exact h content hcontent

theorem Table.count_le (t : Table) (index : Nat) : t.count index ≤ 99 := by
  unfold count
  split
  · rename_i record _
    exact record.count_le
  · omega

theorem Table.nulFree_data (t : Table) (index : Nat) : NulFree (t.data index) := by
  unfold data
  split
  · rename_i record _
    exact record.nulFree
  · exact nulFree_nil

theorem Stores.leads {host : Host} {s : BbState} {t : Table} (h : Stores host s t)
    {indices : List Nat} (hlive : ∀ index ∈ indices, t.count index ≠ 0) :
    Leads s (indices.map fun index => padDecimal 3 (index + 1)) (indices.map t.data) := by
  induction indices with
  | nil => exact .nil
  | cons index indices ih =>
      refine .cons ?_ (ih fun other hother => hlive other (List.mem_cons_of_mem _ hother))
      rw [cString_padDecimal]
      exact h.block_live (hlive index List.mem_cons_self)

namespace Ledger

variable {m : Ledger}

theorem Covered.count_le (h : m.Covered) {inode : Nat} (hlinked : inode ∈ m.rootdir.linked)
    (index : Nat) : (m.rootdir.data inode).count index ≤ m.table.count index :=
  (FileSystem.le_total (List.count index) hlinked).trans (h index)

theorem Covered.live (h : m.Covered) {inode : Nat} (hlinked : inode ∈ m.rootdir.linked) :
    ∀ index ∈ m.rootdir.data inode, m.table.count index ≠ 0 := by
  intro index hindex
  have hpos := List.count_pos_iff.mpr hindex
  have hle := h.count_le hlinked index
  omega

end Ledger

theorem Represents.readFile {host : Host} {s : BbState} {m : Ledger}
    (h : Represents host s m) (hgrants : host.Grants) (hcovered : m.Covered)
    (hsize : m.table.All (·.length ≤ maxBlockSize)) {path : Path} {inode : Nat}
    (hpath : m.rootdir.resolve path = .ok inode) :
    Bbfs.readFile host s path =
      .ok (some ((m.rootdir.data inode).map m.table.data).flatten) := by
  have hlinked := Ledger.linked_of_resolve hpath
  have hvalid := h.valid inode
  have hblocks : ∀ content ∈ (m.rootdir.data inode).map m.table.data, IsBlock content := by
    intro content hcontent
    obtain ⟨index, hindex, rfl⟩ := List.mem_map.mp hcontent
    exact ⟨m.table.nulFree_data index, hsize.data (hvalid index hindex)⟩
  have hslots : (m.rootdir.data inode).length ≤ 99 * 999 :=
    length_le_of_count (fun index hindex => (hvalid index hindex).trans_le m.table.length_le)
      fun index => (hcovered.count_le hlinked index).trans (m.table.count_le index)
  have hlength := flatten_length_le fun content hcontent => (hblocks content hcontent).2
  rw [List.length_map, maxBlockSize] at hlength
  refine readFile_eq hgrants ((h.resolve_eq path).trans hpath) ?_ hblocks (by omega)
  rw [h.data_eq, entries_pointerBytes hvalid]
  exact h.stores.leads (hcovered.live hlinked)

end Ece318.Bbfs
