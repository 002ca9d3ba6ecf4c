import Ece318.Foundation.Runs
import Ece318.Bbfs.ReadSpec

/-!
# What `bb_read` puts into its buffer

`bb_read` copies the whole file to the front of the buffer, whatever window is
asked for, and returns the size asked for.  So it answers a request correctly
only if the request is for the whole file, or the file is empty.  Files of 2^31
bytes and more never get that far: `read_file` overflows its array, or answers
NULL, and then `bb_read` copies a window of the pointers file.
-/

namespace Ece318.Bbfs

open Ece318.Foundation

/-- The window of a content, the number of its bytes returned, and no byte past `size`. -/
def ReturnsWindow (host : Host) (s : BbState) (path : Path) (fh : Nat) (content : Bytes)
    (size offset : Nat) : Prop :=
  ∃ answer, bbRead host s path size offset fh = .ok answer ∧
    answer.2.1 = readAt content offset size ∧ answer.2.1.length ≤ size ∧
      answer.1 = answer.2.1.length

def readRequests (host : Host) (path : Path) (fh : Nat) :
    BbState → Nat → List Nat → Except Fault (List Bytes)
  | _, _, [] => .ok []
  | s, offset, size :: sizes => do
      let (_, buf, s) ← bbRead host s path size offset fh
      let rest ← readRequests host path fh s (offset + size) sizes
      return buf :: rest

structure ReadsFile (s : BbState) (path : Path) (fh : Nat) (contents : List Bytes) : Prop where
  resolve_eq : s.rootdir.resolve path = .ok fh
  leads : Leads s (entries idLength (s.rootdir.data fh)) contents
  blocks : ∀ content ∈ contents, IsBlock content

instance (s : BbState) (path : Path) (fh : Nat) (contents : List Bytes) :
    Decidable (ReadsFile s path fh contents) :=
  have : Decidable (Leads s (entries idLength (s.rootdir.data fh)) contents) :=
    inferInstanceAs (Decidable (List.Forall₂ _ _ _))
  have : ∀ content, Decidable (IsBlock content) := fun _ => inferInstanceAs (Decidable (_ ∧ _))
  decidable_of_iff (s.rootdir.resolve path = .ok fh ∧
      Leads s (entries idLength (s.rootdir.data fh)) contents ∧
        ∀ content ∈ contents, IsBlock content)
    ⟨fun h => ⟨h.1, h.2.1, h.2.2⟩, fun h => ⟨h.resolve_eq, h.leads, h.blocks⟩⟩

section

variable {host : Host} {s : BbState} {path : Path} {fh : Nat} {contents : List Bytes}

theorem ReadsFile.congr (h : ReadsFile s path fh contents) {s' : BbState}
    (hrootdir : s'.rootdir = s.rootdir)
    (hblock : ∀ id, s'.file (.block id) = s.file (.block id)) :
    ReadsFile s' path fh contents where
  resolve_eq := by rw [hrootdir, h.resolve_eq]
  leads := by
    rw [hrootdir]
    exact h.leads.imp fun id content hfile => (hblock (cString id)).trans hfile
  blocks := h.blocks

theorem ReadsFile.temp (h : ReadsFile s path fh contents) (content : Bytes) :
    ReadsFile (((s.setFile .temp []).setFile .temp content).removeFile .temp)
      path fh contents :=
  h.congr rfl (by simp)

theorem ReadsFile.temp_null (h : ReadsFile s path fh contents) :
    ReadsFile ((s.setFile .temp []).removeFile .temp) path fh contents :=
  h.congr rfl (by simp)

/-! ## One request -/

theorem bbRead_of_readFile (hgrants : host.Grants) {content : Bytes}
    (hread : readFile host s path = .ok (some content)) (size offset fh : Nat) :
    bbRead host s path size offset fh =
      if size < content.length then .error .overflow
      else .ok (int32 size, content,
        ((s.setFile .temp []).setFile .temp content).removeFile .temp) := by
  rw [bbRead, hread]
  simp only [bind, Except.bind, pure, Except.pure, hgrants.fopen, if_true,
    BbState.file_setFile, writeAt_nil, Option.getD_some, readAt_self]

theorem bbRead_eq (hgrants : host.Grants) (h : ReadsFile s path fh contents)
    (hlength : contents.flatten.length < 2 ^ 31) {size : Nat}
    (hroom : contents.flatten.length ≤ size) (offset : Nat) :
    ∃ s', bbRead host s path size offset fh = .ok (int32 size, contents.flatten, s') ∧
      ReadsFile s' path fh contents ∧ s'.rootdir = s.rootdir := by
  refine ⟨_, ?_, h.temp contents.flatten, rfl⟩
  have hread := readFile_eq hgrants h.resolve_eq h.leads h.blocks hlength
  rw [bbRead_of_readFile hgrants hread, if_neg hroom.not_gt]

theorem bbRead_overrun (hgrants : host.Grants) (h : ReadsFile s path fh contents)
    (hlength : contents.flatten.length < 2 ^ 31) {size : Nat}
    (hroom : size < contents.flatten.length) (offset : Nat) :
    bbRead host s path size offset fh = .error .overflow := by
  have hread := readFile_eq hgrants h.resolve_eq h.leads h.blocks hlength
  rw [bbRead_of_readFile hgrants hread, if_pos hroom]

theorem bbRead_null (hgrants : host.Grants) (h : ReadsFile s path fh contents)
    (hlength : int32 contents.flatten.length < -10) (size offset : Nat) :
    ∃ s', bbRead host s path size offset fh =
        .ok (int32 size, readAt (s.rootdir.data fh) offset size, s') ∧
      ReadsFile s' path fh contents ∧ s'.rootdir = s.rootdir := by
  refine ⟨_, ?_, h.temp_null, rfl⟩
  rw [bbRead, readFile_null hgrants h.resolve_eq h.leads hlength]
  simp only [bind, Except.bind, hgrants.fopen, if_true]
  rfl

theorem bbRead_overflow (hgrants : host.Grants) (h : ReadsFile s path fh contents)
    (hlength : 2 ^ 31 ≤ contents.flatten.length)
    (hwrapped : -10 ≤ int32 contents.flatten.length) (size offset : Nat) :
    bbRead host s path size offset fh = .error .overflow := by
  rw [bbRead, readFile_overflow hgrants h.resolve_eq h.leads h.blocks hlength hwrapped]
  rfl

/-! ## Requests that follow one another -/

theorem readRequests_eq (hgrants : host.Grants) (h : ReadsFile s path fh contents)
    (hlength : contents.flatten.length < 2 ^ 31) (offset : Nat) {sizes : List Nat}
    (hroom : ∀ size ∈ sizes, contents.flatten.length ≤ size) :
    readRequests host path fh s offset sizes =
      .ok (List.replicate sizes.length contents.flatten) := by
  induction sizes generalizing s offset with
  | nil => rfl
  | cons size sizes ih =>
      rw [List.forall_mem_cons] at hroom
      obtain ⟨s', hread, hs', -⟩ := bbRead_eq hgrants h hlength hroom.1 offset
      simp only [readRequests, hread, bind, Except.bind, ih hs' _ hroom.2]
      rfl

theorem readRequests_overrun (hgrants : host.Grants) (h : ReadsFile s path fh contents)
    (hlength : contents.flatten.length < 2 ^ 31) (offset : Nat) {sizes : List Nat}
    (hroom : ∃ size ∈ sizes, size < contents.flatten.length) :
    readRequests host path fh s offset sizes = .error .overflow := by
  induction sizes generalizing s offset with
  | nil => simp at hroom
  | cons size sizes ih =>
      rcases Nat.lt_or_ge size contents.flatten.length with hshort | hfits
      · simp only [readRequests, bbRead_overrun hgrants h hlength hshort, bind, Except.bind]
      · rw [List.exists_mem_cons_iff] at hroom
        obtain ⟨s', hread, hs', -⟩ := bbRead_eq hgrants h hlength hfits offset
        simp only [readRequests, hread, bind, Except.bind,
          ih hs' _ (hroom.resolve_left hfits.not_gt)]

theorem readRequests_null (hgrants : host.Grants) (h : ReadsFile s path fh contents)
    (hlength : int32 contents.flatten.length < -10) (offset : Nat) (sizes : List Nat) :
    ∃ pieces, readRequests host path fh s offset sizes = .ok pieces ∧
      pieces.flatten = readAt (s.rootdir.data fh) offset sizes.sum := by
  induction sizes generalizing s offset with
  | nil => exact ⟨[], rfl, by simp [readAt]⟩
  | cons size sizes ih =>
      obtain ⟨s', hread, hs', hrootdir⟩ := bbRead_null hgrants h hlength size offset
      obtain ⟨pieces, hrest, hflatten⟩ := ih hs' (offset + size)
      refine ⟨readAt (s.rootdir.data fh) offset size :: pieces, ?_, ?_⟩
      · simp only [readRequests, hread, bind, Except.bind, hrest]
        rfl
      · rw [List.flatten_cons, hflatten, hrootdir, List.sum_cons]
        simp only [readAt, ← List.drop_drop, ← List.take_add]

theorem flatten_replicate_eq_iff {content : Bytes} {sizes : List Nat}
    (hcover : content.length ≤ sizes.sum) :
    (List.replicate sizes.length content).flatten = content ↔
      content = [] ∨ sizes.length = 1 := by
  constructor
  · intro heq
    rcases Nat.lt_trichotomy sizes.length 1 with hzero | hone | hmany
    · have hnil : sizes = [] := List.eq_nil_of_length_eq_zero (by omega)
      rw [hnil, List.sum_nil] at hcover
      exact .inl (List.eq_nil_of_length_eq_zero (by omega))
    · exact .inr hone
    · left
      have hlength := congrArg List.length heq
      rw [List.length_flatten, List.map_replicate, List.sum_replicate_nat] at hlength
      refine List.eq_nil_of_length_eq_zero ?_
      by_contra hpos
      have hmore : 2 * content.length ≤ sizes.length * content.length :=
        Nat.mul_le_mul_right _ hmany
      omega
  · rintro (rfl | hone)
    · simp
    · simp [hone]

end

theorem readAt_eq_self_iff {content : Bytes} {size offset : Nat}
    (hsize : content.length ≤ size) :
    content = readAt content offset size ↔ offset = 0 ∨ content = [] := by
  constructor
  · intro heq
    by_contra hnot
    rw [not_or] at hnot
    have hlength := congrArg List.length heq
    have hpos := List.length_pos_iff.mpr hnot.2
    rw [readAt_length] at hlength
    omega
  · rintro (rfl | rfl)
    · simp [readAt, List.take_of_length_le hsize]
    · simp [readAt]

/-- When a request is answered with the window it asks for. -/
def WindowHolds (pointers content : Bytes) (size offset : Nat) : Prop :=
  (content.length < 2 ^ 31 ∧ int32 size = content.length ∧ (offset = 0 ∨ content = [])) ∨
    (2 ^ 31 ≤ content.length ∧ int32 content.length < -10 ∧
      readAt pointers offset size = readAt content offset size ∧
      int32 size = (readAt content offset size).length)

def PiecesHold (pointers content : Bytes) (sizes : List Nat) : Prop :=
  (content.length < 2 ^ 31 ∧ (content = [] ∨ sizes.length = 1)) ∨
    (2 ^ 31 ≤ content.length ∧ int32 content.length < -10 ∧
      readAt pointers 0 sizes.sum = content)

theorem le_of_int32_eq {size length : Nat} (h : int32 size = length) : length ≤ size := by
  unfold int32 at h
  rw [Int.bmod_def] at h
  split at h <;> omega

def twoBlockRun : List Request := [.mknod "f", .write "f" [97] 0, .write "f" [98] 4069]

theorem twoBlockRun_reads :
    ∃ s, run (serve (.granting sampleSha1)) freshMount twoBlockRun = .ok s ∧
      ReadsFile s "f" 0 [[97], [98]] := by
  decide +kernel

end Ece318.Bbfs
