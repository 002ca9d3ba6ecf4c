import Ece318.Bbfs.Remount

/-!
# What holds after any run

Here the requests may be any: writes with holes, truncations to any size,
counters that outgrow their two digits, removals of damaged files.  Still every
block file is a block of an id up to `last_id`, and the hashes file is long
enough to have a line for each of these.
-/

namespace Ece318.Bbfs

open Ece318.Foundation

structure Accounted (s : BbState) : Prop where
  block : ∀ id content, s.file (.block id) = some content →
    IsBlock content ∧ ∃ index < s.lastId, id = padDecimal 3 (index + 1)
  hashes_le : lineTotalLength * s.lastId ≤ ((s.file .hashes).getD []).length

theorem isBlock_cString {buf : Bytes} (h : buf.length ≤ maxBlockSize) : IsBlock (cString buf) :=
  ⟨cString_nulFree buf, (cString_length_le buf).trans h⟩

namespace Accounted

variable {host : Host} {s s' : BbState}

theorem freshMount : Accounted freshMount where
  block := by
    intro id content hfile
    cases hfile
  hashes_le := by decide

theorem of_file (h : Accounted s) (hlast : s'.lastId = s.lastId)
    (hfile : ∀ name, s'.file name = s.file name) : Accounted s' where
  block := by
    intro id content hcontent
    rw [hfile] at hcontent
    rw [hlast]
    exact h.block id content hcontent
  hashes_le := by
    rw [hlast, hfile]
    exact h.hashes_le

theorem logSyscall (h : Accounted s) (result : Except Errno (FileSystem Path Bytes)) :
    Accounted (Bbfs.logSyscall s result).2 :=
  h.of_file (lastId_logSyscall result) (file_logSyscall result)

theorem writesBlock (h : Accounted s) {data : Bytes} {id : Int} (hwrites : WritesBlock s s' data id)
    (hdata : IsBlock (cString data))
    (hgrown : ((s.file .hashes).getD []).length + lineTotalLength * (s'.lastId - s.lastId) ≤
      ((s'.file .hashes).getD []).length) : Accounted s' where
  block := by
    intro id content hcontent
    rcases hwrites.old_or_new with ⟨hlast, hfile⟩ | hadds
    · rw [hfile _ (by simp)] at hcontent
      rw [hlast]
      exact h.block id content hcontent
    · rw [hadds.file_eq _ (by simp)] at hcontent
      rw [hadds.lastId_eq]
      split at hcontent
      · rename_i hnew
        cases hcontent
        exact ⟨hdata, s.lastId, by omega, StorageFile.block.inj hnew⟩
      · obtain ⟨hblock, index, hlt, hid⟩ := h.block id content hcontent
        exact ⟨hblock, index, by omega, hid⟩
  hashes_le := by
    have hle := h.hashes_le
    have hmul := Nat.mul_sub lineTotalLength s'.lastId s.lastId
    omega

theorem writeBlocks (h : Accounted s) (hgrants : host.Grants) {buf text : Bytes}
    (hok : Bbfs.writeBlocks host s buf = .ok (text, s')) : Accounted s' := by
  rw [Bbfs.writeBlocks] at hok
  split at hok
  · contradiction
  · rename_i hsize
    obtain ⟨⟨id, written⟩, hgenerate, hok⟩ := bind_eq_ok.mp hok
    cases hok
    apply h.writesBlock (generateBlock_cases hgrants hgenerate)
    · rw [cString_append_nul]
      exact isBlock_cString (by omega)
    · exact generateBlock_hashes_length hgrants hgenerate

theorem deleteBlocks (h : Accounted s) {path : Path}
    (hok : Bbfs.deleteBlocks host s path = .ok s') :
    Accounted s' where
  block := by
    intro id content hcontent
    have hloses := deleteBlocks_loses hok
    rw [hloses.lastId_eq]
    rcases hloses.file (.block id) (by simp) with heq | hnone
    · exact h.block id content (heq ▸ hcontent)
    · rw [hnone] at hcontent
      cases hcontent
  hashes_le := by
    rw [(deleteBlocks_loses hok).lastId_eq]
    exact h.hashes_le.trans (deleteBlocks_hashes_length hok)

theorem serve (h : Accounted s) (hgrants : host.Grants) {request : Request}
    (hok : Bbfs.serve host s request = .ok s') : Accounted s' := by
  cases request with
  | write path buf offset =>
      simp only [Bbfs.serve] at hok
      split at hok
      · exact Except.ok.inj hok ▸ h
      · rw [map_eq_ok] at hok
        obtain ⟨answer, hok, rfl⟩ := hok
        obtain ⟨⟨text, written⟩, hblocks, hok⟩ := bind_eq_ok.mp hok
        obtain rfl := Except.ok.inj hok
        have hwritten := h.writeBlocks hgrants hblocks
        exact hwritten.of_file rfl fun _ => rfl
  | unlink path =>
      simp only [Bbfs.serve, map_eq_ok] at hok
      obtain ⟨answer, hok, rfl⟩ := hok
      obtain ⟨deleted, hdelete, hok⟩ := bind_eq_ok.mp hok
      cases hok
      exact (h.deleteBlocks hdelete).logSyscall _
  | truncate path newsize =>
      rw [← Except.ok.inj hok, bbTruncate]
      split
      · exact h.of_file rfl fun _ => rfl
      · exact h
  | mknod path => exact Except.ok.inj hok ▸ h.logSyscall _
  | rename path newpath => exact Except.ok.inj hok ▸ h.logSyscall _
  | link path newpath => exact Except.ok.inj hok ▸ h.logSyscall _
  | symlink path link => exact Except.ok.inj hok ▸ h.logSyscall _

theorem run (hgrants : host.Grants) {requests : List Request}
    (hok : Foundation.run (Bbfs.serve host) Bbfs.freshMount requests = .ok s) :
    Accounted s := by
  have hany : Along (Bbfs.serve host) (fun _ _ => True) Bbfs.freshMount requests :=
    .of_forall (fun _ _ _ => trivial) Bbfs.freshMount
  exact run_preserves Accounted (fun _ _ _ h _ hserve => h.serve hgrants hserve) .freshMount hany
    hok

end Accounted

end Ece318.Bbfs
