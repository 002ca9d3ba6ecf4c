import Ece318.Bbfs.Attributes

/-!
# A read that is overtaken

`read_file` makes its array when it has taken the size, and fills it from the file that it
opens afterwards.  Requests that are served in between are in what it appends and not in
the size of the array, so the read brings the new content as long as that has not grown past
the spare bytes, and writes over the end of the array when it has.
-/

namespace Ece318.Bbfs

open Ece318.Foundation

section

variable {host : Host} {contents : Set Bytes} {s : BbState} {files : PathMap} {path : Path}
  {inode : Nat} {pointersFile : ReadStream} {st : Option Nat} {totalSize size : Int}
  {blocks : List Bytes}

theorem moveFile_sizing {ids : List Bytes}
    (hids : entries idLength (pointersFile.unread (s.rootdir.data inode)) = ids)
    (hsize : sizeLoop s ids st totalSize = .ok size) :
    ∃ steps, run (fun phase (_ : Unit) => moveFile host path s phase)
      (.sizing inode pointersFile st totalSize) (List.replicate steps ()) =
        .ok (.sized size) := by
  induction ids generalizing pointersFile st totalSize with
  | nil =>
      obtain rfl := Except.ok.inj hsize
      exact ⟨1, by rw [List.replicate_one, run_cons _ (moveFile_sizing_nil hids)]; rfl⟩
  | cons id ids ih =>
      obtain ⟨behind, hrest, hmove⟩ := moveFile_sizing_cons hids
      rw [sizeLoop_cons] at hsize
      cases hstat : statSize s id st with
      | none =>
          rw [hstat] at hsize
          contradiction
      | some found =>
          rw [hstat] at hsize hmove
          obtain ⟨steps, hrun⟩ := ih hrest hsize
          exact ⟨steps + 1, by rw [List.replicate_succ, run_cons _ hmove, hrun]⟩

theorem moveFile_sized (hsize : getRealSize host s path = .ok size) :
    ∃ steps, run (fun phase (_ : Unit) => moveFile host path s phase) .waiting
      (List.replicate steps ()) = .ok (.sized size) := by
  rw [getRealSize] at hsize
  cases hopen : openPath host s .getRealSize path with
  | none =>
      rw [hopen] at hsize
      obtain rfl := Except.ok.inj hsize
      exact ⟨1, by simp only [List.replicate_one, run, moveFile, hopen]⟩
  | some inode =>
      rw [hopen] at hsize
      obtain ⟨steps, hrun⟩ := moveFile_sizing (by rw [unread_start]) hsize
      refine ⟨steps + 1, ?_⟩
      rw [List.replicate_succ, run_cons _ (by rw [moveFile, hopen]), hrun]

theorem Carries.readSized_eq (h : Carries host contents s files) (hgrants : host.Grants)
    {size : Nat} (hpath : files path = some blocks) (hlimit : size + 10 < 2 ^ 31) :
    readSized host path s size = if blocks.flatten.length < size + 10
      then .ok (some blocks.flatten) else .error .overflow := by
  obtain ⟨inode, hresolve, -, -, hleads, hblocks, hlength⟩ := h.leads hpath
  have hmalloc : malloc ((size : Int) + 10) = some (size + 10) := by
    have hcast : (size : Int) + 10 = (size + 10 : Nat) := by push_cast; rfl
    rw [hcast, malloc_of_lt (by omega)]
  simp only [readSized, openPath_of_resolve hgrants hresolve, readOpened,
    withMalloc_some hmalloc, Nat.add_eq_zero_iff, OfNat.ofNat_ne_zero, and_false, if_false]
  split_ifs with hfits
  · rw [appendLoop_eq hgrants hleads (fun content hcontent => (hblocks content hcontent).1)
      (fun content hcontent => (hblocks content hcontent).length_lt) (by simpa using hfits)]
    rfl
  · rw [appendLoop_overflow hgrants hleads hblocks (by simp) (by simpa using hfits)]
    rfl

end

/-- What a read of so many bytes may answer once the path has these blocks. -/
def overtakenAnswer (size : Nat) : Option (List Bytes) → Except Fault (Option Bytes)
  | none => .ok none
  | some blocks =>
      if blocks.flatten.length < size + 10 then .ok (some blocks.flatten) else .error .overflow

/--
Requests are served after a read has taken the size of its file, to that file or to others,
and then the read goes on.  It answers with the content as it is now, or with NULL if the path
is gone, and writes over the end of its array if and only if the content has grown by ten
bytes or more.
-/
theorem overtaken_read (sha1 : Bytes → Vector UInt8 20) (events : List Event)
    (requests : List Request)
    (hinj : Set.InjOn sha1 (handedOver (events ++ requests.map .request)))
    (hrun : Along (serveEvent (.granting sha1)) (Resumable (.granting sha1)) freshMount
      (events ++ requests.map .request)) {path : Path} {blocks : List Bytes}
    (hpath : events.foldl PathMap.serveEvent .empty path = some blocks) :
    ∃ s s' steps more, run (serveEvent (.granting sha1)) freshMount events = .ok s ∧
      run (serveEvent (.granting sha1)) s (requests.map .request) = .ok s' ∧
      run (fun phase (_ : Unit) => moveFile (.granting sha1) path s phase) .waiting
        (List.replicate steps ()) = .ok (.sized blocks.flatten.length) ∧
      run (fun phase (_ : Unit) => moveFile (.granting sha1) path s' phase)
        (.sized blocks.flatten.length) (List.replicate more ()) =
          (overtakenAnswer blocks.flatten.length ((events ++ requests.map Event.request).foldl
            PathMap.serveEvent .empty path)).map .answered := by
  have hgrants := Host.granting_grants sha1
  obtain ⟨s, hok, hcarries⟩ := session_carries hgrants hinj
    (handedOver_mono (List.subset_append_left _ _)) hrun.of_append
  obtain ⟨s', hok', hcarries'⟩ := session_carries hgrants hinj Set.Subset.rfl hrun
  rw [run_append _ hok] at hok'
  obtain ⟨-, -, -, -, -, -, hlimit⟩ := hcarries.leads hpath
  obtain ⟨steps, hsized⟩ := moveFile_sized (hcarries.getRealSize_eq hgrants hpath)
  have hfollows : (FilePhase.sized blocks.flatten.length).Follows path s' := trivial
  have halone : run (fun phase (_ : Unit) => moveFile (.granting sha1) path s' phase)
      (.sized blocks.flatten.length) (List.replicate _ ()) = _ :=
    moveFile_alone hfollows (hcarries'.entries_length_le path) (Nat.le_refl _)
  refine ⟨s, s', steps, _, hok, hok', hsized, halone.trans ?_⟩
  rw [FilePhase.rest]
  congr 1
  cases hafter : (events ++ requests.map Event.request).foldl PathMap.serveEvent .empty path with
  | none =>
      rw [overtakenAnswer, readSized,
        openPath_of_error hgrants (hcarries'.resolve_of_none hafter).1]
  | some blocks' => rw [hcarries'.readSized_eq hgrants hafter hlimit, overtakenAnswer]

def growingRequests : List Request :=
  (List.range 10).map fun slot => .write "a" [98] (4069 * (slot + 1))

def shortSession : List Event := [.request (.mknod "a"), .request (.write "a" [97] 0)]

theorem handedOver_shortSession :
    handedOver (shortSession ++ growingRequests.map .request) ⊆ {[97], [98]} := by
  rintro content (⟨path, buf, offset, hmem, rfl⟩ | ⟨buf, steps, hmem, rfl⟩)
  · simp only [shortSession, growingRequests, List.map_map, List.cons_append, List.nil_append,
      List.mem_cons, Event.request.injEq, Request.write.injEq, List.mem_map, Function.comp_apply,
      reduceCtorEq, false_or] at hmem
    rcases hmem with ⟨-, rfl, -⟩ | ⟨slot, -, -, rfl, -⟩ <;> decide
  · simp [shortSession, growingRequests] at hmem

theorem overtaken_read_shortSession :
    ∃ s s' steps more, run (serveEvent (.granting sampleSha1)) freshMount shortSession = .ok s ∧
      run (serveEvent (.granting sampleSha1)) s (growingRequests.map .request) = .ok s' ∧
      run (fun phase (_ : Unit) => moveFile (.granting sampleSha1) "a" s phase) .waiting
        (List.replicate steps ()) = .ok (.sized 1) ∧
      run (fun phase (_ : Unit) => moveFile (.granting sampleSha1) "a" s' phase) (.sized 1)
        (List.replicate more ()) = .error .overflow :=
  overtaken_read sampleSha1 shortSession growingRequests
    (sampleSha1_injOn.mono handedOver_shortSession) (by decide +kernel)
    (show shortSession.foldl PathMap.serveEvent .empty "a" = some [[97]] from rfl)

end Ece318.Bbfs
