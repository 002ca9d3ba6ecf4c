import Ece318.Bbfs.Restarts

/-!
# A removal step by step

`bb_unlink` takes the references away entry by entry, and the name goes last.  What is
written to the hashes file is on the disk before anything else is touched, so between two
steps the disk holds what a `bb_unlink` that is stopped there leaves behind.
-/

namespace Ece318.Bbfs

open Ece318.Foundation

/-- How far a `bb_unlink` has come, with what it holds. -/
inductive UnlinkPhase where
  | waiting
  | reading (inode : Nat) (locals : DeleteLocals)
  | emptying (inode : Nat) (id usage : Bytes) (locals : DeleteLocals)
  | dropping (inode : Nat) (id usage : Bytes) (locals : DeleteLocals)
  | counting (inode : Nat) (id usage : Bytes) (locals : DeleteLocals)
  | closing
  | answered (retstat : Int)

structure UnlinkRun where
  store : BbState
  phase : UnlinkPhase

def countDown (s : BbState) (id usage : Bytes) (locals : DeleteLocals) :
    Except Fault (BbState × DeleteLocals) :=
  let hashesfile := (s.file .hashes).getD []
  let got := readAt hashesfile locals.position hashSize
  match fillArray locals.hash got hashSize with
  | none => .error .uninitialised
  | some hash =>
      let updatedHash := cString id ++ formatInt 2 (atoi usage - 1) ++ cString hash
      let position := locals.position + got.length
      let position := fseek position (position - lineTotalLength)
      .ok (s.setFile .hashes (writeAt hashesfile updatedHash position),
        { locals with
          position := position + updatedHash.length
          hash := some hash })

section

variable (host : Host) (fpath : Path)

/-- The next step of a `bb_unlink`. -/
def moveUnlink (r : UnlinkRun) (_ : Unit) : Except Fault UnlinkRun :=
  let s := r.store
  match r.phase with
  | .waiting =>
      match openFile host s .deleteHashes .hashes, openPath host s .deletePointers fpath with
      | none, none => .error .nullPointer
      | none, some _ => .ok ⟨s, .closing⟩
      | some _, none => .ok ⟨s, .closing⟩
      | some _, some inode => .ok ⟨s, .reading inode ⟨.start, 0, none, none⟩⟩
  | .reading inode locals =>
      let (id, pointersFile) :=
        locals.pointersFile.fread streamBuffer (s.rootdir.data inode) idLength
      if id.length ≠ idLength then .ok ⟨s, .closing⟩
      else
        let hashesfile := (s.file .hashes).getD []
        let position :=
          fseek locals.position ((atoi id - 1) * lineTotalLength + idLength)
        let got := readAt hashesfile position pointersCounterLength
        match fillArray locals.usage got pointersCounterLength with
        | none => .error .uninitialised
        | some usage =>
            let locals :=
              { locals with
                pointersFile := pointersFile
                position := position + got.length
                usage := some usage }
            .ok ⟨s, if atoi usage = 0 then .reading inode locals
              else if atoi usage = 1 then .emptying inode id usage locals
              else .counting inode id usage locals⟩
  | .emptying inode id usage locals =>
      match openPath host s .removePointers fpath with
      | none => .error .nullPointer
      | some emptied => .ok ⟨s.setPointers emptied [], .dropping inode id usage locals⟩
  | .dropping inode id usage locals =>
      .ok ⟨s.removeFile (.block (cString id)), .counting inode id usage locals⟩
  | .counting inode id usage locals =>
      (countDown s id usage locals).map fun (s, locals) => ⟨s, .reading inode locals⟩
  | .closing =>
      let (retstat, s) := logSyscall s
        (if host.mayUnlink then s.rootdir.unlink fpath else .error .accessDenied)
      .ok ⟨s, .answered retstat⟩
  | .answered _ => .ok r

end

/-! ## All the steps -/

section

variable {host : Host} {fpath : Path} {s : BbState} {inode : Nat} {id usage : Bytes}
  {locals : DeleteLocals} {r r' : UnlinkRun} {result : Except Fault UnlinkRun}

theorem deleteEntry_eq_countDown : deleteEntry host s fpath id usage locals =
    if atoi usage = 0 then .ok (s, locals)
    else (if atoi usage = 1 then dropBlock host s fpath id else .ok s).bind fun s =>
      countDown s id usage locals := by
  unfold deleteEntry countDown
  split
  · rfl
  · rfl

def Comes (host : Host) (fpath : Path) (r : UnlinkRun) (result : Except Fault UnlinkRun) : Prop :=
  ∃ steps, run (moveUnlink host fpath) r (List.replicate steps ()) = result

namespace Comes

theorem here : Comes host fpath r (.ok r) := ⟨0, rfl⟩

theorem step (hmove : moveUnlink host fpath r () = .ok r') (h : Comes host fpath r' result) :
    Comes host fpath r result := by
  obtain ⟨steps, hrun⟩ := h
  exact ⟨steps + 1, by rw [List.replicate_succ, run_cons _ hmove, hrun]⟩

theorem trans (hfirst : Comes host fpath r (.ok r')) (h : Comes host fpath r' result) :
    Comes host fpath r result := by
  obtain ⟨first, hrun⟩ := hfirst
  obtain ⟨second, hrest⟩ := h
  exact ⟨first + second, by rw [List.replicate_add, run_append _ hrun, hrest]⟩

theorem fault {fault : Fault} (hmove : moveUnlink host fpath r () = .error fault) :
    Comes host fpath r (.error fault) :=
  ⟨1, by simp [run, hmove]⟩

end Comes

theorem countDown_cases {s' : BbState} {locals' : DeleteLocals}
    (h : countDown s id usage locals = .ok (s', locals')) :
    (∃ hashesfile, s' = s.setFile .hashes hashesfile) ∧
      locals'.pointersFile = locals.pointersFile := by
  simp only [countDown] at h
  split at h
  · contradiction
  · cases h
    exact ⟨⟨_, rfl⟩, rfl⟩

def Rounds (host : Host) (fpath : Path) (inode fuel : Nat) : Prop :=
  ∀ s locals, s.rootdir.resolve fpath = .ok inode →
    (locals.pointersFile.unread (s.rootdir.data inode)).length < 3 * fuel + 3 →
      Comes host fpath ⟨s, .reading inode locals⟩
        ((deleteLoop host fpath inode fuel s locals).map fun s' => ⟨s', .closing⟩)

namespace Rounds

variable {fuel : Nat}

theorem counting (h : Rounds host fpath inode fuel) (hpath : s.rootdir.resolve fpath = .ok inode)
    (hleft : (locals.pointersFile.unread (s.rootdir.data inode)).length < 3 * fuel + 3) :
    Comes host fpath ⟨s, .counting inode id usage locals⟩
      (((countDown s id usage locals).bind fun (s, locals) =>
        deleteLoop host fpath inode fuel s locals).map fun s' => ⟨s', .closing⟩) := by
  cases hcount : countDown s id usage locals with
  | error fault => exact Comes.fault (by simp only [moveUnlink, hcount]; rfl)
  | ok counted =>
      obtain ⟨s', locals'⟩ := counted
      obtain ⟨⟨hashesfile, rfl⟩, hstream⟩ := countDown_cases hcount
      refine Comes.step (by simp only [moveUnlink, hcount]; rfl) (h _ _ hpath ?_)
      rw [hstream]
      exact hleft

theorem entry (h : Rounds host fpath inode fuel) (hpath : s.rootdir.resolve fpath = .ok inode)
    (hleft : (locals.pointersFile.unread (s.rootdir.data inode)).length < 3 * fuel + 3) :
    Comes host fpath ⟨s, if atoi usage = 0 then .reading inode locals
        else if atoi usage = 1 then .emptying inode id usage locals
        else .counting inode id usage locals⟩
      (((deleteEntry host s fpath id usage locals).bind fun (s, locals) =>
        deleteLoop host fpath inode fuel s locals).map fun s' => ⟨s', .closing⟩) := by
  rw [deleteEntry_eq_countDown]
  by_cases hzero : atoi usage = 0
  · rw [if_pos hzero, if_pos hzero]
    exact h s locals hpath hleft
  rw [if_neg hzero, if_neg hzero]
  by_cases hone : atoi usage = 1
  · rw [if_pos hone, if_pos hone, dropBlock]
    cases hopen : openPath host s .removePointers fpath with
    | none => exact Comes.fault (by simp only [moveUnlink, hopen])
    | some emptied =>
        refine Comes.step (by simp only [moveUnlink, hopen]; rfl) (Comes.step rfl ?_)
        refine h.counting ?_ ?_
        · simpa using hpath
        · -- what stdio has read ahead is all that is left of an emptied file
          by_cases heq : emptied = inode
          · simp only [BbState.rootdir_removeFile, BbState.rootdir_setPointers, heq,
              FileSystem.data_write, Function.update_self, ReadStream.unread_nil]
            rw [ReadStream.unread, List.length_append] at hleft
            omega
          · simpa [Function.update_of_ne (Ne.symm heq)] using hleft
  · rw [if_neg hone, if_neg hone]
    exact h.counting hpath hleft

theorem all (host : Host) (fpath : Path) (inode fuel : Nat) : Rounds host fpath inode fuel := by
  induction fuel with
  | zero =>
      intro s locals _ hleft
      refine Comes.step ?_ .here
      have hshort : (locals.pointersFile.fread 4096 (s.rootdir.data inode) 3).1.length ≠ 3 := by
        rw [ReadStream.fread_fst _ _ (by omega), List.length_take]
        omega
      simp only [moveUnlink]
      rw [if_pos hshort]
  | succ fuel ih =>
      intro s locals hpath hleft
      have hid := ReadStream.fread_fst (s.rootdir.data inode) locals.pointersFile
        (show 3 ≤ 4096 by omega)
      have hstream := ReadStream.fread_unread (s.rootdir.data inode) locals.pointersFile
        (show 3 ≤ 4096 by omega)
      rcases hread : locals.pointersFile.fread 4096 (s.rootdir.data inode) 3 with ⟨id, stream⟩
      rw [hread] at hid hstream
      rw [deleteLoop]
      by_cases hshort : id.length ≠ 3
      · simp only [hread, if_pos hshort]
        exact Comes.step (by simp only [moveUnlink, hread, if_pos hshort]) .here
      simp only [hread, if_neg hshort]
      cases hfill : fillArray locals.usage (readAt ((s.file .hashes).getD [])
          (fseek locals.position ((atoi id - 1) * lineTotalLength + idLength))
            pointersCounterLength) pointersCounterLength with
      | none => exact Comes.fault (by simp only [moveUnlink, hread, if_neg hshort, hfill])
      | some usage =>
          refine Comes.step (by simp only [moveUnlink, hread, if_neg hshort, hfill]; rfl) ?_
          refine ih.entry hpath ?_
          rw [hstream, List.length_drop]
          omega

end Rounds

theorem comes_of_deleteBlocks (host : Host) (s : BbState) (fpath : Path) :
    Comes host fpath ⟨s, .waiting⟩
      ((deleteBlocks host s fpath).map fun s' => ⟨s', .closing⟩) := by
  rw [deleteBlocks]
  cases hfile : openFile host s .deleteHashes .hashes with
  | none =>
      cases hopen : openPath host s .deletePointers fpath with
      | none => exact Comes.fault (by simp only [moveUnlink, hfile, hopen])
      | some inode => exact Comes.step (by simp only [moveUnlink, hfile, hopen]) .here
  | some hashesfile =>
      cases hopen : openPath host s .deletePointers fpath with
      | none => exact Comes.step (by simp only [moveUnlink, hfile, hopen]) .here
      | some inode =>
          refine Comes.step (by simp only [moveUnlink, hfile, hopen]; rfl) ?_
          refine Rounds.all host fpath inode _ s _ (resolve_of_openPath hopen) ?_
          simp only [ReadStream.unread, ReadStream.start, List.nil_append, List.drop_zero]
          omega

/-- Enough steps are the whole `bb_unlink`, with its answer or its fault. -/
theorem moveUnlink_alone (host : Host) (s : BbState) (fpath : Path) :
    Comes host fpath ⟨s, .waiting⟩
      ((bbUnlink host s fpath).map fun answer => ⟨answer.2, .answered answer.1⟩) := by
  have hdeletes := comes_of_deleteBlocks host s fpath
  cases hdelete : deleteBlocks host s fpath with
  | error fault =>
      have hunlink : bbUnlink host s fpath = .error fault := by
        simp only [bbUnlink, hdelete]
        rfl
      rw [hdelete] at hdeletes
      rw [hunlink]
      exact hdeletes
  | ok s' =>
      rw [hdelete] at hdeletes
      rw [bbUnlink_eq hdelete]
      exact hdeletes.trans (Comes.step rfl .here)

end

end Ece318.Bbfs
