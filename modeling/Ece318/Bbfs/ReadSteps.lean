import Ece318.Bbfs.AnyStore

/-!
# `read_file` step by step

`read_file` takes the size of a file first, opens the file again, and appends block after
block to an array of that size.  What it comes to depends on what its path leads to: the
node, the pointers in it, and the files of the blocks they name.  As long as that stays as
it is, the steps come to the same, whatever else moves between them.
-/

namespace Ece318.Bbfs

open Ece318.Foundation

/-- How far a `read_file` has come, with what it holds. -/
inductive FilePhase where
  | waiting
  | sizing (inode : Nat) (pointersFile : ReadStream) (st : Option Nat) (totalSize : Int)
  | sized (size : Int)
  | opened (inode : Nat) (size : Int)
  | appending (inode : Nat) (pointersFile : ReadStream) (left capacity : Nat)
      (fileData : Bytes)
  | answered (block : Option Bytes)
  deriving DecidableEq, Repr

def statSize (s : BbState) (id : Bytes) (st : Option Nat) : Option Nat :=
  match s.file (.block (cString id)) with
  | some content => some content.length
  | none => st

section

variable (host : Host) (fpath : Path) (s : BbState)

/-- The next step of a `read_file`; `read_block` is one step. -/
def moveFile : FilePhase → Except Fault FilePhase
  | .waiting =>
      match openPath host s .getRealSize fpath with
      | none => .ok (.sized 0)
      | some inode => .ok (.sizing inode .start none 0)
  | .sizing inode pointersFile st totalSize =>
      let (id, pointersFile) :=
        pointersFile.fread streamBuffer (s.rootdir.data inode) idLength
      if id.length < idLength then .ok (.sized totalSize)
      else
        match statSize s id st with
        | none => .error .uninitialised
        | some size => .ok (.sizing inode pointersFile (some size) (int32 (totalSize + size)))
  | .sized size =>
      match openPath host s .readFile fpath with
      | none => .ok (.answered none)
      | some inode => .ok (.opened inode size)
  | .opened inode size =>
      let numOfBlocks := (s.rootdir.data inode).length / idLength
      match malloc (size + 10) with
      | none => .ok (.answered none)
      | some capacity =>
          if capacity = 0 then .error .overflow
          else .ok (.appending inode .start numOfBlocks capacity [])
  | .appending _ _ 0 _ fileData => .ok (.answered (some fileData))
  | .appending inode pointersFile (left + 1) capacity fileData =>
      let (id, pointersFile) :=
        pointersFile.fread streamBuffer (s.rootdir.data inode) idLength
      if id.length ≠ idLength then .ok (.answered (some fileData))
      else do
        match ← readBlock host s id with
        | none => .error .nullPointer
        | some buffer =>
            let fileData := fileData ++ cString buffer
            if capacity < fileData.length + 1 then .error .overflow
            else .ok (.appending inode pointersFile left capacity fileData)
  | .answered block => .ok (.answered block)

/-! ## What the steps that are left come to -/

def readOpened (inode : Nat) (size : Int) : Except Fault (Option Bytes) :=
  withMalloc (size + 10) fun capacity =>
    if capacity = 0 then .error .overflow
    else (appendLoop host s capacity (entries idLength (s.rootdir.data inode)) []).map some

def readSized (size : Int) : Except Fault (Option Bytes) :=
  match openPath host s .readFile fpath with
  | none => .ok none
  | some inode => readOpened host s inode size

namespace FilePhase

def rest : FilePhase → Except Fault (Option Bytes)
  | waiting => readFile host s fpath
  | sizing inode pointersFile st totalSize =>
      (sizeLoop s (entries idLength (pointersFile.unread (s.rootdir.data inode))) st
        totalSize).bind (readSized host fpath s)
  | sized size => readSized host fpath s size
  | opened inode size => readOpened host s inode size
  | appending inode pointersFile left capacity fileData =>
      (appendLoop host s capacity
        ((entries idLength (pointersFile.unread (s.rootdir.data inode))).take left)
        fileData).map some
  | answered block => .ok block

def Follows : FilePhase → Prop
  | sizing inode pointersFile _ _ | appending inode pointersFile _ _ _ =>
      s.rootdir.resolve fpath = .ok inode ∧
        entries idLength (pointersFile.unread (s.rootdir.data inode)) <:+
          entries idLength (s.rootdir.data inode)
  | opened inode _ => s.rootdir.resolve fpath = .ok inode
  | waiting | sized _ | answered _ => True

def left (slots : Nat) : FilePhase → Nat
  | waiting => 2 * slots + 5
  | sizing inode pointersFile _ _ =>
      (entries idLength (pointersFile.unread (s.rootdir.data inode))).length + slots + 4
  | sized _ => slots + 3
  | opened _ _ => slots + 2
  | appending _ _ left _ _ => left + 1
  | answered _ => 0

end FilePhase

end

variable {host : Host} {fpath : Path} {s s' : BbState} {phase next : FilePhase}

theorem readFile_eq_bind :
    readFile host s fpath = (getRealSize host s fpath).bind (readSized host fpath s) := by
  rw [readFile]
  cases getRealSize host s fpath with
  | error fault => rfl
  | ok size =>
      simp only [bind, Except.bind, readSized]
      cases openPath host s .readFile fpath <;> rfl

theorem unread_start (data : Bytes) : ReadStream.start.unread data = data := by
  simp [ReadStream.unread, ReadStream.start]

/-! ## The rounds of the two loops -/

section

variable {inode left capacity : Nat} {pointersFile : ReadStream} {st : Option Nat}
  {totalSize size : Int} {id fileData : Bytes} {ids : List Bytes}

theorem fread_of_entries_nil {data : Bytes}
    (h : entries idLength (pointersFile.unread data) = []) :
    (pointersFile.fread streamBuffer data idLength).1.length < idLength := by
  rw [ReadStream.fread_fst _ _ (by decide), List.length_take]
  rcases Nat.lt_or_ge (pointersFile.unread data).length idLength with hshort | hfull
  · omega
  · rw [entries_cons (by decide) hfull] at h
    contradiction

theorem fread_of_entries_cons {data : Bytes}
    (h : entries idLength (pointersFile.unread data) = id :: ids) :
    (pointersFile.fread streamBuffer data idLength).1 = id ∧ id.length = idLength ∧
      entries idLength ((pointersFile.fread streamBuffer data idLength).2.unread data) = ids := by
  have hbuffer : idLength ≤ streamBuffer := by decide
  rw [ReadStream.fread_fst _ _ hbuffer, ReadStream.fread_unread _ _ hbuffer]
  rcases Nat.lt_or_ge (pointersFile.unread data).length idLength with hshort | hfull
  · rw [entries_of_short hshort] at h
    contradiction
  · rw [entries_cons (by decide) hfull] at h
    obtain ⟨rfl, rfl⟩ := List.cons.inj h
    exact ⟨rfl, by rw [List.length_take]; omega, rfl⟩

theorem moveFile_sizing_nil
    (h : entries idLength (pointersFile.unread (s.rootdir.data inode)) = []) :
    moveFile host fpath s (.sizing inode pointersFile st totalSize) =
      .ok (.sized totalSize) := by
  simp only [moveFile, if_pos (fread_of_entries_nil h)]

theorem moveFile_sizing_cons
    (h : entries idLength (pointersFile.unread (s.rootdir.data inode)) = id :: ids) :
    ∃ behind : ReadStream, entries idLength (behind.unread (s.rootdir.data inode)) = ids ∧
      moveFile host fpath s (.sizing inode pointersFile st totalSize) =
        (statSize s id st).elim (.error .uninitialised) fun size =>
          .ok (.sizing inode behind (some size) (int32 (totalSize + size))) := by
  obtain ⟨hid, hlength, hrest⟩ := fread_of_entries_cons h
  refine ⟨_, hrest, ?_⟩
  simp only [moveFile, hid, hlength, lt_irrefl, if_false]
  cases statSize s id st <;> rfl

theorem moveFile_appending_nil
    (h : (entries idLength (pointersFile.unread (s.rootdir.data inode))).take left = []) :
    moveFile host fpath s (.appending inode pointersFile left capacity fileData) =
      .ok (.answered (some fileData)) := by
  cases left with
  | zero => rfl
  | succ left =>
      have hnil := (List.take_eq_nil_iff.mp h).resolve_left (Nat.succ_ne_zero left)
      simp only [moveFile, if_pos (fread_of_entries_nil hnil).ne]

theorem moveFile_appending_cons
    (h : (entries idLength (pointersFile.unread (s.rootdir.data inode))).take left = id :: ids) :
    ∃ (behind : ReadStream) (fewer : Nat), left = fewer + 1 ∧
      entries idLength (pointersFile.unread (s.rootdir.data inode)) =
        id :: entries idLength (behind.unread (s.rootdir.data inode)) ∧
      (entries idLength (behind.unread (s.rootdir.data inode))).take fewer = ids ∧
      moveFile host fpath s (.appending inode pointersFile left capacity fileData) =
        (readBlock host s id).bind fun buffer =>
          buffer.elim (.error .nullPointer) fun buffer =>
            if capacity < (fileData ++ cString buffer).length + 1 then .error .overflow
            else .ok (.appending inode behind fewer capacity (fileData ++ cString buffer)) := by
  cases left with
  | zero => simp at h
  | succ fewer =>
      cases hentries : entries idLength (pointersFile.unread (s.rootdir.data inode)) with
      | nil => simp [hentries] at h
      | cons head behind =>
          rw [hentries, List.take_succ_cons] at h
          obtain ⟨rfl, htake⟩ := List.cons.inj h
          obtain ⟨hid, hlength, hrest⟩ := fread_of_entries_cons hentries
          refine ⟨_, fewer, rfl, by rw [hrest], by rw [hrest, htake], ?_⟩
          simp only [moveFile, hid, hlength, ne_eq, not_true_eq_false, if_false, bind, Except.bind]
          cases readBlock host s head with
          | error fault => rfl
          | ok buffer => cases buffer <;> rfl

theorem sizeLoop_cons :
    sizeLoop s (id :: ids) st totalSize = (statSize s id st).elim (.error .uninitialised)
      fun size => sizeLoop s ids (some size) (int32 (totalSize + size)) := by
  rw [sizeLoop, statSize]
  cases s.file (.block (cString id)) <;> cases st <;> rfl

theorem moveFile_rest (host : Host) (fpath : Path) (s : BbState) (phase : FilePhase) :
    (moveFile host fpath s phase).bind (FilePhase.rest host fpath s) =
      phase.rest host fpath s := by
  cases phase with
  | waiting =>
      rw [FilePhase.rest, readFile_eq_bind, moveFile, getRealSize]
      cases openPath host s .getRealSize fpath with
      | none => rfl
      | some inode =>
          simp only [Except.bind, FilePhase.rest, unread_start]
  | sizing inode pointersFile st totalSize =>
      rw [FilePhase.rest]
      cases hentries : entries idLength (pointersFile.unread (s.rootdir.data inode)) with
      | nil =>
          rw [moveFile_sizing_nil hentries]
          rfl
      | cons id ids =>
          obtain ⟨behind, hrest, hmove⟩ := moveFile_sizing_cons hentries
          rw [hmove, sizeLoop_cons]
          cases statSize s id st with
          | none => rfl
          | some size => simp only [Option.elim, Except.bind, FilePhase.rest, hrest]
  | sized size =>
      rw [moveFile, FilePhase.rest, readSized]
      cases openPath host s .readFile fpath <;> rfl
  | opened inode size =>
      rw [moveFile, FilePhase.rest, readOpened]
      cases hmalloc : malloc (size + 10) with
      | none =>
          rw [withMalloc_none hmalloc]
          rfl
      | some capacity =>
          rw [withMalloc_some hmalloc]
          by_cases hzero : capacity = 0
          · simp only [if_pos hzero]
            rfl
          · have hall : (entries idLength (s.rootdir.data inode)).take
                ((s.rootdir.data inode).length / idLength) =
                  entries idLength (s.rootdir.data inode) :=
              List.take_of_length_le (by rw [entries_length])
            simp only [if_neg hzero, Except.bind, FilePhase.rest, unread_start, hall]
  | appending inode pointersFile left capacity fileData =>
      rw [FilePhase.rest]
      cases htake : (entries idLength (pointersFile.unread (s.rootdir.data inode))).take left with
      | nil =>
          rw [moveFile_appending_nil htake]
          rfl
      | cons id ids =>
          obtain ⟨behind, fewer, -, -, hrest, hmove⟩ := moveFile_appending_cons htake
          rw [hmove, appendLoop]
          cases readBlock host s id with
          | error fault => rfl
          | ok buffer =>
              cases buffer with
              | none => rfl
              | some buffer =>
                  simp only [bind, Except.bind, Option.elim]
                  by_cases hfull : capacity < (fileData ++ cString buffer).length + 1
                  · rw [if_pos hfull, if_pos hfull]
                    rfl
                  · rw [if_neg hfull, if_neg hfull, ← hrest]
                    rfl
  | answered block => rfl

end

/-! ## Where a step leads -/

theorem FilePhase.Follows.start {inode : Nat} (h : s.rootdir.resolve fpath = .ok inode) :
    s.rootdir.resolve fpath = .ok inode ∧
      entries idLength (ReadStream.start.unread (s.rootdir.data inode)) <:+
        entries idLength (s.rootdir.data inode) :=
  ⟨h, by rw [unread_start]⟩

theorem resolve_of_openPath {call : FopenCall} {inode : Nat}
    (h : openPath host s call fpath = some inode) : s.rootdir.resolve fpath = .ok inode := by
  rw [openPath] at h
  split at h
  · cases hpath : s.rootdir.resolve fpath with
    | error errno => simp [hpath, Except.toOption] at h
    | ok found =>
        simp only [hpath, Except.toOption, Option.some.injEq] at h
        rw [h]
  · contradiction

theorem moveFile_next {slots : Nat} (h : phase.Follows fpath s)
    (hslots : ∀ inode, s.rootdir.resolve fpath = .ok inode →
      (entries idLength (s.rootdir.data inode)).length ≤ slots)
    (hmove : moveFile host fpath s phase = .ok next) :
    next.Follows fpath s ∧ next.left s slots ≤ phase.left s slots - 1 := by
  cases phase with
  | waiting =>
      rw [moveFile] at hmove
      cases hopen : openPath host s .getRealSize fpath with
      | none =>
          rw [hopen] at hmove
          obtain rfl := Except.ok.inj hmove
          exact ⟨trivial, by simp only [FilePhase.left]; omega⟩
      | some inode =>
          rw [hopen] at hmove
          obtain rfl := Except.ok.inj hmove
          have hresolve := resolve_of_openPath hopen
          have hle := hslots inode hresolve
          refine ⟨.start hresolve, ?_⟩
          simp only [FilePhase.left, unread_start]
          omega
  | sizing inode pointersFile st totalSize =>
      obtain ⟨hresolve, hsuffix⟩ := h
      cases hentries : entries idLength (pointersFile.unread (s.rootdir.data inode)) with
      | nil =>
          rw [moveFile_sizing_nil hentries] at hmove
          obtain rfl := Except.ok.inj hmove
          exact ⟨trivial, by simp only [FilePhase.left]; omega⟩
      | cons id ids =>
          obtain ⟨behind, hrest, hstep⟩ := moveFile_sizing_cons hentries
          rw [hstep] at hmove
          cases hstat : statSize s id st with
          | none => simp [hstat] at hmove
          | some size =>
              rw [hstat] at hmove
              obtain rfl := Except.ok.inj hmove
              rw [hentries] at hsuffix
              refine ⟨⟨hresolve, ?_⟩, ?_⟩
              · rw [hrest]
                exact (List.suffix_cons id ids).trans hsuffix
              · simp only [FilePhase.left, hrest, hentries, List.length_cons]
                omega
  | sized size =>
      rw [moveFile] at hmove
      cases hopen : openPath host s .readFile fpath with
      | none =>
          rw [hopen] at hmove
          obtain rfl := Except.ok.inj hmove
          exact ⟨trivial, Nat.zero_le _⟩
      | some inode =>
          rw [hopen] at hmove
          obtain rfl := Except.ok.inj hmove
          exact ⟨resolve_of_openPath hopen, by simp only [FilePhase.left]; omega⟩
  | opened inode size =>
      have hresolve : s.rootdir.resolve fpath = .ok inode := h
      have hle := hslots inode hresolve
      rw [entries_length] at hle
      rw [moveFile] at hmove
      cases hmalloc : malloc (size + 10) with
      | none =>
          simp only [hmalloc] at hmove
          obtain rfl := Except.ok.inj hmove
          exact ⟨trivial, Nat.zero_le _⟩
      | some capacity =>
          simp only [hmalloc] at hmove
          split at hmove
          · contradiction
          · obtain rfl := Except.ok.inj hmove
            exact ⟨.start hresolve, by simp only [FilePhase.left]; omega⟩
  | appending inode pointersFile left capacity fileData =>
      obtain ⟨hresolve, hsuffix⟩ := h
      cases htake : (entries idLength (pointersFile.unread (s.rootdir.data inode))).take left with
      | nil =>
          rw [moveFile_appending_nil htake] at hmove
          obtain rfl := Except.ok.inj hmove
          exact ⟨trivial, Nat.zero_le _⟩
      | cons id ids =>
          obtain ⟨behind, fewer, rfl, hentries, -, hstep⟩ := moveFile_appending_cons htake
          rw [hstep] at hmove
          cases hread : readBlock host s id with
          | error fault => simp [hread, Except.bind] at hmove
          | ok buffer =>
              cases buffer with
              | none => simp [hread, Except.bind] at hmove
              | some buffer =>
                  simp only [hread, Except.bind, Option.elim] at hmove
                  split at hmove
                  · contradiction
                  · obtain rfl := Except.ok.inj hmove
                    rw [hentries] at hsuffix
                    exact ⟨⟨hresolve, (List.suffix_cons id _).trans hsuffix⟩, le_rfl⟩
  | answered block =>
      obtain rfl := Except.ok.inj hmove
      exact ⟨trivial, Nat.zero_le _⟩

theorem FilePhase.answered_of_left_eq_zero {slots : Nat} (h : phase.left s slots = 0) :
    ∃ block, phase = .answered block := by
  cases phase with
  | answered block => exact ⟨block, rfl⟩
  | _ =>
      simp only [FilePhase.left] at h
      omega

theorem moveFile_alone {slots : Nat} (h : phase.Follows fpath s)
    (hslots : ∀ inode, s.rootdir.resolve fpath = .ok inode →
      (entries idLength (s.rootdir.data inode)).length ≤ slots)
    {steps : Nat} (hsteps : phase.left s slots ≤ steps) :
    run (fun phase (_ : Unit) => moveFile host fpath s phase) phase (List.replicate steps ()) =
      (phase.rest host fpath s).map .answered := by
  induction steps generalizing phase with
  | zero =>
      obtain ⟨block, rfl⟩ := FilePhase.answered_of_left_eq_zero (Nat.le_zero.mp hsteps)
      rfl
  | succ steps ih =>
      rw [List.replicate_succ, ← moveFile_rest, run]
      cases hmove : moveFile host fpath s phase with
      | error fault => rfl
      | ok next =>
          obtain ⟨hnext, hleft⟩ := moveFile_next h hslots hmove
          exact ih hnext (by omega)

/-! ## What a path leads to -/

/-- The node of a path, the pointers in it, and the files of the blocks they name. -/
def BbState.sight (s : BbState) (path : Path) :
    Except Errno (Nat × Bytes × List (Option Bytes)) :=
  (s.rootdir.resolve path).map fun inode =>
    (inode, s.rootdir.data inode, (entries idLength (s.rootdir.data inode)).map fun id =>
      s.file (.block (cString id)))

theorem sight_eq_iff {path : Path} : s'.sight path = s.sight path ↔
    s'.rootdir.resolve path = s.rootdir.resolve path ∧
      ∀ inode, s.rootdir.resolve path = .ok inode →
        s'.rootdir.data inode = s.rootdir.data inode ∧
          ∀ id ∈ entries idLength (s.rootdir.data inode),
            s'.file (.block (cString id)) = s.file (.block (cString id)) := by
  unfold BbState.sight
  constructor
  · intro h
    cases hbefore : s.rootdir.resolve path with
    | error errno =>
        cases hafter : s'.rootdir.resolve path with
        | error other =>
            rw [hbefore, hafter] at h
            exact ⟨congrArg Except.error (Except.error.inj h), fun inode hinode => by cases hinode⟩
        | ok found => simp [hbefore, hafter, Except.map] at h
    | ok inode =>
        cases hafter : s'.rootdir.resolve path with
        | error other => simp [hbefore, hafter, Except.map] at h
        | ok found =>
            rw [hbefore, hafter] at h
            obtain ⟨rfl, hrest⟩ := Prod.mk.inj (Except.ok.inj h)
            obtain ⟨hdata, hfiles⟩ := Prod.mk.inj hrest
            refine ⟨rfl, fun inode hinode => ?_⟩
            obtain rfl := Except.ok.inj hinode
            rw [hdata] at hfiles
            exact ⟨hdata, List.map_inj_left.mp hfiles⟩
  · rintro ⟨hresolve, hsame⟩
    rw [hresolve]
    cases hpath : s.rootdir.resolve path with
    | error errno => rfl
    | ok inode =>
        obtain ⟨hdata, hfiles⟩ := hsame inode hpath
        simp only [Except.map, hdata, List.map_inj_left.mpr hfiles]

theorem readFile_of_sight (hgrants : host.Grants) {path : Path}
    (h : s'.sight path = s.sight path) : readFile host s' path = readFile host s path := by
  obtain ⟨hresolve, hsame⟩ := sight_eq_iff.mp h
  exact readFile_congr hgrants hresolve (fun inode hinode => (hsame inode hinode).1)
    fun inode hinode => (hsame inode hinode).2

theorem moveFile_of_sight (hsight : s'.sight fpath = s.sight fpath) (h : phase.Follows fpath s) :
    moveFile host fpath s' phase = moveFile host fpath s phase := by
  obtain ⟨hresolve, hsame⟩ := sight_eq_iff.mp hsight
  have hopen : ∀ call, openPath host s' call fpath = openPath host s call fpath := fun call => by
    rw [openPath, openPath, hresolve]
  cases phase with
  | waiting => simp only [moveFile, hopen]
  | sized size => simp only [moveFile, hopen]
  | answered block => rfl
  | opened inode size => simp only [moveFile, (hsame inode h).1]
  | sizing inode pointersFile st totalSize =>
      obtain ⟨hdata, hfile⟩ := hsame inode h.1
      cases hentries : entries idLength (pointersFile.unread (s.rootdir.data inode)) with
      | nil => rw [moveFile_sizing_nil hentries, moveFile_sizing_nil (by rwa [hdata])]
      | cons id ids =>
          have hid : id ∈ entries idLength (s.rootdir.data inode) :=
            h.2.subset (by rw [hentries]; exact List.mem_cons_self)
          obtain ⟨hserved, -, -⟩ := fread_of_entries_cons hentries
          simp only [moveFile, hdata, hserved, statSize, hfile id hid]
  | appending inode pointersFile left capacity fileData =>
      obtain ⟨hdata, hfile⟩ := hsame inode h.1
      cases left with
      | zero => rfl
      | succ left =>
          cases hentries : entries idLength (pointersFile.unread (s.rootdir.data inode)) with
          | nil =>
              rw [moveFile_appending_nil (by rw [hdata, hentries, List.take_nil]),
                moveFile_appending_nil (by rw [hentries, List.take_nil])]
          | cons id ids =>
              have hid : id ∈ entries idLength (s.rootdir.data inode) :=
                h.2.subset (by rw [hentries]; exact List.mem_cons_self)
              obtain ⟨hserved, -, -⟩ := fread_of_entries_cons hentries
              simp only [moveFile, hdata, hserved, readBlock, openFile, hfile id hid]

end Ece318.Bbfs
