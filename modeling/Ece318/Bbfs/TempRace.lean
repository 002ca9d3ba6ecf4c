import Ece318.Foundation.Runs
import Ece318.Bbfs.Operations

/-!
# Two reads at once

Every `bb_read` hands its content over through `.real_storage/temp`.  Two
requests share the name, and as long as neither has removed it they share the
file behind it.  A request finds its own content there unless the other one has
truncated or overwritten the file since.
-/

namespace Ece318.Bbfs

open Ece318.Foundation

/-- The directory entry `temp` and the files it has led to; `next` is a free inode. -/
structure TempFile where
  name : Option Nat
  data : Nat → Bytes
  next : Nat

namespace TempFile

/-- `fopen(tempfile, "w+")` -/
def openTruncated (t : TempFile) : TempFile × Nat :=
  match t.name with
  | some file => ({ t with data := Function.update t.data file [] }, file)
  | none =>
      ({ name := some t.next, data := Function.update t.data t.next [], next := t.next + 1 },
        t.next)

def write (t : TempFile) (file : Nat) (block : Bytes) : TempFile :=
  { t with data := Function.update t.data file (writeAt (t.data file) block 0) }

def remove (t : TempFile) : TempFile := { t with name := none }

end TempFile

structure ReadRequest where
  path : Path
  size : Nat
  offset : Nat
  fh : Nat

/-- How far a `bb_read` has come, with what it holds. -/
inductive ReadPhase where
  | begin
  | assembled (block : Option Bytes)
  | opened (block : Option Bytes) (file : Nat)
  | written (block : Bytes) (file : Nat)
  | received (buf : Bytes)
  | finished (buf : Bytes)
  deriving DecidableEq, Repr

namespace ReadPhase

def file : ReadPhase → Option Nat
  | opened _ file | written _ file => some file
  | _ => none

def buffer : ReadPhase → Option Bytes
  | received buf | finished buf => some buf
  | _ => none

def left : ReadPhase → Nat
  | begin => 5
  | assembled _ => 4
  | opened _ _ => 3
  | written _ _ => 2
  | received _ => 1
  | finished _ => 0

end ReadPhase

structure Race where
  temp : TempFile
  phase : Bool → ReadPhase

def Race.start (temp : TempFile) : Race := ⟨temp, fun _ => .begin⟩

def Race.move (r : Race) (who : Bool) (temp : TempFile) (phase : ReadPhase) : Race :=
  ⟨temp, Function.update r.phase who phase⟩

section

variable (host : Host) (store : BbState) (requests : Bool → ReadRequest)

/-- The next step of one of the two requests, which have room for what they read back. -/
def moveRead (r : Race) (who : Bool) : Except Fault Race :=
  match r.phase who with
  | .begin =>
      (readFile host store (requests who).path).map fun block =>
        r.move who r.temp (.assembled block)
  | .assembled block =>
      if host.grants .bbRead then
        let (temp, file) := r.temp.openTruncated
        .ok (r.move who temp (.opened block file))
      else .ok (r.move who r.temp (.finished []))
  | .opened none _ =>
      let buf := readAt (store.rootdir.data (requests who).fh) (requests who).offset
        (requests who).size
      .ok (r.move who r.temp (.received buf))
  | .opened (some block) file =>
      .ok (r.move who (r.temp.write file block) (.written block file))
  | .written block file =>
      let buf := readAt (r.temp.data file) 0 block.length
      .ok (r.move who r.temp (.received buf))
  | .received buf => .ok (r.move who r.temp.remove (.finished buf))
  | .finished _ => .ok r

end

/-! ## What the other request does -/

inductive TempOp where
  | fopen
  | fwrite
  deriving DecidableEq, Repr

abbrev Since := Bool → List TempOp

def Since.record (since : Since) (r : Race) (who : Bool) (_ : Race) : Since :=
  match r.phase who with
  | .assembled _ => Function.update since (!who) (since (!who) ++ [.fopen])
  | .opened (some _) _ =>
      Function.update (Function.update since (!who) (since (!who) ++ [.fwrite])) who []
  | _ => since

/-- When `temp` still begins with a content after what another request has done. -/
def StillOwn (own other : Bytes) : List TempOp → Prop
  | [] => True
  | [.fwrite] => own <+: other ∨ other <+: own
  | [.fopen] => own = []
  | _ => own <+: other

instance (own other : Bytes) : ∀ ops, Decidable (StillOwn own other ops)
  | [] => .isTrue trivial
  | [.fwrite] => inferInstanceAs (Decidable (own <+: other ∨ other <+: own))
  | [.fopen] => inferInstanceAs (Decidable (own = []))
  | .fopen :: _ :: _ => inferInstanceAs (Decidable (own <+: other))
  | .fwrite :: _ :: _ => inferInstanceAs (Decidable (own <+: other))

/-- The step does not `pread` what has been spoiled. -/
def Unspoiled (contents : Bool → Bytes) (w : Race × Since) (who : Bool) : Prop :=
  match w.1.phase who with
  | .written _ _ => StillOwn (contents who) (contents (!who)) (w.2 who)
  | _ => True

/-! ## What the shared file holds -/

inductive Shows (own other : Bytes) (rival : ReadPhase) : Bytes → List TempOp → Prop
  | untouched {data : Bytes} (h : own <+: data) : Shows own other rival data []
  | truncated (h : rival.left = 3) : Shows own other rival [] [.fopen]
  | overwritten (rest : Bytes) (h : rival.left ≤ 2) :
      Shows own other rival (writeAt (own ++ rest) other 0) [.fwrite]
  | replaced (h : rival.left ≤ 2) : Shows own other rival other [.fopen, .fwrite]

structure Shares (temp : TempFile) (rival : ReadPhase) (file : Nat) : Prop where
  name : 4 ≤ rival.left → temp.name = some file
  same : ∀ other ∈ rival.file, other = file

def Seat (own other : Bytes) (temp : TempFile) (rival : ReadPhase) (since : List TempOp) :
    ReadPhase → Prop
  | .begin => True
  | .assembled block => block = some own
  | .opened block file => block = some own ∧ Shares temp rival file
  | .written block file =>
      block = own ∧ Shares temp rival file ∧ Shows own other rival (temp.data file) since
  | .received _ => True
  | .finished _ => True

def Seated (contents : Bool → Bytes) (w : Race × Since) : Prop :=
  ∀ who, Seat (contents who) (contents !who) w.1.temp (w.1.phase !who) (w.2 who)
    (w.1.phase who)

def OwnBuffers (contents : Bool → Bytes) (w : Race × Since) : Prop :=
  ∀ who, ∀ buf ∈ (w.1.phase who).buffer, buf = contents who

section

variable {own other data : Bytes} {since : List TempOp} {rival : ReadPhase}

theorem prefix_writeAt (file block : Bytes) : block <+: writeAt file block 0 := by
  by_cases hblock : block = []
  · simp [hblock]
  · simp [writeAt, hblock]

theorem readAt_zero_eq_iff {file : Bytes} :
    readAt file 0 own.length = own ↔ own <+: file := by
  rw [readAt, List.drop_zero, List.prefix_iff_eq_take, eq_comm]

theorem prefix_writeAt_append_iff (rest : Bytes) :
    own <+: writeAt (own ++ rest) other 0 ↔ own <+: other ∨ other <+: own := by
  by_cases hother : other = []
  · simp [writeAt, hother]
  · have hwritten : writeAt (own ++ rest) other 0 =
        other ++ (own ++ rest).drop other.length := by
      simp [writeAt, hother]
    rw [hwritten]
    constructor
    · intro h
      exact List.prefix_or_prefix_of_prefix h (List.prefix_append _ _)
    · rintro (h | ⟨tail, rfl⟩)
      · exact h.trans (List.prefix_append _ _)
      · simp

theorem Shows.readAt_eq_iff (h : Shows own other rival data since) :
    readAt data 0 own.length = own ↔ StillOwn own other since := by
  rw [readAt_zero_eq_iff]
  cases h with
  | untouched h => simp [StillOwn, h]
  | truncated h => simp [StillOwn]
  | overwritten rest h => exact prefix_writeAt_append_iff rest
  | replaced h => rfl

theorem Shows.fopen {block : Option Bytes} (file : Nat)
    (h : Shows own other (.assembled block) data since) :
    Shows own other (.opened block file) [] (since ++ [.fopen]) := by
  cases h with
  | untouched h => exact .truncated rfl
  | truncated h => simp [ReadPhase.left] at h
  | overwritten rest h => simp [ReadPhase.left] at h
  | replaced h => simp [ReadPhase.left] at h

theorem Shows.fwrite {block : Option Bytes} {file : Nat}
    (h : Shows own other (.opened block file) data since) :
    Shows own other (.written other file) (writeAt data other 0) (since ++ [.fwrite]) := by
  cases h with
  | untouched h =>
      rcases h with ⟨rest, rfl⟩
      exact .overwritten rest (by simp [ReadPhase.left])
  | truncated h =>
      rw [writeAt_nil]
      exact .replaced (by simp [ReadPhase.left])
  | overwritten rest h => simp [ReadPhase.left] at h
  | replaced h => simp [ReadPhase.left] at h

theorem Shows.later {rival' : ReadPhase} (h : Shows own other rival data since)
    (hopened : rival.left = 3 → rival'.left = 3) (hleft : rival.left ≤ 2 → rival'.left ≤ 2) :
    Shows own other rival' data since := by
  cases h with
  | untouched h => exact .untouched h
  | truncated h => exact .truncated (hopened h)
  | overwritten rest h => exact .overwritten rest (hleft h)
  | replaced h => exact .replaced (hleft h)

variable {temp : TempFile} {mine : ReadPhase}

theorem Shares.later {temp' : TempFile} {rival' : ReadPhase} {file : Nat}
    (h : Shares temp rival file) (hname : 4 ≤ rival'.left → temp'.name = temp.name)
    (hleft : rival'.left ≤ rival.left) (hfile : rival'.file = none) :
    Shares temp' rival' file where
  name := by
    intro hearly
    rw [hname hearly, h.name (by omega)]
  same := by simp [hfile]

theorem Seat.later {temp' : TempFile} {rival' : ReadPhase}
    (h : Seat own other temp rival since mine) (hdata : temp'.data = temp.data)
    (hname : 4 ≤ rival'.left → temp'.name = temp.name) (hopened : rival.left ≠ 3)
    (hleft : rival'.left ≤ rival.left) (hfile : rival'.file = none) :
    Seat own other temp' rival' since mine := by
  cases mine with
  | begin => trivial
  | assembled block => exact h
  | opened block file => exact ⟨h.1, h.2.later hname hleft hfile⟩
  | written block file =>
      rcases h with ⟨hblock, hshares, hshows⟩
      rw [← hdata] at hshows
      exact ⟨hblock, hshares.later hname hleft hfile,
        hshows.later (fun heq => absurd heq hopened) hleft.trans⟩
  | received buf => trivial
  | finished buf => trivial

theorem openTruncated_name (temp : TempFile) :
    temp.openTruncated.1.name = some temp.openTruncated.2 := by
  unfold TempFile.openTruncated
  split
  · assumption
  · rfl

theorem openTruncated_of_name {file : Nat} (h : temp.name = some file) :
    temp.openTruncated = ({ temp with data := Function.update temp.data file [] }, file) := by
  simp [TempFile.openTruncated, h]

@[simp] theorem openTruncated_data (temp : TempFile) :
    temp.openTruncated.1.data temp.openTruncated.2 = [] := by
  unfold TempFile.openTruncated
  split <;> simp

@[simp] theorem write_data (temp : TempFile) (file : Nat) (block : Bytes) :
    (temp.write file block).data file = writeAt (temp.data file) block 0 := by
  simp [TempFile.write]

theorem Seat.fopen {block : Option Bytes}
    (h : Seat own other temp (.assembled block) since mine) :
    Seat own other temp.openTruncated.1 (.opened block temp.openTruncated.2)
        (since ++ [.fopen]) mine ∧
      ∀ file ∈ mine.file, file = temp.openTruncated.2 := by
  cases mine with
  | begin => simp [Seat, ReadPhase.file]
  | assembled block => simpa [Seat, ReadPhase.file] using h
  | opened own' file =>
      rcases h with ⟨hblock, hshares⟩
      rw [openTruncated_of_name (hshares.name (by simp [ReadPhase.left]))]
      exact ⟨⟨hblock, by simp [ReadPhase.left], by simp [ReadPhase.file]⟩,
        by simp [ReadPhase.file]⟩
  | written own' file =>
      rcases h with ⟨hblock, hshares, hshows⟩
      rw [openTruncated_of_name (hshares.name (by simp [ReadPhase.left]))]
      refine ⟨⟨hblock, ⟨by simp [ReadPhase.left], by simp [ReadPhase.file]⟩, ?_⟩,
        by simp [ReadPhase.file]⟩
      simpa using hshows.fopen file
  | received buf => simp [Seat, ReadPhase.file]
  | finished buf => simp [Seat, ReadPhase.file]

theorem Seat.fwrite {file : Nat} (h : Seat own other temp (.opened (some other) file) since mine) :
    Seat own other (temp.write file other) (.written other file) (since ++ [.fwrite]) mine := by
  cases mine with
  | begin => trivial
  | assembled block => exact h
  | opened block own' =>
      rcases h with ⟨hblock, hshares⟩
      exact ⟨hblock, by simp [ReadPhase.left], hshares.same⟩
  | written block own' =>
      rcases h with ⟨hblock, hshares, hshows⟩
      obtain rfl : file = own' := hshares.same file rfl
      refine ⟨hblock, ⟨by simp [ReadPhase.left], hshares.same⟩, ?_⟩
      simpa [TempFile.write] using hshows.fwrite
  | received buf => trivial
  | finished buf => trivial

end

section

variable {contents : Bool → Bytes}

theorem seated_move (r : Race) (who : Bool) (temp : TempFile) (phase : ReadPhase)
    (since : Since) :
    Seated contents (r.move who temp phase, since) ↔
      Seat (contents who) (contents !who) temp (r.phase !who) (since who) phase ∧
        Seat (contents !who) (contents who) temp phase (since !who) (r.phase !who) := by
  cases who <;> simp [Seated, Race.move, Bool.forall_bool, and_comm]

theorem ownBuffers_iff (w : Race × Since) (who : Bool) :
    OwnBuffers contents w ↔
      (∀ buf ∈ (w.1.phase who).buffer, buf = contents who) ∧
        ∀ buf ∈ (w.1.phase !who).buffer, buf = contents !who := by
  cases who <;> simp [OwnBuffers, Bool.forall_bool, and_comm]

theorem ownBuffers_move (r : Race) (who : Bool) (temp : TempFile) (phase : ReadPhase)
    (since : Since) :
    OwnBuffers contents (r.move who temp phase, since) ↔
      (∀ buf ∈ phase.buffer, buf = contents who) ∧
        ∀ buf ∈ (r.phase !who).buffer, buf = contents !who := by
  rw [ownBuffers_iff _ who]
  simp [Race.move]

variable {host : Host} {store : BbState} {requests : Bool → ReadRequest}

theorem seated_step (hgrants : host.grants .bbRead = true)
    (hread : ∀ who, readFile host store (requests who).path = .ok (some (contents who)))
    (w : Race × Since) (who : Bool) (hseated : Seated contents w) :
    ∃ w', watch (moveRead host store requests) Since.record w who = .ok w' ∧
      Seated contents w' ∧
      (OwnBuffers contents w' ↔ OwnBuffers contents w ∧ Unspoiled contents w who) := by
  rcases w with ⟨r, since⟩
  have hmine := hseated who
  have hrival := hseated !who
  simp only [Bool.not_not] at hrival
  rw [ownBuffers_iff (r, since) who]
  cases hphase : r.phase who with
  | begin =>
      rw [hphase] at hrival
      refine ⟨_, by simp [watch, moveRead, hphase, hread, Except.map]; rfl, ?_, ?_⟩
      · rw [seated_move]
        refine ⟨rfl, ?_⟩
        simp only [Since.record, hphase]
        exact hrival.later rfl (by simp) (by simp [ReadPhase.left])
          (by simp [ReadPhase.left]) rfl
      · simp [ownBuffers_move, Unspoiled, hphase, ReadPhase.buffer]
  | assembled block =>
      rw [hphase] at hmine hrival
      refine ⟨_, by simp [watch, moveRead, hphase, hgrants, Except.map]; rfl, ?_, ?_⟩
      · rw [seated_move]
        simp only [Since.record, hphase, Function.update_self]
        rcases hrival.fopen with ⟨hrival', hfile⟩
        exact ⟨⟨hmine, fun _ => openTruncated_name r.temp, hfile⟩, hrival'⟩
      · simp [ownBuffers_move, Unspoiled, hphase, ReadPhase.buffer]
  | opened block file =>
      rw [hphase] at hmine hrival
      rcases hmine with ⟨rfl, hshares⟩
      refine ⟨_, by simp [watch, moveRead, hphase, Except.map]; rfl, ?_, ?_⟩
      · rw [seated_move]
        simp only [Since.record, hphase, Function.update_self]
        refine ⟨⟨rfl, ⟨hshares.name, hshares.same⟩, .untouched ?_⟩, ?_⟩
        · simpa [TempFile.write] using prefix_writeAt (r.temp.data file) (contents who)
        · simpa using hrival.fwrite
      · simp [ownBuffers_move, Unspoiled, hphase, ReadPhase.buffer]
  | written block file =>
      rw [hphase] at hmine hrival
      rcases hmine with ⟨rfl, hshares, hshows⟩
      refine ⟨_, by simp [watch, moveRead, hphase, Except.map]; rfl, ?_, ?_⟩
      · rw [seated_move]
        refine ⟨trivial, ?_⟩
        simp only [Since.record, hphase]
        exact hrival.later rfl (by simp) (by simp [ReadPhase.left])
          (by simp [ReadPhase.left]) rfl
      · rw [ownBuffers_move]
        simp only [Unspoiled, hphase, ReadPhase.buffer, Option.mem_def, Option.some.injEq,
          forall_eq', ← hshows.readAt_eq_iff]
        simp [and_comm]
  | received buf =>
      rw [hphase] at hrival
      refine ⟨_, by simp [watch, moveRead, hphase, Except.map]; rfl, ?_, ?_⟩
      · rw [seated_move]
        refine ⟨trivial, ?_⟩
        simp only [Since.record, hphase]
        exact hrival.later rfl (by simp [ReadPhase.left]) (by simp [ReadPhase.left])
          (by simp [ReadPhase.left]) rfl
      · simp [ownBuffers_move, Unspoiled, hphase, ReadPhase.buffer]
  | finished buf =>
      refine ⟨(r, since), by simp [watch, moveRead, hphase, Except.map, Since.record],
        hseated, ?_⟩
      rw [ownBuffers_iff (r, since) who]
      simp [Unspoiled, hphase]

theorem left_moveRead {r r' : Race} {who : Bool}
    (h : moveRead host store requests r who = .ok r') (i : Bool) :
    (r'.phase i).left ≤ (r.phase i).left - if who = i then 1 else 0 := by
  have hmoved : ∀ temp phase, phase.left ≤ (r.phase who).left - 1 →
      ((r.move who temp phase).phase i).left ≤
        (r.phase i).left - if who = i then 1 else 0 := by
    intro temp phase hleft
    by_cases hi : who = i
    · subst i
      simpa [Race.move] using hleft
    · simp [Race.move, hi, Function.update_of_ne (Ne.symm hi)]
  unfold moveRead at h
  split at h
  · rename_i hphase
    rcases map_eq_ok.mp h with ⟨block, -, rfl⟩
    exact hmoved _ _ (by simp [hphase, ReadPhase.left])
  · rename_i block hphase
    split at h
    · cases h
      exact hmoved _ _ (by simp [hphase, ReadPhase.left])
    · cases h
      exact hmoved _ _ (by simp [ReadPhase.left])
  · rename_i file hphase
    cases h
    exact hmoved _ _ (by simp [hphase, ReadPhase.left])
  · rename_i block file hphase
    cases h
    exact hmoved _ _ (by simp [hphase, ReadPhase.left])
  · rename_i block file hphase
    cases h
    exact hmoved _ _ (by simp [hphase, ReadPhase.left])
  · rename_i buf hphase
    cases h
    exact hmoved _ _ (by simp [ReadPhase.left])
  · rename_i buf hphase
    cases h
    by_cases hi : who = i
    · subst i
      simp [hphase, ReadPhase.left]
    · simp [hi]

theorem left_run {r final : Race} {schedule : List Bool}
    (h : run (moveRead host store requests) r schedule = .ok final) (who : Bool) :
    (final.phase who).left ≤ (r.phase who).left - schedule.count who := by
  induction schedule generalizing r with
  | nil =>
      cases h
      simp
  | cons mover schedule ih =>
      cases hmove : moveRead host store requests r mover with
      | error fault => simp [run, hmove] at h
      | ok next =>
          rw [run_cons _ hmove] at h
          have hrest := ih h
          have hfirst := left_moveRead hmove who
          simp only [List.count_cons, beq_iff_eq]
          omega

theorem ReadPhase.eq_finished_of_left {phase : ReadPhase} (h : phase.left = 0) :
    ∃ buf, phase = .finished buf := by
  cases phase with
  | finished buf => exact ⟨buf, rfl⟩
  | _ => simp [left] at h

theorem moveRead_alone (temp : TempFile) (who : Bool)
    (hroom : ∀ block, readFile host store (requests who).path = .ok (some block) →
      block.length ≤ (requests who).size) :
    (run (moveRead host store requests) (Race.start temp) (List.replicate 5 who)).map
        (fun r => r.phase who) =
      (bbRead host store (requests who).path (requests who).size (requests who).offset
        (requests who).fh).map fun answer => .finished answer.2.1 := by
  cases hread : readFile host store (requests who).path with
  | error fault =>
      simp [run, moveRead, Race.start, bbRead, hread, Except.map, bind, Except.bind]
  | ok block =>
      by_cases hgrants : host.grants .bbRead = true
      · cases block with
        | none =>
            simp [run, moveRead, Race.start, Race.move, bbRead, hread, hgrants, Except.map,
              bind, Except.bind, List.replicate, pure, Except.pure]
        | some block =>
            simp [run, moveRead, Race.start, Race.move, bbRead, hread, hgrants, Except.map,
              bind, Except.bind, List.replicate, pure, Except.pure, (hroom block hread).not_gt]
      · simp [run, moveRead, Race.start, Race.move, bbRead, hread, hgrants, Except.map,
              bind, Except.bind, List.replicate, pure, Except.pure]

/--
Two reads at once, step by step: both come to an end, and both have their own
content if and only if no `pread` finds it spoiled.
-/
theorem buffers_own_iff (hgrants : host.grants .bbRead = true)
    (hread : ∀ who, readFile host store (requests who).path = .ok (some (contents who)))
    (temp : TempFile) {schedule : List Bool} (hschedule : ∀ who, schedule.count who = 5) :
    ∃ w, run (watch (moveRead host store requests) Since.record)
        (Race.start temp, fun _ => []) schedule = .ok w ∧
      (∀ who, ∃ buf, w.1.phase who = .finished buf) ∧
      ((∀ who, w.1.phase who = .finished (contents who)) ↔
        Along (watch (moveRead host store requests) Since.record) (Unspoiled contents)
          (Race.start temp, fun _ => []) schedule) := by
  have hseated : Seated contents (Race.start temp, fun _ => []) := fun _ => trivial
  rcases run_good_iff_along (Seated contents) (OwnBuffers contents)
    (seated_step hgrants hread) hseated schedule with ⟨w, hrun, hgood⟩
  have hdone : ∀ who, ∃ buf, w.1.phase who = .finished buf := by
    intro who
    apply ReadPhase.eq_finished_of_left
    have hplain := run_watch (moveRead host store requests) Since.record
      (Race.start temp, fun _ => []) schedule
    rw [hrun] at hplain
    have hleft := left_run hplain.symm who
    simpa [hschedule who, Race.start, ReadPhase.left] using hleft
  refine ⟨w, hrun, hdone, ?_⟩
  have hstart : OwnBuffers contents (Race.start temp, fun _ => []) := by
    simp [OwnBuffers, Race.start, ReadPhase.buffer]
  rw [iff_true_intro hstart, true_and] at hgood
  rw [← hgood]
  constructor
  · intro hall who buf hbuf
    rw [hall who] at hbuf
    simpa [ReadPhase.buffer, eq_comm] using hbuf
  · intro hown who
    rcases hdone who with ⟨buf, hbuf⟩
    rw [hbuf, hown who buf (by simp [hbuf, ReadPhase.buffer])]

end

def twoFiles : List Request :=
  [.mknod "a", .write "a" [97] 0, .mknod "b", .write "b" [98] 0]

def twoReads : Bool → ReadRequest
  | false => ⟨"a", 1, 0, 0⟩
  | true => ⟨"b", 1, 0, 1⟩

def twoContents : Bool → Bytes
  | false => [97]
  | true => [98]

def inTurn : List Bool := [false, true, false, true, false, true, false, true, false, true]

theorem twoFiles_read :
    ∃ s, run (serve (.granting sampleSha1)) freshMount twoFiles = .ok s ∧
      ∀ who, readFile (.granting sampleSha1) s (twoReads who).path =
        .ok (some (twoContents who)) := by
  decide +kernel

theorem buffers_own_iff_twoFiles :
    ∃ s, run (serve (.granting sampleSha1)) freshMount twoFiles = .ok s ∧
      ∃ w, run (watch (moveRead (.granting sampleSha1) s twoReads) Since.record)
          (Race.start ⟨none, fun _ => [], 0⟩, fun _ => []) inTurn = .ok w ∧
        (∀ who, ∃ buf, w.1.phase who = .finished buf) ∧
        ((∀ who, w.1.phase who = .finished (twoContents who)) ↔
          Along (watch (moveRead (.granting sampleSha1) s twoReads) Since.record)
            (Unspoiled twoContents) (Race.start ⟨none, fun _ => [], 0⟩, fun _ => [])
            inTurn) := by
  obtain ⟨s, hok, hread⟩ := twoFiles_read
  exact ⟨s, hok, buffers_own_iff rfl hread _ (by decide)⟩

/-- The second request writes before the first one has read back. -/
theorem inTurn_mixes :
    ∃ s, run (serve (.granting sampleSha1)) freshMount twoFiles = .ok s ∧
      (∀ who, readFile (.granting sampleSha1) s (twoReads who).path =
        .ok (some (twoContents who))) ∧
      (∀ who, inTurn.count who = 5) ∧
      ∃ r, run (moveRead (.granting sampleSha1) s twoReads)
          (Race.start ⟨none, fun _ => [], 0⟩) inTurn = .ok r ∧
        r.phase false = .finished [98] ∧
        ¬ ∀ who, r.phase who = .finished (twoContents who) := by
  decide +kernel

end Ece318.Bbfs
