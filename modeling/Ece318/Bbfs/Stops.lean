import Ece318.Bbfs.ReadSteps
import Ece318.Bbfs.Remount
import Ece318.Bbfs.WriteRace

/-!
# Stopping inside a write

The program may be killed between two steps of `generate_block`, and the next mount
starts from the directories as they are then.  At that moment a write has touched the
hashes file and the file of the next block, and pointers files are written last, so
no file reads differently after the restart.
-/

namespace Ece318.Bbfs

open Ece318.Foundation

/-- A request, or the end of a mount and the start of the next one. -/
inductive Event where
  | request (request : Request)
  | restart
  /-- The program is killed in the `bb_write` of a buffer. -/
  | stop (buf : Bytes) (steps : Nat)
  deriving DecidableEq, Repr

section

variable (host : Host)

/-- The store after the first steps of `write_blocks`. -/
def stoppedWrite (s : BbState) (buf : Bytes) (steps : Nat) : Except Fault BbState :=
  if maxBlockSize < buf.length then .error .overflow
  else
    (run (moveWrite host fun _ : Unit => buf ++ [0]) (WriteRace.start s)
      (List.replicate steps ())).map WriteRace.store

def serveEvent (s : BbState) : Event → Except Fault BbState
  | .request request => serve host s request
  | .restart => .ok (mount s)
  | .stop buf steps => (stoppedWrite host s buf steps).map mount

end

def BbState.Whole (s : BbState) : Prop := ∀ index < s.lastId, s.file (blockOf index) ≠ none

instance (s : BbState) : Decidable s.Whole :=
  inferInstanceAs (Decidable (∀ index < s.lastId, s.file (blockOf index) ≠ none))

/-! ## What a write has touched when it is stopped -/

/-- The hashes file and the next block file may have changed, and nothing else has. -/
structure Touched (s s' : BbState) : Prop where
  rootdir_eq : s'.rootdir = s.rootdir
  hashes : s'.file .hashes ≠ none
  file_eq : ∀ name, name ≠ .hashes → name ≠ blockOf s.lastId → s'.file name = s.file name

namespace Touched

variable {s s' : BbState}

theorem setHashes (s : BbState) (hashesfile : Bytes) :
    Touched s (s.setFile .hashes hashesfile) :=
  ⟨rfl, by simp, fun name hname _ => by simp [hname]⟩

theorem hashes_again (h : Touched s s') (hashesfile : Bytes) :
    Touched s (s'.setFile .hashes hashesfile) where
  rootdir_eq := h.rootdir_eq
  hashes := by simp
  file_eq := by
    intro name hname hblock
    simpa [hname] using h.file_eq name hname hblock

theorem nextBlock (h : Touched s s') (content : Bytes) :
    Touched s (s'.setFile (blockOf s.lastId) content) where
  rootdir_eq := h.rootdir_eq
  hashes := by simpa using h.hashes
  file_eq := by
    intro name hname hblock
    simpa [hblock] using h.file_eq name hname hblock

theorem setLastId (h : Touched s s') (lastId : Nat) : Touched s (s'.setLastId lastId) :=
  ⟨h.rootdir_eq, h.hashes, h.file_eq⟩

end Touched

def Interrupted (s s' : BbState) : WritePhase → Prop
  | .waiting => s' = s
  | .found _ | .missed => Touched s s' ∧ s'.lastId = s.lastId
  | .created nextBlock | .recorded nextBlock =>
      Touched s s' ∧ s'.lastId = s.lastId ∧ nextBlock = blockOf s.lastId
  | .counted nextBlock => Touched s s' ∧ nextBlock = blockOf s.lastId
  | .answered _ => Touched s s'

section

variable {host : Host} {s s' : BbState} {r r' : WriteRace Unit} {data buf : Bytes} {steps : Nat}

theorem Touched.writeHash (h : Touched s s') {hash : Bytes} {id : Int} {written : BbState}
    (hwrite : writeHash host s' hash id = .ok written) :
    Touched s written ∧ written.lastId = s'.lastId := by
  rcases writeHash_cases hwrite with rfl | ⟨hashesfile, rfl⟩
  · exact ⟨h, rfl⟩
  · exact ⟨h.hashes_again hashesfile, rfl⟩

theorem interrupted_move (hgrants : host.Grants) (h : Interrupted s r.store (r.phase ()))
    (hmove : moveWrite host (fun _ => data) r () = .ok r') :
    Interrupted s r'.store (r'.phase ()) := by
  cases hphase : r.phase () with
  | waiting =>
      rw [hphase] at h
      obtain ⟨answer, -, hcompare⟩ :=
        compareHashes_eq (s := r.store) hgrants (generateHash host data)
      simp only [moveWrite, hphase, hcompare] at hmove
      cases hmove
      have htouched := Touched.setHashes s ((r.store.file .hashes).getD [])
      simp only [WriteRace.move, Function.update_self]
      rw [show r.store = s from h] at htouched ⊢
      split
      · exact ⟨htouched, rfl⟩
      · exact ⟨htouched, rfl⟩
  | found id =>
      rw [hphase] at h
      simp only [moveWrite, hphase, map_eq_ok] at hmove
      obtain ⟨written, hwrite, rfl⟩ := hmove
      simp only [WriteRace.move, Function.update_self]
      exact (h.1.writeHash hwrite).1
  | missed =>
      rw [hphase] at h
      have hnext : StorageFile.block (formatInt 3 ((r.store.lastId : Int) + 1)) =
          blockOf s.lastId := by rw [← h.2]; rfl
      simp only [moveWrite, hphase, hgrants.fopen, if_true, hnext] at hmove
      cases hmove
      simp only [WriteRace.move, Function.update_self]
      exact ⟨h.1.nextBlock [], h.2, rfl⟩
  | created nextBlock =>
      rw [hphase] at h
      simp only [moveWrite, hphase, map_eq_ok] at hmove
      obtain ⟨written, hwrite, rfl⟩ := hmove
      obtain ⟨htouched, hlast⟩ := h.1.writeHash hwrite
      simp only [WriteRace.move, Function.update_self]
      exact ⟨htouched, hlast.trans h.2.1, h.2.2⟩
  | recorded nextBlock =>
      rw [hphase] at h
      simp only [moveWrite, hphase] at hmove
      cases hmove
      simp only [WriteRace.move, Function.update_self]
      exact ⟨h.1.setLastId _, h.2.2⟩
  | counted nextBlock =>
      rw [hphase] at h
      obtain ⟨htouched, rfl⟩ := h
      simp only [moveWrite, hphase] at hmove
      cases hmove
      simp only [WriteRace.move, Function.update_self]
      exact htouched.nextBlock _
  | answered id =>
      simp only [moveWrite, hphase] at hmove
      cases hmove
      exact h

theorem Interrupted.touched {phase : WritePhase} (h : Interrupted s s' phase) :
    s' = s ∨ Touched s s' := by
  cases phase with
  | waiting => exact .inl h
  | found id => exact .inr h.1
  | missed => exact .inr h.1
  | created nextBlock => exact .inr h.1
  | recorded nextBlock => exact .inr h.1
  | counted nextBlock => exact .inr h.1
  | answered id => exact .inr h

theorem stoppedWrite_touched (hgrants : host.Grants)
    (h : stoppedWrite host s buf steps = .ok s') : s' = s ∨ Touched s s' := by
  unfold stoppedWrite at h
  split at h
  · contradiction
  · obtain ⟨r, hrun, rfl⟩ := map_eq_ok.mp h
    have hinterrupted : Interrupted s r.store (r.phase ()) := by
      refine run_preserves (fun r : WriteRace Unit => Interrupted s r.store (r.phase ()))
        ?_ ?_ (Along.of_forall (fun _ _ _ => trivial) _) hrun
      · rintro r ⟨⟩ r' h - hmove
        exact interrupted_move hgrants h hmove
      · rfl
    exact hinterrupted.touched

/-! ## The mount after a stop -/

theorem readFile_mount (hgrants : host.Grants) {path : Path} :
    readFile host (mount s) path = readFile host s path :=
  readFile_congr hgrants rfl (fun _ _ => rfl) fun _ _ _ _ => rfl

theorem Tidy.mount_eq (h : Tidy s) (hwhole : s.Whole) : mount s = s := by
  have hlast := h.lastId_mount_iff.mpr hwhole
  rw [mount, BbState.lastId_setLastId] at hlast
  rw [mount, hlast]
  rfl

theorem Tidy.touched (h : Tidy s) (htouched : Touched s s') {lastId : Nat}
    (hle : s.lastId ≤ lastId) (hnext : s'.file (blockOf s.lastId) ≠ none → s.lastId < lastId) :
    Tidy (s'.setLastId lastId) where
  hashes := fun _ => htouched.hashes
  known := by
    intro name hname
    rw [BbState.file_setLastId] at hname
    by_cases hhashes : name = .hashes
    · exact .inl hhashes
    · right
      by_cases hblock : name = blockOf s.lastId
      · exact ⟨s.lastId, hnext (hblock ▸ hname), hblock⟩
      · rw [htouched.file_eq name hhashes hblock] at hname
        obtain ⟨index, hlt, hindex⟩ := (h.known name hname).resolve_left hhashes
        exact ⟨index, hlt.trans_le hle, hindex⟩
  slots := by
    intro inode
    obtain ⟨slots, hslots, huniform, hold⟩ := h.slots inode
    rw [BbState.rootdir_setLastId, htouched.rootdir_eq]
    exact ⟨slots, hslots, huniform, fun slot hslot index hindex =>
      hold slot hslot index (hle.trans hindex)⟩

def BbState.nextLastId (s s' : BbState) : Nat :=
  if s'.file (blockOf s.lastId) = none then s.lastId else s.lastId + 1

theorem Tidy.touched_nextLastId (h : Tidy s) (htouched : Touched s s') :
    Tidy (s'.setLastId (s.nextLastId s')) := by
  unfold BbState.nextLastId
  split
  · rename_i hnone
    exact h.touched htouched le_rfl fun hsome => absurd hnone hsome
  · exact h.touched htouched (Nat.le_succ _) fun _ => Nat.lt_succ_self _

theorem Touched.whole_iff (htouched : Touched s s') :
    (s'.setLastId (s.nextLastId s')).Whole ↔ s.Whole := by
  have hold : ∀ index < s.lastId, s'.file (blockOf index) = s.file (blockOf index) :=
    fun index hindex => htouched.file_eq _ (by simp) fun heq => hindex.ne (blockOf_inj.mp heq)
  constructor
  · intro hwhole index hindex
    have hle : s.lastId ≤ s.nextLastId s' := by
      unfold BbState.nextLastId
      split <;> omega
    rw [← hold index hindex]
    exact hwhole index (hindex.trans_le hle)
  · intro hwhole index hindex
    simp only [BbState.lastId_setLastId, BbState.nextLastId] at hindex
    rw [BbState.file_setLastId]
    by_cases hlt : index < s.lastId
    · rw [hold index hlt]
      exact hwhole index hlt
    · split at hindex
      · omega
      · rename_i hsome
        obtain rfl : index = s.lastId := by omega
        exact hsome

theorem Tidy.mount_touched (h : Tidy s) (htouched : Touched s s') (hwhole : s.Whole) :
    mount s' = s'.setLastId (s.nextLastId s') :=
  (h.touched_nextLastId htouched).mount_eq (htouched.whole_iff.mpr hwhole)

theorem Tidy.stop (h : Tidy s) (hwhole : s.Whole) (hstop : s' = s ∨ Touched s s') :
    Tidy (mount s') ∧ (mount s').Whole := by
  rcases hstop with rfl | htouched
  · rw [h.mount_eq hwhole]
    exact ⟨h, hwhole⟩
  · rw [h.mount_touched htouched hwhole]
    exact ⟨h.touched_nextLastId htouched, htouched.whole_iff.mpr hwhole⟩

/-! ## Runs over several mounts -/

/--
Ids have three digits, pointers files keep whole entries, and no mount ends while a
block is missing.
-/
def Resumes (s : BbState) (event : Event) : Prop :=
  s.lastId ≤ 999 ∧
    match event with
    | .request request => request.KeepsEntries
    | .restart | .stop _ _ => s.Whole

instance (request : Request) : Decidable request.KeepsEntries :=
  match request with
  | .truncate _ newsize => inferInstanceAs (Decidable (newsize = 0))
  | .mknod _ | .write _ _ _ | .rename _ _ | .unlink _ | .link _ _ | .symlink _ _ => .isTrue trivial

instance (s : BbState) (event : Event) : Decidable (Resumes s event) :=
  match event with
  | .request request => inferInstanceAs (Decidable (s.lastId ≤ 999 ∧ request.KeepsEntries))
  | .restart | .stop _ _ => inferInstanceAs (Decidable (s.lastId ≤ 999 ∧ s.Whole))

theorem Tidy.serveEvent (h : Tidy s) (hgrants : host.Grants) {event : Event}
    (hresumes : Resumes s event) (hok : serveEvent host s event = .ok s')
    (hlimit : s'.lastId ≤ 999) : Tidy s' := by
  cases event with
  | request request => exact h.serve hgrants hresumes.2 hok hlimit
  | restart =>
      cases hok
      rwa [h.mount_eq hresumes.2]
  | stop buf steps =>
      obtain ⟨stopped, hstop, rfl⟩ := map_eq_ok.mp hok
      exact (h.stop hresumes.2 (stoppedWrite_touched hgrants hstop)).1

theorem session_tidy (hgrants : host.Grants) {events : List Event}
    (hresumes : Along (Bbfs.serveEvent host) Resumes freshMount events)
    (hrun : run (Bbfs.serveEvent host) freshMount events = .ok s) (hlimit : s.lastId ≤ 999) :
    Tidy s := by
  refine run_preserves (fun s => s.lastId ≤ 999 → Tidy s) ?_ (fun _ => .freshMount) hresumes
    hrun hlimit
  intro s event s' h hresumes hok hlimit
  exact (h hresumes.1).serveEvent hgrants hresumes hok hlimit

theorem Touched.sight_eq (h : Tidy s) (htouched : Touched s s') (path : Path) :
    s'.sight path = s.sight path := by
  refine sight_eq_iff.mpr ⟨by rw [htouched.rootdir_eq], fun inode hinode => ⟨?_, ?_⟩⟩
  · rw [htouched.rootdir_eq]
  · intro id hid
    exact htouched.file_eq _ (by simp) (h.entry_ne hid)

/--
Wherever a write is stopped, and whatever became of the writes that were stopped
before: after the restart every path reads as it did when the write began.
-/
theorem stop_keeps_reads (sha1 : Bytes → Vector UInt8 20) (events : List Event)
    (hresumes : Along (Bbfs.serveEvent (.granting sha1)) Resumes freshMount events)
    {s s' : BbState} (hrun : run (Bbfs.serveEvent (.granting sha1)) freshMount events = .ok s)
    (hlimit : s.lastId ≤ 999) (buf : Bytes) (steps : Nat)
    (hstop : Bbfs.serveEvent (.granting sha1) s (.stop buf steps) = .ok s') (path : Path) :
    readFile (.granting sha1) s' path = readFile (.granting sha1) s path := by
  have hgrants := Host.granting_grants sha1
  have htidy := session_tidy hgrants hresumes hrun hlimit
  obtain ⟨stopped, hwrite, rfl⟩ := map_eq_ok.mp hstop
  rcases stoppedWrite_touched hgrants hwrite with rfl | htouched
  · exact readFile_mount hgrants
  · exact readFile_of_sight hgrants ((htouched.setLastId _).sight_eq htidy path)

end

def brokenSession : List Event :=
  [.request (.mknod "a"), .request (.write "a" [97] 0), .stop [98] 3,
    .request (.write "a" [99] 4069)]

theorem stop_keeps_reads_brokenSession :
    ∃ s s', run (serveEvent (.granting sampleSha1)) freshMount brokenSession = .ok s ∧
      serveEvent (.granting sampleSha1) s (.stop [100] 2) = .ok s' ∧
      readFile (.granting sampleSha1) s "a" = .ok (some [97, 99]) ∧
      readFile (.granting sampleSha1) s' "a" = readFile (.granting sampleSha1) s "a" := by
  have hends : ∃ s, run (serveEvent (.granting sampleSha1)) freshMount brokenSession = .ok s ∧
      s.lastId ≤ 999 ∧ readFile (.granting sampleSha1) s "a" = .ok (some [97, 99]) ∧
      ∃ s', serveEvent (.granting sampleSha1) s (.stop [100] 2) = .ok s' ∧ True := by
    decide +kernel
  obtain ⟨s, hrun, hlimit, hread, s', hstop, -⟩ := hends
  exact ⟨s, s', hrun, hstop, hread, stop_keeps_reads sampleSha1 brokenSession (by decide +kernel)
    hrun hlimit [100] 2 hstop "a"⟩

end Ece318.Bbfs
