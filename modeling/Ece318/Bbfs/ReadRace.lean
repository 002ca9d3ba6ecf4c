import Ece318.Bbfs.Attributes
import Ece318.Bbfs.UnlinkStops

/-!
# Reads beside requests

The requests are served one after the other, a `bb_write` and a `bb_unlink` in their steps,
and any number of `read_file`s take their steps in between.  A read of a path that no
request names comes to the content of its path: every step of every request leaves what
the path leads to as it is.
-/

namespace Ece318.Bbfs

open Ece318.Foundation

/-- The request that is being served, if it takes more than one step. -/
inductive Work where
  | idle
  | writing (fh : Nat) (buf : Bytes) (offset : Nat) (phase : WritePhase)
  | unlinking (path : Path) (phase : UnlinkPhase)

structure Service (ι : Type) where
  store : BbState
  work : Work
  todo : List Request
  reader : ι → FilePhase

inductive Turn (ι : Type) where
  | serve
  | read (who : ι)
  deriving DecidableEq

section

variable {ι : Type}

namespace Service

def start (store : BbState) (todo : List Request) : Service ι :=
  ⟨store, .idle, todo, fun _ => .waiting⟩

def next (r : Service ι) : Option Request :=
  match r.work with
  | .idle => r.todo.head?
  | .writing _ _ _ _ | .unlinking _ _ => none

end Service

variable (host : Host)

/-- The next step of the requests; a write goes through the descriptor of a `bb_open`. -/
def moveServe (r : Service ι) : Except Fault (Service ι) :=
  match r.work with
  | .idle =>
      match r.todo with
      | [] => .ok r
      | .write path buf offset :: todo =>
          match r.store.rootdir.resolve path with
          | .error _ => .ok { r with todo := todo }
          | .ok fh =>
              if maxBlockSize < buf.length then .error .overflow
              else .ok { r with work := .writing fh buf offset .waiting, todo := todo }
      | .unlink path :: todo =>
          .ok { r with work := .unlinking path .waiting, todo := todo }
      | request :: todo =>
          (serve host r.store request).map fun s => { r with store := s, todo := todo }
  | .writing fh buf offset phase =>
      match phase with
      | .answered id =>
          let pointers := writeAt (r.store.rootdir.data fh) (formatInt 3 id)
            (offset / bbfsMaxBlockSize * idLength)
          .ok { r with store := r.store.setPointers fh pointers, work := .idle }
      | phase =>
          (moveWrite host (fun _ : Unit => buf ++ [0]) ⟨r.store, fun _ => phase⟩ ()).map fun next =>
            { r with store := next.store, work := .writing fh buf offset (next.phase ()) }
  | .unlinking path phase =>
      match phase with
      | .answered _ => .ok { r with work := .idle }
      | phase =>
          (moveUnlink host path ⟨r.store, phase⟩ ()).map fun next =>
            { r with store := next.store, work := .unlinking path next.phase }

variable [DecidableEq ι] (paths : ι → Path)

/-- One step of the requests or of one of the reads. -/
def moveService (r : Service ι) : Turn ι → Except Fault (Service ι)
  | .serve => moveServe host r
  | .read who =>
      (moveFile host (paths who) r.store (r.reader who)).map fun phase =>
        { r with reader := Function.update r.reader who phase }

omit [DecidableEq ι] in
def Ready (r : Service ι) : Turn ι → Prop
  | .serve => ∀ request ∈ r.next, PlainRequest host r.store request
  | .read _ => True

instance (r : Service ι) (turn : Turn ι) : Decidable (Ready host r turn) :=
  match turn with
  | .serve => inferInstanceAs (Decidable (∀ request ∈ r.next, PlainRequest host r.store request))
  | .read _ => .isTrue trivial

end

/-! ## What other paths lead to -/

section

variable {host : Host} {contents : Set Bytes} {files : PathMap} {s s' : BbState}
  {path other : Path} {inode fh : Nat}

theorem sight_setPointers (h : ∀ inode, s.rootdir.resolve other = .ok inode → inode ≠ fh)
    (pointers : Bytes) : (s.setPointers fh pointers).sight other = s.sight other := by
  refine sight_eq_iff.mpr ⟨?_, fun inode hinode => ⟨?_, fun _ _ => rfl⟩⟩
  · rw [BbState.rootdir_setPointers, FileSystem.resolve_write]
  · rw [BbState.rootdir_setPointers, FileSystem.data_write, Function.update_of_ne (h inode hinode)]

theorem sight_setRootdir {rootdir : FileSystem Path Bytes} (hno : s.rootdir.NoLinks)
    (hlookup : rootdir.lookup other = s.rootdir.lookup other)
    (hdata : ∀ inode, s.rootdir.resolve other = .ok inode →
      rootdir.data inode = s.rootdir.data inode) :
    BbState.sight { s with rootdir := rootdir } other = s.sight other :=
  sight_eq_iff.mpr ⟨hno.resolve_congr hlookup, fun inode hinode =>
    ⟨hdata inode hinode, fun _ _ => rfl⟩⟩

namespace Carries

theorem noLinks (h : Carries host contents s files) : s.rootdir.NoLinks := by
  obtain ⟨-, m, hs, hm⟩ := h
  exact hs.noLinks hm

theorem inode_ne (h : Carries host contents s files) (hne : other ≠ path)
    (hpath : s.rootdir.resolve path = .ok fh) (hother : s.rootdir.resolve other = .ok inode) :
    inode ≠ fh := by
  obtain ⟨-, m, hs, hm⟩ := h
  exact hs.inode_ne hm hpath hother hne

theorem sight_mknod (h : Carries host contents s files) (hne : other ≠ path) :
    (bbMknod s path).2.sight other = s.sight other := by
  rw [bbMknod, FileSystem.create]
  cases hlookup : s.rootdir.lookup path with
  | some node => rfl
  | none =>
      refine sight_setRootdir h.noLinks ?_ fun inode hinode => ?_
      · rw [FileSystem.lookup_insertNew, if_neg hne]
      · have hlt := FileSystem.follow_lt s.rootdir hinode
        exact Function.update_of_ne hlt.1.ne _ _

theorem sight_truncate (h : Carries host contents s files) (hne : other ≠ path)
    (newsize : Nat) : (bbTruncate s path newsize).2.sight other = s.sight other := by
  rw [bbTruncate]
  cases hpath : s.rootdir.resolve path with
  | error errno => rfl
  | ok fh => exact sight_setPointers (fun inode hother => h.inode_ne hne hpath hother) _

theorem sight_rename (h : Carries host contents s files) {newpath : Path} (hne : other ≠ path)
    (hnew : other ≠ newpath) : (bbRename s path newpath).2.sight other = s.sight other := by
  rw [bbRename]
  cases hrename : s.rootdir.rename path newpath with
  | error errno => rfl
  | ok rootdir =>
      obtain ⟨node, -, ⟨-, rfl⟩ | ⟨-, hlt, rfl⟩⟩ := FileSystem.rename_cases hrename
      · rfl
      · refine sight_setRootdir h.noLinks ?_ fun _ _ => rfl
        rw [FileSystem.lookup_insertOld, if_neg hnew, FileSystem.lookup_erase, if_neg hne]

end Carries

end

/-! ## A request between its steps -/

structure WriteUnderway (host : Host) (contents : Set Bytes) (files : PathMap) (path : Path)
    (fh : Nat) (buf : Bytes) (offset : Nat) (s₀ s : BbState) (phase : WritePhase) : Prop where
  carries : Carries host contents s₀ files
  resolve_eq : s₀.rootdir.resolve path = .ok fh
  interrupted : Interrupted s₀ s phase
  ends : ∃ steps s₁ id, run (moveWrite host fun _ : Unit => buf ++ [0]) ⟨s, fun _ => phase⟩
      (List.replicate steps ()) = .ok ⟨s₁, fun _ => .answered id⟩ ∧
    Carries host contents (s₁.setPointers fh (writeAt (s₁.rootdir.data fh) (formatInt 3 id)
      (offset / bbfsMaxBlockSize * idLength))) (files.serve (.write path buf offset))

structure UnlinkUnderway (host : Host) (contents : Set Bytes) (files : PathMap) (path : Path)
    (s₀ s : BbState) (phase : UnlinkPhase) : Prop where
  removing : ∃ m inode, Represents host s₀ m ∧ Reflects contents m files ∧
    s₀.rootdir.resolve path = .ok inode ∧ Removing host m inode s₀ path s phase
  ends : ∃ s₁ retstat, Comes host path ⟨s, phase⟩ (.ok ⟨s₁, .answered retstat⟩) ∧
    Carries host contents s₁ (files.serve (.unlink path))

section

variable {host : Host} {contents : Set Bytes} {files : PathMap} {s₀ s s' : BbState}
  {path other : Path} {inode fh : Nat} {buf : Bytes} {offset : Nat} {phase : WritePhase}
  {removal : UnlinkPhase}

namespace WriteUnderway

theorem start (h : Carries host contents s files) (hgrants : host.Grants)
    (hinj : Set.InjOn host.sha1 contents)
    (hplain : PlainRequest host s (.write path buf offset))
    (hstored : storedContents [.write path buf offset] ⊆ contents)
    (hpath : s.rootdir.resolve path = .ok fh) :
    ¬ maxBlockSize < buf.length ∧
      WriteUnderway host contents files path fh buf offset s s .waiting := by
  obtain ⟨s', hserve, hcarries⟩ := h.request hgrants hinj hplain hstored
  simp only [serve, hpath, map_eq_ok, bbWrite, bind_eq_ok] at hserve
  obtain ⟨answer, ⟨⟨blocks, written⟩, hblocks, hanswer⟩, rfl⟩ := hserve
  obtain rfl := Except.ok.inj hanswer
  rw [writeBlocks] at hblocks
  split at hblocks
  · contradiction
  · rename_i hsize
    obtain ⟨⟨id, s₁⟩, hgenerate, hblocks⟩ := bind_eq_ok.mp hblocks
    obtain ⟨rfl, rfl⟩ := Prod.mk.inj (Except.ok.inj hblocks)
    refine ⟨hsize, h, hpath, rfl, 5, s₁, id, ?_, hcarries⟩
    have halone := moveWrite_alone host (fun _ : Unit => buf ++ [0]) s ()
    rw [hgenerate] at halone
    exact halone

theorem move (h : WriteUnderway host contents files path fh buf offset s₀ s phase)
    (hgrants : host.Grants) (hphase : ∀ id, phase ≠ .answered id) :
    ∃ next, moveWrite host (fun _ : Unit => buf ++ [0]) ⟨s, fun _ => phase⟩ () = .ok next ∧
      WriteUnderway host contents files path fh buf offset s₀ next.store (next.phase ()) := by
  obtain ⟨steps, s₁, id, hrun, hcarries⟩ := h.ends
  rcases run_replicate_cases hrun with hthere | ⟨next, hmove, fewer, hrest⟩
  · have hanswered := congrFun (WriteRace.mk.inj hthere).2 ()
    exact absurd hanswered (hphase id)
  · exact ⟨next, hmove, h.carries, h.resolve_eq, interrupted_move hgrants h.interrupted hmove,
      fewer, s₁, id, hrest, hcarries⟩

theorem answered {id : Int}
    (h : WriteUnderway host contents files path fh buf offset s₀ s (.answered id)) :
    Carries host contents (s.setPointers fh (writeAt (s.rootdir.data fh) (formatInt 3 id)
      (offset / bbfsMaxBlockSize * idLength))) (files.serve (.write path buf offset)) := by
  obtain ⟨steps, s₁, id₁, hrun, hcarries⟩ := h.ends
  have hstays : moveWrite host (fun _ : Unit => buf ++ [0]) ⟨s, fun _ => .answered id⟩ () =
      .ok ⟨s, fun _ => .answered id⟩ := rfl
  rw [run_replicate hstays, Except.ok.injEq, WriteRace.mk.injEq] at hrun
  obtain ⟨rfl, hphase⟩ := hrun
  obtain rfl := WritePhase.answered.inj (congrFun hphase ())
  exact hcarries

theorem sight_eq (h : WriteUnderway host contents files path fh buf offset s₀ s phase)
    (other : Path) : s.sight other = s₀.sight other := by
  rcases h.interrupted.touched with rfl | htouched
  · rfl
  · exact htouched.sight_eq h.carries.1 other

theorem sight_setPointers (h : WriteUnderway host contents files path fh buf offset s₀ s phase)
    (hne : other ≠ path) (pointers : Bytes) :
    (s.setPointers fh pointers).sight other = s.sight other := by
  refine Bbfs.sight_setPointers (fun inode hinode => ?_) pointers
  rw [(sight_eq_iff.mp (h.sight_eq other)).1] at hinode
  exact h.carries.inode_ne hne h.resolve_eq hinode

end WriteUnderway

namespace UnlinkUnderway

theorem start (h : Carries host contents s files) (hgrants : host.Grants)
    (hinj : Set.InjOn host.sha1 contents) (hplain : PlainRequest host s (.unlink path)) :
    UnlinkUnderway host contents files path s s .waiting := by
  obtain ⟨s', hserve, hcarries⟩ := h.request hgrants hinj hplain (by
    rintro content ⟨written, buf, offset, hmem, -⟩
    simp at hmem)
  obtain ⟨-, m, hs, hm⟩ := h
  cases hpath : s.rootdir.resolve path with
  | error errno =>
      have hfound := hplain.1
      simp [Orderly, hpath, Except.isOk, Except.toBool] at hfound
  | ok inode =>
      refine ⟨⟨m, inode, hs, hm, hpath, rfl⟩, s', ?_⟩
      simp only [serve, map_eq_ok] at hserve
      obtain ⟨⟨retstat, removed⟩, hunlink, rfl⟩ := hserve
      have hcomes := moveUnlink_alone host s path
      rw [hunlink] at hcomes
      exact ⟨retstat, hcomes, hcarries⟩

theorem move (h : UnlinkUnderway host contents files path s₀ s removal) (hgrants : host.Grants)
    (hphase : ∀ retstat, removal ≠ .answered retstat) :
    ∃ next, moveUnlink host path ⟨s, removal⟩ () = .ok next ∧
      UnlinkUnderway host contents files path s₀ next.store next.phase := by
  obtain ⟨s₁, retstat, ⟨steps, hrun⟩, hcarries⟩ := h.ends
  obtain ⟨m, inode, hs, hm, hpath, hremoving⟩ := h.removing
  obtain ⟨next, hmove, hnext⟩ :=
    removing_move hgrants hs hm.covered hpath (r := ⟨s, removal⟩) hremoving
  refine ⟨next, hmove, ⟨m, inode, hs, hm, hpath, hnext⟩, s₁, retstat, ?_, hcarries⟩
  rcases run_replicate_cases hrun with hthere | ⟨next', hmove', fewer, hrest⟩
  · exact absurd (UnlinkRun.mk.inj hthere).2 (hphase retstat)
  · obtain rfl := Except.ok.inj (hmove.symm.trans hmove')
    exact ⟨fewer, hrest⟩

theorem answered {retstat : Int}
    (h : UnlinkUnderway host contents files path s₀ s (.answered retstat)) :
    Carries host contents s (files.serve (.unlink path)) := by
  obtain ⟨s₁, retstat₁, ⟨steps, hrun⟩, hcarries⟩ := h.ends
  have hstays : moveUnlink host path ⟨s, .answered retstat⟩ () =
      .ok ⟨s, .answered retstat⟩ := rfl
  rw [run_replicate hstays, Except.ok.injEq, UnlinkRun.mk.injEq] at hrun
  rw [hrun.1]
  exact hcarries

theorem sight_eq (h : UnlinkUnderway host contents files path s₀ s removal)
    (hne : other ≠ path) : s.sight other = s₀.sight other := by
  obtain ⟨m, inode, hs, hm, hpath, hremoving⟩ := h.removing
  rcases hremoving.seen with hseen | ⟨closed, hseen, rfl⟩
  · exact hseen.sight_other hs hm hpath hne
  · exact hseen.sight_erase hs hm hpath hne

end UnlinkUnderway

end

/-! ## The service -/

def InService {ι : Type} (host : Host) (contents : Set Bytes) (files : PathMap)
    (rest : List Request) (r : Service ι) : Prop :=
  match r.work with
  | .idle => Carries host contents r.store files ∧ rest = r.todo
  | .writing fh buf offset phase => ∃ s path, rest = .write path buf offset :: r.todo ∧
      WriteUnderway host contents files path fh buf offset s r.store phase
  | .unlinking path phase => ∃ s, rest = .unlink path :: r.todo ∧
      UnlinkUnderway host contents files path s r.store phase

section

variable {ι : Type} {host : Host} {contents : Set Bytes} {files : PathMap}
  {rest : List Request} {r r' : Service ι}

structure Served (host : Host) (contents : Set Bytes) (files : PathMap) (rest : List Request)
    (r r' : Service ι) : Prop where
  underway : ∃ files' rest', InService host contents files' rest' r' ∧
    rest'.foldl PathMap.serve files' = rest.foldl PathMap.serve files ∧ rest' ⊆ rest
  reader_eq : r'.reader = r.reader
  sight_eq : ∀ path, (∀ request ∈ rest, path ∉ request.paths) →
    r'.store.sight path = r.store.sight path

theorem Served.whole (hwork : r.work = .idle) (hcarries : Carries host contents r.store files)
    (hgrants : host.Grants) (hinj : Set.InjOn host.sha1 contents) {request : Request}
    {todo : List Request} (hrest : rest = request :: todo)
    (hplain : PlainRequest host r.store request)
    (hstored : storedContents [request] ⊆ contents)
    (hsight : ∀ s, serve host r.store request = .ok s → ∀ path, path ∉ request.paths →
      s.sight path = r.store.sight path) :
    ∃ s, serve host r.store request = .ok s ∧
      Served host contents files rest r { r with store := s, todo := todo } := by
  obtain ⟨s, hserve, hcarries'⟩ := hcarries.request hgrants hinj hplain hstored
  refine ⟨s, hserve, ⟨files.serve request, todo, ?_, ?_, ?_⟩, rfl, fun path hpath => ?_⟩
  · simp only [InService, hwork]
    exact ⟨hcarries', trivial⟩
  · rw [hrest, List.foldl_cons]
  · rw [hrest]
    exact List.subset_cons_self _ _
  · refine hsight s hserve path (hpath request ?_)
    rw [hrest]
    exact List.mem_cons_self

theorem InService.idle (h : InService host contents files rest r) (hwork : r.work = .idle)
    (hgrants : host.Grants) (hinj : Set.InjOn host.sha1 contents)
    (hstored : storedContents rest ⊆ contents)
    (hready : ∀ request ∈ r.next, PlainRequest host r.store request) :
    ∃ r', moveServe host r = .ok r' ∧ Served host contents files rest r r' := by
  simp only [InService, hwork] at h
  obtain ⟨hcarries, hrest⟩ := h
  cases htodo : r.todo with
  | nil =>
      refine ⟨r, by simp only [moveServe, hwork, htodo], ⟨files, rest, ?_, rfl,
        List.Subset.refl _⟩, rfl, fun _ _ => rfl⟩
      simp only [InService, hwork]
      exact ⟨hcarries, hrest⟩
  | cons request todo =>
      have hplain : PlainRequest host r.store request := by
        refine hready request ?_
        simp only [Service.next, hwork, htodo, List.head?_cons, Option.mem_def]
      have hcons : rest = request :: todo := hrest.trans htodo
      have hone : storedContents [request] ⊆ contents := by
        rintro content ⟨path, buf, offset, hmem, rfl⟩
        refine hstored ⟨path, buf, offset, ?_, rfl⟩
        rw [hcons, ← List.mem_singleton.mp hmem]
        exact List.mem_cons_self
      have hwhole := Served.whole hwork hcarries hgrants hinj hcons hplain hone
      cases request with
      | mknod path =>
          obtain ⟨s, hserve, hserved⟩ := hwhole fun s hserve other hother => by
            obtain rfl := Except.ok.inj hserve
            exact hcarries.sight_mknod (by simpa [Request.paths] using hother)
          exact ⟨_, by simp only [moveServe, hwork, htodo, hserve]; rfl, hserved⟩
      | truncate path newsize =>
          obtain ⟨s, hserve, hserved⟩ := hwhole fun s hserve other hother => by
            obtain rfl := Except.ok.inj hserve
            exact hcarries.sight_truncate (by simpa [Request.paths] using hother) newsize
          exact ⟨_, by simp only [moveServe, hwork, htodo, hserve]; rfl, hserved⟩
      | rename path newpath =>
          obtain ⟨s, hserve, hserved⟩ := hwhole fun s hserve other hother => by
            obtain rfl := Except.ok.inj hserve
            simp only [Request.paths, List.mem_cons, List.not_mem_nil, or_false, not_or] at hother
            exact hcarries.sight_rename hother.1 hother.2
          exact ⟨_, by simp only [moveServe, hwork, htodo, hserve]; rfl, hserved⟩
      | link path newpath => exact hplain.2.1.elim
      | symlink path newpath => exact hplain.2.1.elim
      | write path buf offset =>
          cases hpath : r.store.rootdir.resolve path with
          | error errno =>
              obtain ⟨s, hserve, hserved⟩ := hwhole fun s hserve other _ => by
                simp only [serve, hpath, Except.ok.injEq] at hserve
                rw [hserve]
              simp only [serve, hpath, Except.ok.injEq] at hserve
              subst hserve
              exact ⟨_, by simp only [moveServe, hwork, htodo, hpath], hserved⟩
          | ok fh =>
              obtain ⟨hsize, hunderway⟩ :=
                WriteUnderway.start hcarries hgrants hinj hplain hone hpath
              exact ⟨{ r with work := .writing fh buf offset .waiting, todo := todo },
                by simp only [moveServe, hwork, htodo, hpath, if_neg hsize],
                ⟨files, rest, ⟨r.store, path, hcons, hunderway⟩, rfl, List.Subset.refl _⟩, rfl,
                fun _ _ => rfl⟩
      | unlink path =>
          exact ⟨{ r with work := .unlinking path .waiting, todo := todo },
            by simp only [moveServe, hwork, htodo],
            ⟨files, rest, ⟨r.store, hcons, UnlinkUnderway.start hcarries hgrants hinj hplain⟩, rfl,
              List.Subset.refl _⟩, rfl, fun _ _ => rfl⟩

theorem InService.serve (h : InService host contents files rest r) (hgrants : host.Grants)
    (hinj : Set.InjOn host.sha1 contents) (hstored : storedContents rest ⊆ contents)
    (hready : ∀ request ∈ r.next, PlainRequest host r.store request) :
    ∃ r', moveServe host r = .ok r' ∧ Served host contents files rest r r' := by
  cases hwork : r.work with
  | idle => exact h.idle hwork hgrants hinj hstored hready
  | writing fh buf offset phase =>
      simp only [InService, hwork] at h
      obtain ⟨s₀, path, hrest, hwrite⟩ := h
      by_cases hanswered : ∃ id, phase = .answered id
      · obtain ⟨id, rfl⟩ := hanswered
        refine ⟨{ r with
            store := r.store.setPointers fh (writeAt (r.store.rootdir.data fh) (formatInt 3 id)
              (offset / bbfsMaxBlockSize * idLength))
            work := .idle }, by simp only [moveServe, hwork],
          ⟨files.serve (.write path buf offset), r.todo, ⟨hwrite.answered, rfl⟩, ?_, ?_⟩, rfl,
          fun other hother => ?_⟩
        · rw [hrest, List.foldl_cons]
        · rw [hrest]
          exact List.subset_cons_self _ _
        · refine hwrite.sight_setPointers ?_ _
          rw [hrest] at hother
          simpa [Request.paths] using hother _ List.mem_cons_self
      · obtain ⟨next, hmove, hnext⟩ :=
          hwrite.move hgrants fun id hphase => hanswered ⟨id, hphase⟩
        refine ⟨{ r with store := next.store, work := .writing fh buf offset (next.phase ()) }, ?_,
          ⟨files, rest, ⟨s₀, path, hrest, hnext⟩, rfl, List.Subset.refl _⟩, rfl,
          fun other _ => (hnext.sight_eq other).trans (hwrite.sight_eq other).symm⟩
        cases phase with
        | answered id => exact absurd ⟨id, rfl⟩ hanswered
        | _ =>
            simp only [moveServe, hwork, hmove]
            rfl
  | unlinking path phase =>
      simp only [InService, hwork] at h
      obtain ⟨s₀, hrest, hunlink⟩ := h
      by_cases hanswered : ∃ retstat, phase = .answered retstat
      · obtain ⟨retstat, rfl⟩ := hanswered
        refine ⟨{ r with work := .idle }, by simp only [moveServe, hwork],
          ⟨files.serve (.unlink path), r.todo, ⟨hunlink.answered, rfl⟩, ?_, ?_⟩, rfl,
          fun _ _ => rfl⟩
        · rw [hrest, List.foldl_cons]
        · rw [hrest]
          exact List.subset_cons_self _ _
      · obtain ⟨next, hmove, hnext⟩ :=
          hunlink.move hgrants fun retstat hphase => hanswered ⟨retstat, hphase⟩
        refine ⟨{ r with store := next.store, work := .unlinking path next.phase }, ?_,
          ⟨files, rest, ⟨s₀, hrest, hnext⟩, rfl, List.Subset.refl _⟩, rfl, fun other hother => ?_⟩
        · cases phase with
          | answered retstat => exact absurd ⟨retstat, rfl⟩ hanswered
          | _ =>
              simp only [moveServe, hwork, hmove]
              rfl
        · have hne : other ≠ path := by
            rw [hrest] at hother
            simpa [Request.paths] using hother _ List.mem_cons_self
          exact (hnext.sight_eq hne).trans (hunlink.sight_eq hne).symm

end

/-! ## The reads -/

structure ReadUnderway (host : Host) (path : Path) (s₀ s : BbState) (phase : FilePhase) :
    Prop where
  sight_eq : s.sight path = s₀.sight path
  follows : phase.Follows path s₀
  rest_eq : phase.rest host path s₀ = readFile host s₀ path

theorem ReadUnderway.move {host : Host} {path : Path} {s₀ s : BbState} {phase : FilePhase}
    (h : ReadUnderway host path s₀ s phase) {block : Option Bytes}
    (hread : readFile host s₀ path = .ok block) {slots : Nat}
    (hslots : ∀ inode, s₀.rootdir.resolve path = .ok inode →
      (entries idLength (s₀.rootdir.data inode)).length ≤ slots) :
    ∃ next, moveFile host path s phase = .ok next ∧ ReadUnderway host path s₀ s next ∧
      next.left s₀ slots ≤ phase.left s₀ slots - 1 := by
  have hrest := moveFile_rest host path s₀ phase
  rw [h.rest_eq] at hrest
  rw [moveFile_of_sight h.sight_eq h.follows]
  cases hmove : moveFile host path s₀ phase with
  | error fault =>
      rw [hmove, hread] at hrest
      cases hrest
  | ok next =>
      rw [hmove] at hrest
      obtain ⟨hfollows, hleft⟩ := moveFile_next h.follows hslots hmove
      exact ⟨next, rfl, ⟨h.sight_eq, hfollows, hrest⟩, hleft⟩

section

variable {ι : Type} [DecidableEq ι] {host : Host} {contents : Set Bytes} {files : PathMap}
  {requests : List Request} {paths : ι → Path} {slots : ι → Nat} {s₀ : BbState}
  {r r' : Service ι} {turn : Turn ι}

omit [DecidableEq ι] in
structure Midway (host : Host) (contents : Set Bytes) (files : PathMap) (requests : List Request)
    (paths : ι → Path) (s₀ : BbState) (r : Service ι) : Prop where
  inService : ∃ files' rest, InService host contents files' rest r ∧
    rest.foldl PathMap.serve files' = requests.foldl PathMap.serve files ∧ rest ⊆ requests
  reads : ∀ who, ReadUnderway host (paths who) s₀ r.store (r.reader who)

theorem Midway.move (h : Midway host contents files requests paths s₀ r) (hgrants : host.Grants)
    (hinj : Set.InjOn host.sha1 contents) (hstored : storedContents requests ⊆ contents)
    (hapart : ∀ request ∈ requests, ∀ who, paths who ∉ request.paths)
    (hread : ∀ who, ∃ block, readFile host s₀ (paths who) = .ok block)
    (hslots : ∀ who inode, s₀.rootdir.resolve (paths who) = .ok inode →
      (entries idLength (s₀.rootdir.data inode)).length ≤ slots who)
    (hready : Ready host r turn) :
    ∃ r', moveService host paths r turn = .ok r' ∧
      Midway host contents files requests paths s₀ r' ∧
      ∀ who, (r'.reader who).left s₀ (slots who) ≤
        (r.reader who).left s₀ (slots who) - if turn = .read who then 1 else 0 := by
  cases turn with
  | serve =>
      obtain ⟨files', rest, hservice, hfold, hsubset⟩ := h.inService
      have hstored' : storedContents rest ⊆ contents := by
        rintro content ⟨path, buf, offset, hmem, rfl⟩
        exact hstored ⟨path, buf, offset, hsubset hmem, rfl⟩
      obtain ⟨r', hmove, ⟨files'', rest', hservice', hfold', hsubset'⟩, hreader, hsight⟩ :=
        hservice.serve hgrants hinj hstored' hready
      refine ⟨r', hmove, ⟨⟨files'', rest', hservice', hfold'.trans hfold,
        fun _ hmem => hsubset (hsubset' hmem)⟩, fun who => ?_⟩, fun who => by simp [hreader]⟩
      have hsame := hsight (paths who) fun request hrequest => hapart request (hsubset hrequest) who
      rw [hreader]
      exact ⟨hsame.trans (h.reads who).sight_eq, (h.reads who).follows, (h.reads who).rest_eq⟩
  | read who =>
      obtain ⟨block, hblock⟩ := hread who
      obtain ⟨next, hmove, hunderway, hleft⟩ := (h.reads who).move hblock (hslots who)
      refine ⟨{ r with reader := Function.update r.reader who next },
        by simp only [moveService, hmove]; rfl, ⟨h.inService, fun other => ?_⟩, fun other => ?_⟩
      · by_cases heq : other = who
        · subst other
          simpa only [Function.update_self] using hunderway
        · simpa only [Function.update_of_ne heq] using h.reads other
      · by_cases heq : other = who
        · subst other
          simpa only [Function.update_self, if_true] using hleft
        · simp [Function.update_of_ne heq, Ne.symm heq]

end

/--
One request after another is served in its steps, and reads of other paths are in progress all
the while, any number of them in any order.  Nothing faults, each read answers with the
content that its path has in the map, after as many steps of its own as it would take
alone, and the requests come to what the map says.
-/
theorem reads_beside_requests {ι : Type} [DecidableEq ι] (sha1 : Bytes → Vector UInt8 20)
    (events : List Event) (requests : List Request) (paths : ι → Path)
    (hinj : Set.InjOn sha1 (handedOver (events ++ requests.map .request)))
    (hrun : Along (serveEvent (.granting sha1)) (Resumable (.granting sha1)) freshMount events)
    {s : BbState} (hok : run (serveEvent (.granting sha1)) freshMount events = .ok s)
    (hapart : ∀ request ∈ requests, ∀ who, paths who ∉ request.paths) (turns : List (Turn ι))
    (hready : Along (moveService (.granting sha1) paths) (Ready (.granting sha1))
      (.start s requests) turns) :
    ∃ r, run (moveService (.granting sha1) paths) (.start s requests) turns = .ok r ∧
      (∀ who block, r.reader who = .answered block →
        block = (events.foldl PathMap.serveEvent .empty (paths who)).map List.flatten) ∧
      (∀ who, 2 * ((events.foldl PathMap.serveEvent .empty (paths who)).getD []).length + 5 ≤
        turns.count (.read who) → ∃ block, r.reader who = .answered block) ∧
      (r.work = .idle → r.todo = [] → ∀ path, readFile (.granting sha1) r.store path =
        .ok ((requests.foldl PathMap.serve (events.foldl PathMap.serveEvent .empty) path).map
          List.flatten)) := by
  have hgrants := Host.granting_grants sha1
  obtain ⟨s₀, hok₀, hcarries⟩ := session_carries hgrants hinj
    (handedOver_mono (List.subset_append_left _ _)) hrun
  obtain rfl := Except.ok.inj (hok₀.symm.trans hok)
  have hread := fun who => hcarries.readFile_eq hgrants (paths who)
  have hslots := fun who inode => hcarries.entries_length_le (paths who) inode
  have hstored : storedContents requests ⊆
      handedOver (events ++ requests.map .request) := by
    rintro content ⟨path, buf, offset, hmem, rfl⟩
    exact .inl ⟨path, buf, offset, List.mem_append_right _ (List.mem_map_of_mem hmem), rfl⟩
  have hstep : ∀ r turn, Midway (.granting sha1) (handedOver (events ++ requests.map .request))
      (events.foldl PathMap.serveEvent .empty) requests paths s₀ r →
        Ready (.granting sha1) r turn → _ := fun r turn hmidway hturn =>
    hmidway.move hgrants hinj hstored hapart (fun who => ⟨_, hread who⟩) hslots hturn
  have hstart : Midway (.granting sha1) (handedOver (events ++ requests.map .request))
      (events.foldl PathMap.serveEvent .empty) requests paths s₀ (.start s₀ requests) :=
    ⟨⟨_, requests, ⟨hcarries, rfl⟩, rfl, List.Subset.refl _⟩, fun who => ⟨rfl, trivial, rfl⟩⟩
  obtain ⟨r, hfinal, hmidway⟩ := run_invariant _
    (fun r turn hmidway hturn =>
      (hstep r turn hmidway hturn).imp fun r' hr' => ⟨hr'.1, hr'.2.1⟩) hstart hready
  refine ⟨r, hfinal, fun who block hblock => ?_, fun who hcount => ?_, fun hwork htodo path => ?_⟩
  · have hrest := (hmidway.reads who).rest_eq
    rw [hblock, hread who] at hrest
    exact Except.ok.inj hrest
  · have hlowers := run_lowers (fun turn => turn == .read who) _
      (fun r : Service ι => (r.reader who).left s₀ _) (fun r turn r' hmidway hturn hmove => by
        obtain ⟨next, hnext, hmidway', hleft⟩ := hstep r turn hmidway hturn
        obtain rfl := Except.ok.inj (hnext.symm.trans hmove)
        exact ⟨hmidway', by simpa using hleft who⟩) hstart hready hfinal
    refine FilePhase.answered_of_left_eq_zero (Nat.le_zero.mp (hlowers.trans ?_))
    exact (Nat.sub_eq_zero_of_le hcount).le
  · obtain ⟨files, rest, hservice, hfold, -⟩ := hmidway.inService
    simp only [InService, hwork] at hservice
    obtain ⟨hcarries', rfl⟩ := hservice
    rw [htodo, List.foldl_nil] at hfold
    rw [hcarries'.readFile_eq hgrants, hfold]

def sharedTurns : List (Turn Unit) := (List.replicate 8 [.serve, .read ()]).flatten

def soleSession : List Event := [.request (.mknod "a"), .request (.write "a" [97] 0)]

def passingRequests : List Request := [.mknod "b", .write "b" [97] 0, .unlink "b"]

theorem handedOver_soleSession :
    handedOver (soleSession ++ passingRequests.map .request) ⊆ {[97], [98]} := by
  rintro content (⟨path, buf, offset, hmem, rfl⟩ | ⟨buf, steps, hmem, rfl⟩)
  · simp only [soleSession, passingRequests, List.map_cons, List.map_nil, List.cons_append,
      List.nil_append, List.mem_cons, Event.request.injEq, Request.write.injEq, List.not_mem_nil,
      reduceCtorEq, false_or, or_false] at hmem
    rcases hmem with ⟨-, rfl, -⟩ | ⟨-, rfl, -⟩ <;> decide
  · simp [soleSession, passingRequests] at hmem

theorem reads_beside_requests_soleSession :
    ∃ s r, run (serveEvent (.granting sampleSha1)) freshMount soleSession = .ok s ∧
      run (moveService (.granting sampleSha1) fun _ : Unit => "a")
        (.start s passingRequests) sharedTurns = .ok r ∧
      r.reader () = .answered (some [97]) := by
  have hmeets : ∃ s, run (serveEvent (.granting sampleSha1)) freshMount soleSession = .ok s ∧
      Along (moveService (.granting sampleSha1) fun _ : Unit => "a")
        (Ready (.granting sampleSha1)) (.start s passingRequests) sharedTurns := by
    decide +kernel
  obtain ⟨s, hok, hready⟩ := hmeets
  obtain ⟨r, hfinal, hanswers, hthrough, -⟩ := reads_beside_requests sampleSha1 soleSession
    passingRequests (fun _ : Unit => "a") (sampleSha1_injOn.mono handedOver_soleSession)
    (by decide +kernel) hok (by decide) sharedTurns hready
  obtain ⟨block, hblock⟩ := hthrough () (by decide)
  have hcontent := hanswers () block hblock
  subst block
  exact ⟨s, r, hok, hfinal, hblock⟩

end Ece318.Bbfs
