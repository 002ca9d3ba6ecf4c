import Ece318.Bbfs.Restarts

/-!
# Files apart

All files share the ids, the blocks and the counters, and every mount that ends takes all
of them along.  Whoever reads one group of files sees none of this: what is read there
depends on the requests to that group alone.
-/

namespace Ece318.Bbfs

open Ece318.Foundation

def Event.paths : Event → List Path
  | .request sent => sent.paths
  | .restart | .stop _ _ => []

def Event.Concerns (group : Path → Prop) (event : Event) : Prop := ∃ path ∈ event.paths, group path

def Event.OneSided (group : Path → Prop) (event : Event) : Prop :=
  event.Concerns group → ∀ path ∈ event.paths, group path

section

variable {group : Path → Prop} [DecidablePred group]

instance : DecidablePred (Event.Concerns group) := fun event =>
  inferInstanceAs (Decidable (∃ path ∈ event.paths, group path))

instance : DecidablePred (Event.OneSided group) := fun event =>
  inferInstanceAs (Decidable (event.Concerns group → ∀ path ∈ event.paths, group path))

end

namespace PathMap

variable {group : Path → Prop} {files files' : PathMap}

def view (group : Path → Prop) (files : PathMap) : {path // group path} → Option (List Bytes) :=
  fun path => files path

theorem view_eq_iff : files.view group = files'.view group ↔
    ∀ path, group path → files path = files' path :=
  funext_iff.trans Subtype.forall

theorem view_serveEvent_of_not_concerns {event : Event} (h : ¬ event.Concerns group) :
    (files.serveEvent event).view group = files.view group := by
  rw [view_eq_iff]
  intro path hpath
  cases event with
  | request request => exact files.serve_of_notMem fun hmem => h ⟨path, hmem, hpath⟩
  | restart => rfl
  | stop buf steps => rfl

theorem update_congr {path other : Path} {blocks blocks' : Option (List Bytes)}
    (h : blocks = blocks') (hother : files other = files' other) :
    Function.update files path blocks other = Function.update files' path blocks' other := by
  by_cases heq : other = path
  · rw [heq, Function.update_self, Function.update_self, h]
  · rw [Function.update_of_ne heq, Function.update_of_ne heq, hother]

theorem serve_congr {request : Request}
    (hpaths : ∀ path ∈ request.paths, files path = files' path) {other : Path}
    (hother : files other = files' other) :
    files.serve request other = files'.serve request other := by
  cases request with
  | mknod path =>
      have hpath := hpaths path (by simp [Request.paths])
      simp only [serve, hpath]
      cases files' path with
      | none => exact update_congr rfl hother
      | some blocks => exact hother
  | write path buf offset =>
      exact update_congr (by rw [hpaths path (by simp [Request.paths])]) hother
  | truncate path newsize =>
      exact update_congr (by rw [hpaths path (by simp [Request.paths])]) hother
  | rename path newpath =>
      have hpath := hpaths path (by simp [Request.paths])
      simp only [serve, hpath]
      cases files' path with
      | none => exact hother
      | some blocks => exact update_congr rfl (update_congr rfl hother)
  | unlink path => exact update_congr rfl hother
  | link path newpath => exact hother
  | symlink path link => exact hother

theorem view_serveEvent_congr {event : Event} (hpaths : ∀ path ∈ event.paths, group path)
    (h : files.view group = files'.view group) :
    (files.serveEvent event).view group = (files'.serveEvent event).view group := by
  rw [view_eq_iff] at h ⊢
  intro path hpath
  cases event with
  | request request =>
      exact serve_congr (fun other hother => h other (hpaths other hother)) (h path hpath)
  | restart => exact h path hpath
  | stop buf steps => exact h path hpath

variable (group) in
theorem view_session [DecidablePred group] {events : List Event}
    (hsided : ∀ event ∈ events, event.OneSided group) :
    (events.foldl PathMap.serveEvent .empty).view group =
      ((events.filter (Event.Concerns group ·)).foldl PathMap.serveEvent .empty).view group := by
  refine view_foldl_filter ?_ ?_ rfl
  · intro event _ hnot files
    exact view_serveEvent_of_not_concerns hnot
  · intro event hevent hconcerns files files' h
    exact view_serveEvent_congr (hsided event hevent hconcerns) h

end PathMap

/--
Two sessions with the same requests to a group of files leave the same to read there,
whatever else they write, share and remove, and wherever their mounts end.
-/
theorem sessions_isolated (sha1 : Bytes → Vector UInt8 20) (group : Path → Prop)
    [DecidablePred group] (events others : List Event)
    (hinj : Set.InjOn sha1 (handedOver events)) (hinj' : Set.InjOn sha1 (handedOver others))
    (hrun : Along (serveEvent (.granting sha1)) (Resumable (.granting sha1)) freshMount events)
    (hrun' : Along (serveEvent (.granting sha1)) (Resumable (.granting sha1)) freshMount others)
    (hsided : ∀ event ∈ events ++ others, event.OneSided group)
    (hsame : events.filter (Event.Concerns group ·) = others.filter (Event.Concerns group ·)) :
    ∃ s s', run (serveEvent (.granting sha1)) freshMount events = .ok s ∧
      run (serveEvent (.granting sha1)) freshMount others = .ok s' ∧
      ∀ path, group path →
        readFile (.granting sha1) s path = readFile (.granting sha1) s' path := by
  have hgrants := Host.granting_grants sha1
  obtain ⟨s, hok, -, m, hs, hm⟩ := session_carries hgrants hinj subset_rfl hrun
  obtain ⟨s', hok', -, m', hs', hm'⟩ := session_carries hgrants hinj' subset_rfl hrun'
  refine ⟨s, s', hok, hok', fun path hpath => ?_⟩
  have hview := PathMap.view_session group fun event hevent =>
    hsided event (List.mem_append_left _ hevent)
  have hview' := PathMap.view_session group fun event hevent =>
    hsided event (List.mem_append_right _ hevent)
  rw [hsame, ← hview', PathMap.view_eq_iff] at hview
  rw [hm.readFile hgrants hs, hm'.readFile hgrants hs', hview path hpath]

def busySession : List Event :=
  [.request (.mknod "c"), .request (.write "c" [98] 0), .request (.mknod "a"),
    .request (.write "a" [97] 0), .request (.write "c" [97] 4069),
    .request (.write "a" [98] 4069), .request (.unlink "c"), .request (.rename "a" "b")]

theorem handedOver_busySession : handedOver busySession ⊆ {[97], [98]} := by
  rintro content (⟨path, buf, offset, hmem, rfl⟩ | ⟨buf, steps, hmem, rfl⟩)
  · simp only [busySession, List.mem_cons, Event.request.injEq, Request.write.injEq,
      List.not_mem_nil, reduceCtorEq, false_or, or_false] at hmem
    rcases hmem with ⟨-, rfl, -⟩ | ⟨-, rfl, -⟩ | ⟨-, rfl, -⟩ | ⟨-, rfl, -⟩ <;> decide
  · simp [busySession] at hmem

theorem sessions_isolated_busySession :
    ∃ s s', run (serveEvent (.granting sampleSha1)) freshMount resumedSession = .ok s ∧
      run (serveEvent (.granting sampleSha1)) freshMount busySession = .ok s' ∧
      readFile (.granting sampleSha1) s "b" = readFile (.granting sampleSha1) s' "b" := by
  obtain ⟨s, s', hok, hok', hread⟩ := sessions_isolated sampleSha1 (· ∈ ["a", "b"])
    resumedSession busySession (sampleSha1_injOn.mono handedOver_resumedSession)
    (sampleSha1_injOn.mono handedOver_busySession) (by decide +kernel) (by decide +kernel)
    (by decide +kernel) (by decide +kernel)
  exact ⟨s, s', hok, hok', hread "b" (by decide)⟩

end Ece318.Bbfs
