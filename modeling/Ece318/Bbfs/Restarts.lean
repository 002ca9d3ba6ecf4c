import Ece318.Bbfs.PathMap
import Ece318.Bbfs.Sessions

/-!
# The map over restarts

Over several mounts the store still refines the map from paths to lists of blocks, and
a settled stop is nothing to the map: at worst a block has a reference that no slot
holds.  After a stop that is not settled the reads are right, and the next writes of
the wrong block are not.
-/

namespace Ece318.Bbfs

open Ece318.Foundation

def PathMap.serveEvent (files : PathMap) : Event → PathMap
  | .request request => files.serve request
  | .restart | .stop _ _ => files

/-- What the writes of a session hand over, those included that are stopped. -/
def handedOver (events : List Event) : Set Bytes :=
  {content | (∃ path buf offset, Event.request (.write path buf offset) ∈ events ∧
      cString buf = content) ∨
    ∃ buf steps, Event.stop buf steps ∈ events ∧ cString buf = content}

/-- Plain requests, and mounts that end with every block there and every write settled. -/
def Resumable (host : Host) (s : BbState) : Event → Prop
  | .request request => PlainRequest host s request
  | .restart => s.Whole
  | .stop buf steps => buf.length ≤ maxBlockSize ∧ WithinLimits host s buf ∧ s.Whole ∧
      Settled host s buf steps

instance (host : Host) (s : BbState) (event : Event) : Decidable (Resumable host s event) :=
  match event with
  | .request request => inferInstanceAs (Decidable (PlainRequest host s request))
  | .restart => inferInstanceAs (Decidable s.Whole)
  | .stop buf _ => inferInstanceAs (Decidable (buf.length ≤ maxBlockSize ∧
      WithinLimits host s buf ∧ s.Whole ∧ Settled host s buf _))

section

variable {host : Host} {contents : Set Bytes} {s s' : BbState} {m : Ledger} {t : Table}
  {files : PathMap} {buf : Bytes} {steps : Nat}

theorem Reflects.store (h : Reflects contents m files)
    (hvalid : ∀ inode, m.table.Valid (m.rootdir.data inode)) (hroom : m.table.HasRoom host buf)
    (hsize : buf.length ≤ maxBlockSize) (hbuf : cString buf ∈ contents) :
    Reflects contents ⟨(m.table.store host buf).2, m.rootdir⟩ files where
  noLinks := h.noLinks
  covered := by
    intro index
    have hcovered := h.covered index
    have hcount := Table.count_store hroom index
    show m.references index ≤ (m.table.store host buf).2.count index
    omega
  fits := h.fits.store ((cString_length_le buf).trans hsize)
  stored := h.stored.store hbuf
  files_eq := by
    intro path
    rw [h.files_eq path]
    cases m.rootdir.lookup path with
    | none => rfl
    | some node =>
        simp only [Option.map_some, Option.some.injEq]
        exact List.map_congr_left fun index hindex =>
          (Table.data_store (hvalid node.inode index hindex)).symm

theorem Reflects.slots_length_le (h : Reflects contents m files) {inode : Nat}
    (hvalid : m.table.Valid (m.rootdir.data inode)) (hlinked : inode ∈ m.rootdir.linked) :
    (m.rootdir.data inode).length ≤ 99 * 999 :=
  length_le_of_count (fun index hindex => (hvalid index hindex).trans_le m.table.length_le)
    fun index => (h.covered.count_le hlinked index).trans (m.table.count_le index)

theorem Reflects.content_length_le (h : Reflects contents m files) {slots : List Nat}
    (hvalid : m.table.Valid slots) :
    (slots.map m.table.data).flatten.length ≤ slots.length * 4096 := by
  rw [← List.length_map m.table.data]
  refine flatten_length_le fun content hcontent => ?_
  obtain ⟨index, hindex, rfl⟩ := List.mem_map.mp hcontent
  exact h.fits.data (hvalid index hindex)

theorem Stores.text_eq (h : Stores host s t) {hashesfile : Bytes}
    (hfile : s.file .hashes = some hashesfile) :
    hashesfile = t.text fun index => generateHash host (t.data index) := by
  have hbytes := h.hashes_eq
  rw [hfile, Option.getD_some] at hbytes
  rw [hbytes, Table.bytes_eq_text]

namespace Represents

theorem noLinks (h : Represents host s m) (hm : Reflects contents m files) :
    s.rootdir.NoLinks := by
  rw [h.rootdir_eq]
  exact ⟨hm.noLinks.regular, hm.noLinks.single⟩

theorem lookup_of_resolve (h : Represents host s m) (hm : Reflects contents m files)
    {path : Path} {inode : Nat} (hpath : s.rootdir.resolve path = .ok inode) :
    s.rootdir.lookup path = some (.file inode) := by
  rw [h.rootdir_eq, FileSystem.lookup_map]
  exact Ledger.lookup_of_resolve hm.noLinks ((h.resolve_eq path).symm.trans hpath)

theorem inode_ne (h : Represents host s m) (hm : Reflects contents m files) {path other : Path}
    {fh inode : Nat} (hpath : s.rootdir.resolve path = .ok fh)
    (hother : s.rootdir.resolve other = .ok inode) (hne : other ≠ path) : inode ≠ fh := by
  rw [h.resolve_eq] at hpath hother
  exact hm.inode_ne (Ledger.lookup_of_resolve hm.noLinks hpath)
    (Ledger.lookup_of_resolve hm.noLinks hother) hne

theorem writeAt_pointers (h : Represents host s m) {fh slot index : Nat}
    (hslot : slot ≤ (m.rootdir.data fh).length) (hindex : index < 999) :
    writeAt (s.rootdir.data fh) (padDecimal 3 (index + 1)) (slot * idLength) =
      pointerBytes (putSlot (m.rootdir.data fh) slot index) := by
  rw [h.data_eq, pointerBytes, pointerBytes, putSlot_map, Nat.mul_comm]
  exact writeAt_putSlot (h.valid fh).uniform (by simpa using hslot) (idText_length hindex)
    (by decide)

end Represents

theorem Represents.of_stores (h : Represents host s m) (hs' : Stores host s' t)
    (hrootdir : s'.rootdir = s.rootdir)
    (hlength : m.table.records.length ≤ t.records.length) :
    Represents host s' ⟨t, m.rootdir⟩ :=
  ⟨hs', hrootdir.trans h.rootdir_eq, fun inode => (h.valid inode).mono hlength⟩

/-- What one mount hands to the next: the directories, and the map that they stand for. -/
def Carries (host : Host) (contents : Set Bytes) (s : BbState) (files : PathMap) : Prop :=
  Tidy s ∧ ∃ m, Represents host s m ∧ Reflects contents m files

theorem carries_freshMount (host : Host) (contents : Set Bytes) :
    Carries host contents freshMount .empty :=
  ⟨.freshMount, .initial, represents_freshMount host, reflects_initial contents⟩

theorem Carries.resolve (h : Carries host contents s files) {path : Path} {blocks : List Bytes}
    (hpath : files path = some blocks) : ∃ inode, s.rootdir.resolve path = .ok inode := by
  obtain ⟨-, m, hs, hm⟩ := h
  rw [hm.files_eq path] at hpath
  obtain ⟨node, hnode, -⟩ := Option.map_eq_some_iff.mp hpath
  obtain ⟨inode, rfl⟩ := hm.noLinks.regular path node hnode
  exact ⟨inode, (hs.resolve_eq path).trans (FileSystem.resolve_file _ hnode)⟩

theorem Carries.request (h : Carries host contents s files) (hgrants : host.Grants)
    (hinj : Set.InjOn host.sha1 contents) {request : Request}
    (hplain : PlainRequest host s request) (hstored : storedContents [request] ⊆ contents) :
    ∃ s', serve host s request = .ok s' ∧ Carries host contents s' (files.serve request) := by
  obtain ⟨htidy, m, hs, hm⟩ := h
  obtain ⟨horderly, hlinks, hnul⟩ := hplain
  obtain ⟨s', hok, hs'⟩ := hs.serve hgrants horderly
  have hlimit : s'.lastId ≤ 999 := by
    rw [hs'.stores.lastId_eq]
    exact Table.length_le _
  have hentries : request.KeepsEntries := by
    cases request with
    | truncate path newsize => exact horderly
    | _ => trivial
  exact ⟨s', hok, htidy.serve hgrants hentries hok hlimit, _, hs',
    hm.serve hinj hs.valid (Ledger.Admits.of_orderly hs hgrants horderly) hlinks hnul hstored⟩

theorem Carries.restart (h : Carries host contents s files) (hwhole : s.Whole) :
    Carries host contents (mount s) files := by
  rw [h.1.mount_eq hwhole]
  exact h

theorem Carries.stop (h : Carries host contents s files) (hgrants : host.Grants)
    (hsize : buf.length ≤ maxBlockSize) (hlimits : WithinLimits host s buf) (hwhole : s.Whole)
    (hsettled : Settled host s buf steps) (hbuf : cString buf ∈ contents) :
    ∃ s', serveEvent host s (.stop buf steps) = .ok s' ∧ Carries host contents s' files := by
  obtain ⟨htidy, m, hs, hm⟩ := h
  obtain ⟨s', t, hok, hs', htable, hrootdir, htidy', hwhole'⟩ :=
    hs.stores.stop_settled htidy hgrants hsize hlimits hsettled
  refine ⟨mount s', by rw [serveEvent, hok]; rfl, Carries.restart ⟨htidy', ?_⟩ (hwhole'.mpr hwhole)⟩
  rcases htable with rfl | ⟨hroom, rfl⟩
  · exact ⟨_, hs.of_stores hs' hrootdir le_rfl, hm⟩
  · exact ⟨_, hs.of_stores hs' hrootdir (Table.store_length_le host _ buf),
      hm.store hs.valid hroom hsize hbuf⟩

theorem handedOver_mono {first second : List Event} (h : first ⊆ second) :
    handedOver first ⊆ handedOver second := by
  rintro content (⟨path, buf, offset, hmem, rfl⟩ | ⟨buf, steps, hmem, rfl⟩)
  · exact .inl ⟨path, buf, offset, h hmem, rfl⟩
  · exact .inr ⟨buf, steps, h hmem, rfl⟩

theorem Carries.serveEvent (h : Carries host contents s files) (hgrants : host.Grants)
    (hinj : Set.InjOn host.sha1 contents) {event : Event} (hresumable : Resumable host s event)
    (hhanded : handedOver [event] ⊆ contents) :
    ∃ s', Bbfs.serveEvent host s event = .ok s' ∧
      Carries host contents s' (files.serveEvent event) := by
  cases event with
  | request request =>
      refine h.request hgrants hinj hresumable ?_
      rintro content ⟨path, buf, offset, hwrite, rfl⟩
      rw [List.mem_singleton] at hwrite
      exact hhanded (.inl ⟨path, buf, offset, by rw [hwrite]; simp, rfl⟩)
  | restart => exact ⟨_, rfl, h.restart hresumable⟩
  | stop buf steps =>
      obtain ⟨hsize, hlimits, hwhole, hsettled⟩ := hresumable
      exact h.stop hgrants hsize hlimits hwhole hsettled
        (hhanded (.inr ⟨buf, steps, List.mem_singleton_self _, rfl⟩))

theorem session_carries (hgrants : host.Grants) {events : List Event}
    (hinj : Set.InjOn host.sha1 contents) (hhanded : handedOver events ⊆ contents)
    (hrun : Along (serveEvent host) (Resumable host) freshMount events) :
    ∃ s, run (serveEvent host) freshMount events = .ok s ∧
      Carries host contents s (events.foldl PathMap.serveEvent .empty) := by
  refine run_simulates PathMap.serveEvent (Carries host contents) ?_ PathMap.empty
    (carries_freshMount host contents) hrun.and_mem
  rintro s files event hs ⟨hresumable, hmem⟩
  exact hs.serveEvent hgrants hinj hresumable
    ((handedOver_mono (by simpa using hmem)).trans hhanded)

end

/--
The store refines the map over any number of mounts: a restart between requests and a
settled stop inside a write are invisible in what the paths read.
-/
theorem sessions_refine_pathMap (sha1 : Bytes → Vector UInt8 20) (events : List Event)
    (hinj : Set.InjOn sha1 (handedOver events))
    (hrun : Along (serveEvent (.granting sha1)) (Resumable (.granting sha1)) freshMount
      events) :
    ∃ s, run (serveEvent (.granting sha1)) freshMount events = .ok s ∧
      ∀ path, readFile (.granting sha1) s path =
        .ok ((events.foldl PathMap.serveEvent .empty path).map List.flatten) := by
  have hgrants := Host.granting_grants sha1
  obtain ⟨s, hok, -, m, hs, hm⟩ := session_carries hgrants hinj subset_rfl hrun
  exact ⟨s, hok, hm.readFile hgrants hs⟩

def resumedSession : List Event :=
  [.request (.mknod "a"), .request (.write "a" [97] 0), .stop [98] 5, .restart,
    .request (.write "a" [98] 4069), .stop [97] 4, .request (.rename "a" "b")]

theorem handedOver_resumedSession : handedOver resumedSession ⊆ {[97], [98]} := by
  rintro content (⟨path, buf, offset, hmem, rfl⟩ | ⟨buf, steps, hmem, rfl⟩)
  · simp only [resumedSession, List.mem_cons, Event.request.injEq, Request.write.injEq,
      List.not_mem_nil, reduceCtorEq, false_or, or_false] at hmem
    rcases hmem with ⟨-, rfl, -⟩ | ⟨-, rfl, -⟩ <;> decide
  · simp only [resumedSession, List.mem_cons, Event.stop.injEq, List.not_mem_nil, reduceCtorEq,
      false_or, or_false] at hmem
    rcases hmem with ⟨rfl, -⟩ | ⟨rfl, -⟩ <;> decide

theorem sessions_refine_pathMap_resumedSession :
    ∃ s, run (serveEvent (.granting sampleSha1)) freshMount resumedSession = .ok s ∧
      readFile (.granting sampleSha1) s "b" = .ok (some [97, 98]) := by
  obtain ⟨s, hok, hread⟩ := sessions_refine_pathMap sampleSha1 resumedSession
    (sampleSha1_injOn.mono handedOver_resumedSession) (by decide +kernel)
  exact ⟨s, hok, hread "b"⟩

end Ece318.Bbfs
