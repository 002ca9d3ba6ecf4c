import Ece318.Bbfs.UnlinkStops

/-!
# Removals that are tried again

A `bb_unlink` that is stopped before the name goes has taken the references of the file
away, and the slots are still there.  The next `bb_unlink` of the name takes them once
more, at the expense of the files that share a block with it.
-/

namespace Ece318.Bbfs

open Ece318.Foundation

namespace Table

variable {t : Table} {indices : List Nat}

theorem reached_of_length_le {total consumed : Nat} (htotal : total = consumed + indices.length)
    (hlength : total ≤ 1365) : reached total t consumed indices = indices.length := by
  induction indices generalizing t consumed with
  | nil => rfl
  | cons index indices ih =>
      rw [List.length_cons] at htotal
      have hfetched : total ≤ fetched total (consumed + 1) := by
        rw [fetched, Nat.le_div_iff_mul_le (by omega), Nat.le_min]
        omega
      rw [reached, ih (by omega), List.length_cons]
      split <;> omega

theorem frees_of_spared (h : ∀ index ∈ indices, indices.count index < t.count index) :
    t.frees indices = false := by
  induction indices generalizing t with
  | nil => rfl
  | cons index indices ih =>
      have hhead := h index List.mem_cons_self
      rw [List.count_cons_self] at hhead
      have hrest : ∀ other ∈ indices, indices.count other < (t.release index).count other := by
        intro other hother
        have hspared := h other (List.mem_cons_of_mem _ hother)
        rw [List.count_cons] at hspared
        rw [count_release]
        by_cases heq : index = other
        · simp only [heq, beq_self_eq_true, if_true] at hspared ⊢
          omega
        · simpa [heq] using hspared
      simp only [frees, ih hrest, Bool.or_false, decide_eq_false_iff_not]
      omega

end Table

namespace BbState

def slots (s : BbState) (fh : Nat) : List Bytes := entries idLength (s.rootdir.data fh)

def uses (s : BbState) (id : Bytes) : Int := atoi (s.counterField (atoi id).toNat)

end BbState

section

variable {host : Host} {contents : Set Bytes} {files : PathMap} {m : Ledger} {s s' : BbState}
  {fh : Nat} {path : Path}

namespace Represents

theorem slots_eq (hs : Represents host s m) (fh : Nat) :
    s.slots fh = (m.rootdir.data fh).map fun index => padDecimal 3 (index + 1) := by
  rw [BbState.slots, hs.data_eq, entries_pointerBytes (hs.valid fh)]

theorem count_slots (hs : Represents host s m) (fh index : Nat) :
    (s.slots fh).count (padDecimal 3 (index + 1)) = (m.rootdir.data fh).count index := by
  rw [hs.slots_eq]
  exact List.count_map_of_injective _ _ idText_injective index

theorem mem_slots (hs : Represents host s m) {fh : Nat} {id : Bytes} :
    id ∈ s.slots fh ↔ ∃ index ∈ m.rootdir.data fh, padDecimal 3 (index + 1) = id := by
  rw [hs.slots_eq, List.mem_map]

theorem uses_eq (hs : Represents host s m) {index : Nat}
    (hindex : index < m.table.records.length) :
    s.uses (padDecimal 3 (index + 1)) = m.table.count index := by
  rw [BbState.uses, atoi_padDecimal, Int.toNat_natCast, hs.stores.counterField_count hindex,
    atoi_padDecimal]

end Represents

theorem deleteBlocks_short {hash : Nat → Bytes} {t : Table} {indices : List Nat}
    (hgrants : host.Grants) (hhash : ∀ index, (hash index).length = hashSize)
    (hnul : ∀ index, NulFree (hash index)) (hfile : s.file .hashes = some (t.text hash))
    (hpath : s.rootdir.resolve path = .ok fh) (hvalid : t.Valid indices)
    (hdata : s.rootdir.data fh = pointerBytes indices) (hlength : indices.length ≤ 1365) :
    ∃ s', deleteBlocks host s path = .ok s' ∧ Walked hash fh t indices s s' := by
  obtain ⟨s', hdelete, hwalked⟩ :=
    deleteBlocks_valid hgrants hhash hnul hfile hpath hvalid hdata
  rw [Table.reached_of_length_le (Nat.zero_add _).symm hlength, List.take_length] at hwalked
  exact ⟨s', hdelete, hwalked⟩

theorem Walked.block_spared {hash : Nat → Bytes} {t : Table} {indices : List Nat}
    (h : Walked hash fh t indices s s') {index : Nat} (hindex : index < t.records.length)
    (hspared : ∀ index ∈ indices, indices.count index < t.count index) :
    s'.file (blockOf index) = s.file (blockOf index) := by
  rw [h.block_eq index hindex]
  refine if_neg fun hgone => ?_
  have hslot : index ∈ indices := List.count_pos_iff.mp (by omega)
  have hmore := hspared index hslot
  omega

structure TakenOnce (host : Host) (m : Ledger) (fh : Nat) (s s' : BbState) : Prop where
  rootdir_eq : s'.rootdir = s.rootdir
  hashes_eq : s'.file .hashes = some ((m.table.releaseAll (m.rootdir.data fh)).text
    fun index => generateHash host (m.table.data index))
  block_eq : ∀ index < m.table.records.length, s'.file (blockOf index) = s.file (blockOf index)

theorem takenOnce (hgrants : host.Grants) (hs : Represents host s m)
    (hpath : s.rootdir.resolve path = .ok fh) (hslots : m.rootdir.data fh ≠ [])
    (hlength : (m.rootdir.data fh).length ≤ 1365)
    (hspared : ∀ index ∈ m.rootdir.data fh,
      (m.rootdir.data fh).count index < m.table.count index) :
    ∃ s', deleteBlocks host s path = .ok s' ∧ TakenOnce host m fh s s' := by
  have hrecords : m.table.records ≠ [] := by
    obtain ⟨index, hindex⟩ := List.exists_mem_of_ne_nil _ hslots
    have hlt := hs.valid fh index hindex
    intro hnil
    rw [hnil] at hlt
    exact Nat.not_lt_zero _ hlt
  obtain ⟨hashesfile, hfile⟩ := Option.ne_none_iff_exists'.mp (hs.stores.hashes_exists hrecords)
  have hhashes := hfile.trans (congrArg some (hs.stores.text_eq hfile))
  obtain ⟨s', hdelete, hwalked⟩ := deleteBlocks_short hgrants
    (fun index => generateHash_length host _) (fun index => nulFree_generateHash host _) hhashes
    hpath (hs.valid fh) (hs.data_eq fh) hlength
  have hrootdir := hwalked.rootdir_eq
  rw [Table.frees_of_spared hspared, if_neg Bool.false_ne_true] at hrootdir
  exact ⟨s', hdelete, hrootdir, hwalked.hashes_eq, fun index hindex =>
    hwalked.block_spared hindex hspared⟩

structure TakenTwice (m : Ledger) (fh : Nat) (path : Path) (s s' : BbState) : Prop where
  resolve_eq : ∀ other, other ≠ path → s'.rootdir.resolve other = s.rootdir.resolve other
  data_eq : ∀ other, other ≠ fh → s'.rootdir.data other = s.rootdir.data other
  block_eq : ∀ index < m.table.records.length, s'.file (blockOf index) =
    if m.table.count index ≤ 2 * (m.rootdir.data fh).count index ∧ index ∈ m.rootdir.data fh
      then none else s.file (blockOf index)

theorem TakenOnce.unlink (h : TakenOnce host m fh s s') (hgrants : host.Grants)
    (hs : Represents host s m) (hm : Reflects contents m files)
    (hpath : s.rootdir.resolve path = .ok fh) (hlength : (m.rootdir.data fh).length ≤ 1365)
    (hspared : ∀ index ∈ m.rootdir.data fh,
      (m.rootdir.data fh).count index < m.table.count index) :
    ∃ s'', serve host s' (.unlink path) = .ok s'' ∧ TakenTwice m fh path s s'' := by
  obtain ⟨s₂, hdelete, hwalked⟩ := deleteBlocks_short hgrants
    (fun index => generateHash_length host _) (fun index => nulFree_generateHash host _)
    h.hashes_eq (by rw [h.rootdir_eq, hpath]) ((hs.valid fh).mono (by simp))
    (by rw [h.rootdir_eq, hs.data_eq]) hlength
  have hrootdir := hwalked.rootdir_eq
  rw [h.rootdir_eq] at hrootdir
  have hnoLinks := hs.noLinks hm
  have hlookup := hs.lookup_of_resolve hm hpath
  have hopen : s₂.rootdir.unlink path = .ok (s₂.rootdir.erase path) := by
    have hname : s₂.rootdir.lookup path = some (.file fh) := by
      rw [hrootdir]
      split
      · exact hlookup
      · exact hlookup
    rw [FileSystem.unlink, hname]
  refine ⟨{ s₂ with rootdir := s₂.rootdir.erase path }, ?_, ?_, ?_, ?_⟩
  · rw [serve_unlink_eq hdelete, if_pos hgrants.unlink, hopen]
    rfl
  · intro other hne
    simp only [hrootdir]
    split
    · rw [(hnoLinks.write fh []).resolve_erase hne, FileSystem.resolve_write]
    · rw [hnoLinks.resolve_erase hne]
  · intro other hne
    simp only [FileSystem.data_erase, hrootdir]
    split
    · rw [FileSystem.data_write, Function.update_of_ne hne]
    · rfl
  · intro index hindex
    show s₂.file (blockOf index) = _
    rw [hwalked.block_eq index (by simpa using hindex), Table.count_releaseAll,
      h.block_eq index hindex]
    refine if_congr ⟨fun hgone => ?_, fun hboth => ?_⟩ rfl rfl
    · exact ⟨by omega, List.count_pos_iff.mp (by omega)⟩
    · have hmore := hspared index hboth.2
      omega

theorem TakenTwice.readFile_iff (h : TakenTwice m fh path s s') (hgrants : host.Grants)
    (hs : Represents host s m) (hm : Reflects contents m files)
    (hpath : s.rootdir.resolve path = .ok fh) {other : Path} (hne : other ≠ path) {fh' : Nat}
    (hother : s.rootdir.resolve other = .ok fh') :
    readFile host s' other = readFile host s other ↔
      ∀ index ∈ m.rootdir.data fh, index ∈ m.rootdir.data fh' →
        2 * (m.rootdir.data fh).count index < m.table.count index := by
  have hother' := (hs.resolve_eq other).symm.trans hother
  have hapart := hs.inode_ne hm hpath hother hne
  have hdata := h.data_eq fh' hapart
  constructor
  · intro hread index hindex hindex'
    by_contra hfew
    have hblock := h.block_eq index (hs.valid fh' index hindex')
    rw [if_pos ⟨by omega, hindex⟩] at hblock
    rw [hs.readFile hgrants hm.covered hm.fits hother'] at hread
    have hslot : padDecimal 3 (index + 1) ∈ s'.slots fh' := by
      rw [BbState.slots, hdata]
      exact hs.mem_slots.mpr ⟨index, hindex', rfl⟩
    exact readFile_missing_block hslot (by rwa [cString_padDecimal])
      ((h.resolve_eq other hne).trans hother) _ hread
  · intro hall
    refine readFile_congr hgrants (h.resolve_eq other hne) ?_ ?_
    · intro found hfound
      obtain rfl := Except.ok.inj (hother.symm.trans hfound)
      exact hdata
    · intro found hfound id hid
      obtain rfl := Except.ok.inj (hother.symm.trans hfound)
      obtain ⟨index, hindex', rfl⟩ := hs.mem_slots.mp hid
      rw [cString_padDecimal]
      refine (h.block_eq index (hs.valid fh' index hindex')).trans (if_neg fun hgone => ?_)
      have hmore := hall index hgone.2 hindex'
      omega

end

/--
A `bb_unlink` is stopped before the name goes, and tried again.  The stop is not to be
seen, and then another file is as it was if and only if each block that it shares with
the removed one has more than twice as many references as the removed one has slots.
-/
theorem retried_unlink_reads_iff (sha1 : Bytes → Vector UInt8 20) (events : List Event)
    (hinj : Set.InjOn sha1 (handedOver events))
    (hrun : Along (serveEvent (.granting sha1)) (Resumable (.granting sha1)) freshMount events)
    {s : BbState} (hok : run (serveEvent (.granting sha1)) freshMount events = .ok s)
    {path : Path} {fh : Nat} (hpath : s.rootdir.resolve path = .ok fh)
    (hslots : s.slots fh ≠ []) (hlength : (s.slots fh).length ≤ 1365)
    (hshared : ∀ id ∈ s.slots fh, (s.slots fh).count id < s.uses id) :
    ∃ steps s' s'', stoppedUnlink (.granting sha1) s path steps = .ok s' ∧
      (∀ other,
        readFile (.granting sha1) (mount s') other = readFile (.granting sha1) s other) ∧
      serve (.granting sha1) (mount s') (.unlink path) = .ok s'' ∧
      ∀ other fh', other ≠ path → s.rootdir.resolve other = .ok fh' →
        (readFile (.granting sha1) s'' other = readFile (.granting sha1) s other ↔
          ∀ id ∈ s.slots fh, id ∈ s.slots fh' → 2 * (s.slots fh).count id < s.uses id) := by
  have hgrants := Host.granting_grants sha1
  obtain ⟨s₀, hok₀, -, m, hs, hm⟩ := session_carries hgrants hinj subset_rfl hrun
  obtain rfl := Except.ok.inj (hok₀.symm.trans hok)
  have hlength' : (m.rootdir.data fh).length ≤ 1365 := by
    rwa [hs.slots_eq, List.length_map] at hlength
  have hspared : ∀ index ∈ m.rootdir.data fh,
      (m.rootdir.data fh).count index < m.table.count index := by
    intro index hindex
    have hless := hshared _ (hs.mem_slots.mpr ⟨index, hindex, rfl⟩)
    rw [hs.count_slots, hs.uses_eq (hs.valid fh index hindex)] at hless
    exact_mod_cast hless
  obtain ⟨s', hdelete, htaken⟩ := takenOnce hgrants hs hpath
    (fun hnil => hslots (by rw [hs.slots_eq, hnil, List.map_nil])) hlength' hspared
  obtain ⟨steps, hsteps⟩ := comes_of_deleteBlocks (.granting sha1) s₀ path
  rw [hdelete] at hsteps
  have hmounted : TakenOnce (.granting sha1) m fh s₀ (mount s') :=
    ⟨htaken.rootdir_eq, htaken.hashes_eq, htaken.block_eq⟩
  obtain ⟨s'', hserve, htwice⟩ := hmounted.unlink hgrants hs hm hpath hlength' hspared
  refine ⟨steps, s', s'', by rw [stoppedUnlink, hsteps]; rfl, ?_, hserve, ?_⟩
  · intro other
    refine readFile_congr hgrants (by rw [hmounted.rootdir_eq])
      (fun _ _ => by rw [hmounted.rootdir_eq]) ?_
    intro found hfound id hid
    obtain ⟨index, hindex, rfl⟩ := hs.mem_slots.mp hid
    rw [cString_padDecimal]
    exact hmounted.block_eq index (hs.valid found index hindex)
  · intro other fh' hne hother
    rw [htwice.readFile_iff hgrants hs hm hpath hne hother]
    constructor
    · intro hall id hid hid'
      obtain ⟨index, hindex, rfl⟩ := hs.mem_slots.mp hid
      obtain ⟨index', hindex', heq⟩ := hs.mem_slots.mp hid'
      obtain rfl : index' = index := idText_injective heq
      rw [hs.count_slots, hs.uses_eq (hs.valid fh _ hindex)]
      exact_mod_cast hall _ hindex hindex'
    · intro hall index hindex hindex'
      have hmore := hall _ (hs.mem_slots.mpr ⟨index, hindex, rfl⟩)
        (hs.mem_slots.mpr ⟨index, hindex', rfl⟩)
      rw [hs.count_slots, hs.uses_eq (hs.valid fh index hindex)] at hmore
      exact_mod_cast hmore

/-- Two files share their only block, and the removal of the one is stopped and tried again. -/
theorem retried_unlink_reads_iff_twinSession :
    ∃ s s' s'' steps, run (serveEvent (.granting sampleSha1)) freshMount twinSession = .ok s ∧
      stoppedUnlink (.granting sampleSha1) s "a" steps = .ok s' ∧
      serve (.granting sampleSha1) (mount s') (.unlink "a") = .ok s'' ∧
      readFile (.granting sampleSha1) (mount s') "b" = readFile (.granting sampleSha1) s "b" ∧
      readFile (.granting sampleSha1) s'' "b" ≠ readFile (.granting sampleSha1) s "b" := by
  have hends : ∃ s, run (serveEvent (.granting sampleSha1)) freshMount twinSession = .ok s ∧
      s.rootdir.resolve "a" = .ok 0 ∧ s.rootdir.resolve "b" = .ok 1 ∧
      s.slots 0 = [padDecimal 3 1] ∧ s.slots 1 = [padDecimal 3 1] ∧
      s.uses (padDecimal 3 1) = 2 := by
    decide +kernel
  obtain ⟨s, hok, hpath, hother, hslots, hslots', huses⟩ := hends
  obtain ⟨steps, s', s'', hstop, hreads, hserve, hiff⟩ := retried_unlink_reads_iff sampleSha1
    twinSession (sampleSha1_injOn.mono handedOver_twinSession) (by decide +kernel) hok hpath
    (by simp [hslots]) (by simp [hslots]) (by simp [hslots, huses])
  refine ⟨s, s', s'', steps, hok, hstop, hserve, hreads "b", fun hread => ?_⟩
  have hmore := (hiff "b" 1 (by decide) hother).mp hread (padDecimal 3 1)
    (by simp [hslots]) (by simp [hslots'])
  simp [hslots, huses] at hmore

end Ece318.Bbfs
