import Mathlib.Data.Set.Function
import Ece318.Bbfs.Dedup
import Ece318.Bbfs.PathMap
import Ece318.Bbfs.RefCounts

/-!
# What the storage directory holds

While no reference is taken away behind the back of the counters, the block files are
the blocks of the map, each of them once: nothing is stored twice, and nothing that no
file has.
-/

namespace Ece318.Bbfs

open Ece318.Foundation

def PathMap.contents (files : PathMap) : Set Bytes :=
  {content | ∃ path blocks, files path = some blocks ∧ content ∈ blocks}

def BbState.stored (s : BbState) : Set Bytes := {name | s.file (.block name) ≠ none}

def BbState.block (s : BbState) (name : Bytes) : Option Bytes := s.file (.block name)

section

variable {host : Host} {contents : Set Bytes} {s : BbState} {m : Ledger} {files : PathMap}

theorem Ledger.Exact.exists_slot (h : m.Exact) {index : Nat} (hlive : m.table.count index ≠ 0) :
    ∃ inode ∈ m.rootdir.linked, index ∈ m.rootdir.data inode := by
  rw [← h index, references, FileSystem.total] at hlive
  obtain ⟨inode, hlinked, hcount⟩ := Finset.exists_ne_zero_of_sum_ne_zero hlive
  exact ⟨inode, hlinked, List.count_pos_iff.mp (Nat.pos_of_ne_zero hcount)⟩

theorem Reflects.mem_contents (h : Reflects contents m files) {content : Bytes} :
    content ∈ files.contents ↔
      ∃ inode ∈ m.rootdir.linked, ∃ index ∈ m.rootdir.data inode,
        m.table.data index = content := by
  constructor
  · rintro ⟨path, blocks, hfile, hcontent⟩
    rw [h.files_eq path] at hfile
    obtain ⟨node, hnode, rfl⟩ := Option.map_eq_some_iff.mp hfile
    obtain ⟨inode, rfl⟩ := h.noLinks.regular path node hnode
    exact ⟨inode, FileSystem.mem_linked.mpr ⟨path, hnode⟩, List.mem_map.mp hcontent⟩
  · rintro ⟨inode, hlinked, index, hindex, rfl⟩
    obtain ⟨path, hpath⟩ := FileSystem.mem_linked.mp hlinked
    exact ⟨path, _, by rw [h.files_eq path, hpath]; rfl, List.mem_map_of_mem hindex⟩

theorem Stores.mem_stored {t : Table} (h : Stores host s t) {name : Bytes} :
    name ∈ s.stored ↔ ∃ index, t.count index ≠ 0 ∧ name = padDecimal 3 (index + 1) := by
  constructor
  · intro hname
    obtain ⟨index, hindex, rfl⟩ := h.block_only name hname
    have hrecord := List.getElem?_eq_getElem hindex
    refine ⟨index, fun hdead => hname ?_, rfl⟩
    rw [Table.count_eq hrecord] at hdead
    exact (h.block_eq index _ hrecord).trans (if_pos hdead)
  · rintro ⟨index, hlive, rfl⟩ hnone
    have hblock := h.block_live hlive
    rw [blockOf, hnone] at hblock
    contradiction

theorem Represents.block_bijOn (hs : Represents host s m) (hm : Reflects contents m files)
    (hexact : m.Exact) (hdistinct : m.table.Distinct host) :
    Set.BijOn s.block s.stored (some '' files.contents) := by
  have hblock : ∀ index, m.table.count index ≠ 0 →
      s.block (padDecimal 3 (index + 1)) = some (m.table.data index) :=
    fun index hlive => hs.stores.block_live hlive
  refine ⟨?_, ?_, ?_⟩
  · intro name hname
    obtain ⟨index, hlive, rfl⟩ := hs.stores.mem_stored.mp hname
    obtain ⟨inode, hlinked, hslot⟩ := hexact.exists_slot hlive
    rw [hblock index hlive]
    exact ⟨_, hm.mem_contents.mpr ⟨inode, hlinked, index, hslot, rfl⟩, rfl⟩
  · intro first hfirst second hsecond heq
    obtain ⟨i, hi, rfl⟩ := hs.stores.mem_stored.mp hfirst
    obtain ⟨j, hj, rfl⟩ := hs.stores.mem_stored.mp hsecond
    rw [hblock i hi, hblock j hj, Option.some.injEq] at heq
    rw [hdistinct i j hi hj (by rw [heq])]
  · rintro _ ⟨content, hcontent, rfl⟩
    obtain ⟨inode, hlinked, index, hslot, rfl⟩ := hm.mem_contents.mp hcontent
    have hlive := hexact.covered.live hlinked index hslot
    exact ⟨_, hs.stores.mem_stored.mpr ⟨index, hlive, rfl⟩, hblock index hlive⟩

theorem run_exact (hgrants : host.Grants) (hinj : Set.InjOn host.sha1 contents)
    {requests : List Request} (hstored : storedContents requests ⊆ contents)
    (hrun : Along (serve host) (fun s request => PlainRequest host s request ∧
      s.KeepsExact request) freshMount requests) :
    ∃ s, run (serve host) freshMount requests = .ok s ∧ ∃ m, Represents host s m ∧
      m.Exact ∧ m.table.Distinct host ∧
        Reflects contents m (requests.foldl PathMap.serve .empty) := by
  refine run_simulates PathMap.serve
    (fun s files => ∃ m, Represents host s m ∧ m.Exact ∧ m.table.Distinct host ∧
      Reflects contents m files) ?_ PathMap.empty
    ⟨.initial, represents_freshMount host, Ledger.exact_initial, distinct_initial host,
      reflects_initial contents⟩ hrun.and_mem
  rintro s files request ⟨m, hs, hexact, hdistinct, hm⟩
    ⟨⟨⟨horderly, hlinks, hnul⟩, hkeeps⟩, hmem⟩
  have hadmits := Ledger.Admits.of_orderly hs hgrants horderly
  obtain ⟨s', hok, hs'⟩ := hs.serve hgrants horderly
  refine ⟨s', hok, m.serve host request, hs', ?_, Ledger.distinct_serve hdistinct hadmits, ?_⟩
  · rw [hexact.serve_iff hm.noLinks hadmits hlinks, ← hs.keepsExact_iff hexact.covered]
    exact hkeeps
  · refine hm.serve hinj hs.valid hadmits hlinks hnul ?_
    rintro content ⟨path, buf, offset, hwrite, rfl⟩
    rw [List.mem_singleton] at hwrite
    exact hstored ⟨path, buf, offset, hwrite ▸ hmem, rfl⟩

end

/--
What the store is for: the storage directory holds exactly one block file for each
block that some file has, however often and in however many files, and no other.
-/
theorem stored_bijOn (sha1 : Bytes → Vector UInt8 20) (requests : List Request)
    (hinj : Set.InjOn sha1 (storedContents requests))
    (hrun : Along (serve (.granting sha1)) (PlainRequest (.granting sha1)) freshMount requests)
    (hkeeps : Along (serve (.granting sha1)) BbState.KeepsExact freshMount requests) :
    ∃ s, run (serve (.granting sha1)) freshMount requests = .ok s ∧
      Set.BijOn s.block s.stored
        (some '' (requests.foldl PathMap.serve PathMap.empty).contents) := by
  have hgrants := Host.granting_grants sha1
  obtain ⟨s, hok, m, hs, hexact, hdistinct, hm⟩ :=
    run_exact hgrants hinj subset_rfl (hrun.and hkeeps)
  exact ⟨s, hok, hs.block_bijOn hm hexact hdistinct⟩

instance (s : BbState) (fh : Nat) : Decidable (s.WalkIsWhole fh) :=
  inferInstanceAs (Decidable (∀ slot < (entries idLength (s.rootdir.data fh)).length,
    ∀ id ∈ (entries idLength (s.rootdir.data fh))[slot]?, _ → _))

instance (s : BbState) (request : Request) : Decidable (s.KeepsExact request) :=
  match request with
  | .write path _ _ =>
      inferInstanceAs (Decidable (∀ fh, s.rootdir.resolve path = .ok fh → _ = _))
  | .truncate path _ =>
      inferInstanceAs (Decidable (∀ fh, s.rootdir.resolve path = .ok fh → _ = _))
  | .rename path newpath =>
      inferInstanceAs (Decidable (∀ node ∈ s.rootdir.lookup path,
        ∀ node' ∈ s.rootdir.lookup newpath, _ ∨ _))
  | .unlink path =>
      inferInstanceAs (Decidable (∀ fh, s.rootdir.resolve path = .ok fh → s.WalkIsWhole fh))
  | .mknod _ | .link _ _ | .symlink _ _ => .isTrue trivial

def pairedRun : List Request :=
  [.mknod "a", .write "a" [97] 0, .write "a" [98] 4069, .mknod "b", .write "b" [97] 0,
    .write "b" [97] 4069, .unlink "a"]

theorem storedContents_pairedRun : storedContents pairedRun ⊆ {[97], [98]} := by
  rintro content ⟨path, buf, offset, hmem, rfl⟩
  simp only [pairedRun, List.mem_cons, Request.write.injEq, List.not_mem_nil,
    reduceCtorEq, false_or, or_false] at hmem
  rcases hmem with ⟨-, rfl, -⟩ | ⟨-, rfl, -⟩ | ⟨-, rfl, -⟩ | ⟨-, rfl, -⟩ <;> decide

theorem contents_pairedRun :
    (pairedRun.foldl PathMap.serve PathMap.empty).contents = {[97]} := by
  have hfiles : ∀ path, pairedRun.foldl PathMap.serve PathMap.empty path =
      if path = "b" then some [[97], [97]] else none := by
    intro path
    by_cases hb : path = "b" <;> by_cases ha : path = "a" <;>
      simp [pairedRun, PathMap.serve, PathMap.empty, ha, hb]
    decide
  ext content
  constructor
  · rintro ⟨path, blocks, hpath, hcontent⟩
    rw [hfiles path] at hpath
    split at hpath
    · obtain rfl := Option.some.inj hpath
      simpa using hcontent
    · cases hpath
  · rintro rfl
    exact ⟨"b", _, hfiles "b", List.mem_cons_self⟩

theorem stored_bijOn_pairedRun :
    ∃ s, run (serve (.granting sampleSha1)) freshMount pairedRun = .ok s ∧
      s.stored = {padDecimal 3 1} ∧ s.block (padDecimal 3 1) = some [97] ∧
      Set.BijOn s.block s.stored {some [97]} := by
  have hblock : ∃ s, run (serve (.granting sampleSha1)) freshMount pairedRun = .ok s ∧
      s.file (.block (padDecimal 3 1)) = some [97] := by
    decide +kernel
  obtain ⟨s, hs, hfile⟩ := hblock
  obtain ⟨_, hs', hbij⟩ := stored_bijOn sampleSha1 pairedRun
    (sampleSha1_injOn.mono storedContents_pairedRun) (by decide +kernel) (by decide +kernel)
  obtain rfl := Except.ok.inj (hs.symm.trans hs')
  rw [contents_pairedRun, Set.image_singleton] at hbij
  have hmem : padDecimal 3 1 ∈ s.stored := by
    show s.file (.block (padDecimal 3 1)) ≠ none
    rw [hfile]
    exact Option.some_ne_none _
  refine ⟨s, hs, Set.eq_singleton_iff_unique_mem.mpr ⟨hmem, fun name hname => ?_⟩, hfile, hbij⟩
  exact hbij.injOn hname hmem ((hbij.mapsTo hname).trans (hbij.mapsTo hmem).symm)

end Ece318.Bbfs
