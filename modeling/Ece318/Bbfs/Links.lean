import Ece318.Foundation.Runs
import Ece318.Bbfs.TableRuns
import Ece318.Bbfs.ReadSpec

/-!
# Several names for one file

`bb_unlink` releases the blocks of the file it reaches through the name it
removes, whether or not another name leads there.  So removing one of several
names leaves the others as they were exactly when the file holds no block.
-/

namespace Ece318.Bbfs

open Ece318.Foundation

/-- `unlink` removes the only name of a file, or finds a file without blocks. -/
def BbState.UnlinksCleanly (s : BbState) : Request → Prop
  | .unlink path =>
      match s.rootdir.resolve path with
      | .error _ => True
      | .ok fh => s.rootdir.IsOnlyName path fh ∨ s.rootdir.data fh = []
  | _ => True

instance (s : BbState) (request : Request) : Decidable (s.UnlinksCleanly request) :=
  match request with
  | .unlink path =>
      match hpath : s.rootdir.resolve path with
      | .error _ => .isTrue (by simp only [BbState.UnlinksCleanly, hpath])
      | .ok fh => decidable_of_iff (s.rootdir.IsOnlyName path fh ∨ s.rootdir.data fh = [])
          (by simp only [BbState.UnlinksCleanly, hpath])
  | .mknod _ | .write _ _ _ | .truncate _ _ | .rename _ _ | .link _ _ | .symlink _ _ =>
      .isTrue trivial

def CleanRequest (host : Host) (s : BbState) (request : Request) : Prop :=
  Orderly host s request ∧ s.UnlinksCleanly request

instance (host : Host) (s : BbState) (request : Request) :
    Decidable (CleanRequest host s request) :=
  inferInstanceAs (Decidable (_ ∧ _))

/-- What the removal of another name must leave to the name `q` of the file `fh`. -/
structure KeepsName (host : Host) (s s' : BbState) (q : Path) (fh : Nat) : Prop where
  resolve_eq : s'.rootdir.resolve q = .ok fh
  pointers_eq : s'.rootdir.data fh = s.rootdir.data fh
  counters_eq : ∀ id ∈ entries idLength (s.rootdir.data fh),
    s'.counterField (atoi id).toNat = s.counterField (atoi id).toNat
  read_eq : readFile host s' q = readFile host s q
  later : ∀ requests, Along (serve host) (CleanRequest host) s' requests →
    ∃ s₁, run (serve host) s' requests = .ok s₁ ∧
      ∀ s₂, serve host s₁ (.unlink q) = .ok s₂ →
        ∀ third other, s₁.rootdir.resolve third = .ok other →
          s₁.rootdir.resolve q ≠ .ok other →
            ∀ id ∈ entries idLength (s₁.rootdir.data other), s₂.file (.block id) ≠ none

namespace Ledger

variable {host : Host} {m : Ledger}

theorem Covered.others_live (h : m.Covered) {path : Path} {inode other : Nat}
    (hpath : m.rootdir.resolve path = .ok inode) (hother : other ∈ m.rootdir.linked)
    (hne : inode ≠ other) {index : Nat} (hindex : index ∈ m.rootdir.data other) :
    (m.serve host (.unlink path)).table.count index ≠ 0 := by
  have hboth := FileSystem.add_le_total (List.count index) (linked_of_resolve hpath) hother hne
  have hseen := m.count_seen_le inode index
  have hpos := List.count_pos_iff.mpr hindex
  have hcount := h index
  rw [table_unlink hpath, Table.count_releaseAll]
  rw [references] at hcount
  omega

theorem Covered.count_unlink_head (h : m.Covered) (host : Host) {path : Path} {inode index : Nat}
    {indices : List Nat} (hpath : m.rootdir.resolve path = .ok inode)
    (hdata : m.rootdir.data inode = index :: indices) :
    (m.serve host (.unlink path)).table.count index < m.table.count index := by
  have hle := h.count_le (linked_of_resolve hpath) index
  have hseen : 0 < (m.seen inode).count index := by
    have hreached : Table.reached (m.rootdir.data inode).length m.table 0
        (m.rootdir.data inode) ≠ 0 := by
      rw [hdata, Table.reached]
      split <;> omega
    obtain ⟨rest, hrest⟩ := Nat.exists_eq_succ_of_ne_zero hreached
    rw [seen, hrest, hdata, List.take_succ_cons, List.count_cons_self]
    omega
  rw [hdata, List.count_cons_self] at hle
  rw [table_unlink hpath, Table.count_releaseAll]
  omega

end Ledger

/-! ## Clean runs -/

structure Sound (host : Host) (s : BbState) (m : Ledger) : Prop where
  represents : Represents host s m
  covered : m.Covered
  fits : m.table.All (·.length ≤ maxBlockSize)

theorem sound_freshMount (host : Host) : Sound host freshMount .initial :=
  ⟨represents_freshMount host, Ledger.exact_initial.covered,
    by simp [Ledger.initial, Table.empty, Table.All]⟩

namespace Sound

variable {host : Host} {s : BbState} {m : Ledger}

theorem releases (h : Sound host s m) {request : Request}
    (hclean : s.UnlinksCleanly request) : m.Releases request := by
  cases request with
  | unlink path =>
      intro inode hpath
      simp only [BbState.UnlinksCleanly, h.represents.resolve_eq, hpath] at hclean
      rcases hclean with hname | hnil
      · rw [h.represents.rootdir_eq] at hname
        exact .inl hname
      · right
        have hlength := h.represents.data_length inode
        rw [hnil, List.length_nil] at hlength
        exact List.eq_nil_of_length_eq_zero (by omega)
  | _ => trivial

theorem serve (h : Sound host s m) (hgrants : host.Grants) {request : Request}
    (hclean : CleanRequest host s request) :
    ∃ s', Bbfs.serve host s request = .ok s' ∧ Sound host s' (m.serve host request) := by
  have hadmits := Ledger.Admits.of_orderly h.represents hgrants hclean.1
  obtain ⟨s', hok, hs'⟩ := h.represents.serve hgrants hclean.1
  refine ⟨s', hok, hs', h.covered.serve hadmits (h.releases hclean.2), ?_⟩
  refine Ledger.all_serve h.fits ?_
  rintro path buf offset inode rfl hpath
  exact (cString_length_le buf).trans (hadmits inode hpath).1

theorem run (h : Sound host s m) (hgrants : host.Grants) {requests : List Request}
    (hrun : Along (Bbfs.serve host) (CleanRequest host) s requests) :
    ∃ s', Foundation.run (Bbfs.serve host) s requests = .ok s' ∧ ∃ m', Sound host s' m' := by
  refine run_invariant (fun s => ∃ m, Sound host s m) ?_ ⟨m, h⟩ hrun
  rintro s request ⟨m, hs⟩ hclean
  obtain ⟨s', hok, hs'⟩ := hs.serve hgrants hclean
  exact ⟨s', hok, _, hs'⟩

theorem unlink_others (h : Sound host s m) (hgrants : host.Grants) {q third : Path}
    {s' : BbState} (hok : Bbfs.serve host s (.unlink q) = .ok s') {other : Nat}
    (hthird : s.rootdir.resolve third = .ok other) (hne : s.rootdir.resolve q ≠ .ok other)
    {id : Bytes} (hid : id ∈ entries idLength (s.rootdir.data other)) :
    s'.file (.block id) ≠ none := by
  rw [h.represents.data_eq, entries_pointerBytes (h.represents.valid other)] at hid
  obtain ⟨index, hindex, rfl⟩ := List.mem_map.mp hid
  have hlinked := Ledger.linked_of_resolve ((h.represents.resolve_eq third).symm.trans hthird)
  cases hpath : s.rootdir.resolve q with
  | error errno =>
      have hlive := h.covered.live hlinked index hindex
      have hhashes := h.represents.stores.hashes_of_mem
        (List.getElem?_eq_getElem (h.represents.valid other index hindex))
      obtain ⟨s₁, hok₁, hstores⟩ := h.represents.stores.serve_unlink_missing hgrants hpath
        (by simp [hhashes])
      rw [hok, Except.ok.injEq] at hok₁
      subst s₁
      rw [hstores.block_live hlive]
      simp
  | ok inode =>
      rw [h.represents.resolve_eq] at hpath
      obtain ⟨s₁, hok₁, hs₁⟩ := h.represents.unlink hgrants hpath
      rw [hok, Except.ok.injEq] at hok₁
      subst s₁
      have hdiffer : inode ≠ other := by
        rintro rfl
        exact hne ((h.represents.resolve_eq q).trans hpath)
      rw [hs₁.stores.block_live (h.covered.others_live hpath hlinked hdiffer hindex)]
      simp

end Sound

/-! ## Removing one of two names -/

section

variable {host : Host} {s s' : BbState} {m : Ledger} {p q : Path} {fh : Nat}

namespace Sound

theorem not_keepsName (h : Sound host s m) (hgrants : host.Grants)
    (hp : s.rootdir.resolve p = .ok fh) (hok : Bbfs.serve host s (.unlink p) = .ok s')
    (hdata : s.rootdir.data fh ≠ []) : ¬ KeepsName host s s' q fh := by
  intro hkeeps
  have hpath := (h.represents.resolve_eq p).symm.trans hp
  obtain ⟨s₁, hok₁, hs₁⟩ := h.represents.unlink hgrants hpath
  rw [hok, Except.ok.injEq] at hok₁
  subst s₁
  cases hindices : m.rootdir.data fh with
  | nil =>
      rw [h.represents.data_eq, hindices] at hdata
      exact hdata rfl
  | cons index indices =>
      have hindex := h.represents.valid fh index (by simp [hindices])
      have hindex' : index < (m.serve host (.unlink p)).table.records.length := by
        rw [Ledger.table_unlink hpath, Table.releaseAll_length]
        exact hindex
      -- the walk has released the first entry of the file
      have hhead := h.covered.count_unlink_head host hpath hindices
      have hid : padDecimal 3 (index + 1) ∈ entries idLength (s.rootdir.data fh) := by
        rw [h.represents.data_eq, entries_pointerBytes (h.represents.valid fh), hindices]
        simp
      have hsame := hkeeps.counters_eq _ hid
      rw [atoi_padDecimal, Int.toNat_natCast, hs₁.stores.counterField_count hindex',
        h.represents.stores.counterField_count hindex] at hsame
      exact hhead.ne (padDecimal_injective 2 hsame)

theorem keepsName (h : Sound host s m) (hgrants : host.Grants) (hne : p ≠ q)
    (hq : s.rootdir.lookup q = some (.file fh)) (hp : s.rootdir.resolve p = .ok fh)
    (hok : Bbfs.serve host s (.unlink p) = .ok s') (hdata : s.rootdir.data fh = []) :
    KeepsName host s s' q fh := by
  have hclean : CleanRequest host s (.unlink p) := by
    simp only [CleanRequest, Orderly, BbState.UnlinksCleanly, hp, hdata, or_true, and_true]
    rfl
  obtain ⟨s₁, hok₁, hs₁⟩ := h.serve hgrants hclean
  rw [hok, Except.ok.injEq] at hok₁
  subst s₁
  have hpath := (h.represents.resolve_eq p).symm.trans hp
  have hnil : m.rootdir.data fh = [] := by
    have hlength := h.represents.data_length fh
    rw [hdata, List.length_nil] at hlength
    exact List.eq_nil_of_length_eq_zero (by omega)
  have hq' : m.rootdir.lookup q = some (.file fh) := by
    rwa [h.represents.rootdir_eq] at hq
  -- nothing but the name is gone
  obtain ⟨rootdir, hunlink, hlookup, hfiles⟩ : ∃ rootdir,
      m.serve host (.unlink p) = ⟨m.table, rootdir⟩ ∧
        rootdir.lookup q = some (.file fh) ∧ rootdir.data = m.rootdir.data := by
    rw [Ledger.serve, Ledger.deleteBlocks_nil hpath hnil, FileSystem.unlink]
    cases m.rootdir.lookup p with
    | none => exact ⟨m.rootdir, rfl, hq', rfl⟩
    | some node =>
        refine ⟨m.rootdir.erase p, rfl, ?_, rfl⟩
        rw [FileSystem.lookup_erase, if_neg hne.symm, hq']
  have hresolve : (m.serve host (.unlink p)).rootdir.resolve q = .ok fh := by
    rw [hunlink]
    exact FileSystem.resolve_file _ hlookup
  refine ⟨(hs₁.represents.resolve_eq q).trans hresolve, ?_, by simp [hdata], ?_, ?_⟩
  · rw [hs₁.represents.data_eq, hunlink, h.represents.data_eq]
    exact congrArg pointerBytes (congrFun hfiles fh)
  · rw [h.represents.readFile hgrants h.covered h.fits (FileSystem.resolve_file _ hq'),
      hs₁.represents.readFile hgrants hs₁.covered hs₁.fits hresolve, hunlink]
    simp only [hfiles]
  · intro requests hrun
    obtain ⟨s₁, hrun₁, m₁, hm₁⟩ := hs₁.run hgrants hrun
    exact ⟨s₁, hrun₁, fun s₂ hok₂ third other hthird hother id hid =>
      hm₁.unlink_others hgrants hok₂ hthird hother hid⟩

end Sound

end

/--
In every state of a clean run, removing the name `p` of a file leaves its other
name `q` intact if and only if the file is empty.
-/
theorem unlink_keepsName_iff (sha1 : Bytes → Vector UInt8 20) (requests : List Request)
    (hrun : Along (serve (.granting sha1)) (CleanRequest (.granting sha1)) freshMount
      requests) :
    ∃ s, run (serve (.granting sha1)) freshMount requests = .ok s ∧
      ∀ p q fh, p ≠ q → s.rootdir.lookup q = some (.file fh) →
        s.rootdir.resolve p = .ok fh →
          ∃ s', serve (.granting sha1) s (.unlink p) = .ok s' ∧
            (KeepsName (.granting sha1) s s' q fh ↔ s.rootdir.data fh = []) := by
  have hgrants := Host.granting_grants sha1
  obtain ⟨s, hok, m, hs⟩ := (sound_freshMount (.granting sha1)).run hgrants hrun
  refine ⟨s, hok, fun p q fh hne hq hp => ?_⟩
  obtain ⟨s', hok', -⟩ := hs.represents.unlink hgrants
    ((hs.represents.resolve_eq p).symm.trans hp)
  refine ⟨s', hok', ?_, fun hdata => hs.keepsName hgrants hne hq hp hok' hdata⟩
  intro hkeeps
  by_contra hdata
  exact hs.not_keepsName hgrants hp hok' hdata hkeeps

def linkedRun : List Request :=
  [.mknod "q", .write "q" [97] 0, .link "q" "p", .symlink "q" "r"]

theorem unlink_keepsName_iff_linkedRun :
    ∃ s, run (serve (.granting sampleSha1)) freshMount linkedRun = .ok s ∧
      ∀ p q fh, p ≠ q → s.rootdir.lookup q = some (.file fh) →
        s.rootdir.resolve p = .ok fh →
          ∃ s', serve (.granting sampleSha1) s (.unlink p) = .ok s' ∧
            (KeepsName (.granting sampleSha1) s s' q fh ↔ s.rootdir.data fh = []) :=
  unlink_keepsName_iff sampleSha1 linkedRun (by decide +kernel)

/-- Both links lead to the file of `q`, and without either of them `q` is empty. -/
theorem linkedRun_empties :
    ∃ s, run (serve (.granting sampleSha1)) freshMount linkedRun = .ok s ∧
      readFile (.granting sampleSha1) s "q" = .ok (some [97]) ∧
      ∀ p ∈ ["p", "r"], s.rootdir.resolve p = s.rootdir.resolve "q" ∧
        ∃ s', serve (.granting sampleSha1) s (.unlink p) = .ok s' ∧
          readFile (.granting sampleSha1) s' "q" = .ok (some []) := by
  decide +kernel

end Ece318.Bbfs
