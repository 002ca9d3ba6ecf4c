import Mathlib.Data.List.AList
import Mathlib.Algebra.BigOperators.Group.Finset.Basic
import Mathlib.Algebra.Order.BigOperators.Group.Finset

/-!
# A directory of names over numbered files

The part of a POSIX file system that one flat directory shows: names lead to
inodes, several names may lead to one inode (hard links), and a symbolic link
leads to another name.  An open descriptor is an inode number, so it survives a
rename or an unlink of the name it was opened by.
-/

namespace Ece318.Foundation

inductive Errno where
  | noEntry
  | accessDenied
  | alreadyExists
  | tooManyLinks
  deriving DecidableEq, Repr

/-- ENOENT, EACCES, EEXIST and ELOOP. -/
def Errno.code : Errno → Int
  | .noEntry => 2
  | .accessDenied => 13
  | .alreadyExists => 17
  | .tooManyLinks => 40

inductive Node (ν : Type) where
  | file (inode : Nat)
  | symlink (inode : Nat) (target : ν)
  deriving DecidableEq, Repr

abbrev Node.inode {ν : Type} : Node ν → Nat
  | .file inode | .symlink inode _ => inode

/-- Names are distinct, and every inode in use is below `next`. -/
structure FileSystem (ν α : Type) [DecidableEq ν] where
  names : AList (fun _ : ν => Node ν)
  data : Nat → α
  next : Nat
  fresh : ∀ name node, names.lookup name = some node → node.inode < next

namespace FileSystem

variable {ν α : Type} [DecidableEq ν]

def empty (blank : α) : FileSystem ν α :=
  ⟨∅, fun _ => blank, 0, by simp⟩

def lookup (fs : FileSystem ν α) (name : ν) : Option (Node ν) :=
  fs.names.lookup name

theorem lookup_lt (fs : FileSystem ν α) {name : ν} {node : Node ν}
    (h : fs.lookup name = some node) : node.inode < fs.next :=
  fs.fresh name node h

/-- Follow symbolic links, `fuel` names at most. -/
def follow (fs : FileSystem ν α) : Nat → ν → Except Errno Nat
  | 0, _ => .error .tooManyLinks
  | fuel + 1, name =>
      match fs.lookup name with
      | none => .error .noEntry
      | some (.file inode) => .ok inode
      | some (.symlink _ target) => fs.follow fuel target

/-- The inode a path leads to; the kernel gives up after 40 links. -/
def resolve (fs : FileSystem ν α) (name : ν) : Except Errno Nat :=
  fs.follow 41 name

def write (fs : FileSystem ν α) (inode : Nat) (content : α) : FileSystem ν α :=
  { fs with data := Function.update fs.data inode content }

def insertNew (fs : FileSystem ν α) (name : ν) (make : Nat → Node ν)
    (hmake : ∀ inode, (make inode).inode = inode) (content : α) :
    FileSystem ν α where
  names := fs.names.insert name (make fs.next)
  data := Function.update fs.data fs.next content
  next := fs.next + 1
  fresh := by
    intro other node hlookup
    by_cases hother : other = name
    · subst other
      rw [AList.lookup_insert, Option.some.injEq] at hlookup
      subst node
      rw [hmake]
      omega
    · rw [AList.lookup_insert_ne hother] at hlookup
      exact Nat.lt_succ_of_lt (fs.fresh other node hlookup)

/-- `open` with `O_CREAT | O_EXCL`. -/
def create (fs : FileSystem ν α) (name : ν) (content : α) :
    Except Errno (FileSystem ν α) :=
  match fs.lookup name with
  | some _ => .error .alreadyExists
  | none => .ok (fs.insertNew name .file (fun _ => rfl) content)

/-- `symlink`: the content of the link's own inode is never read. -/
def symlink (fs : FileSystem ν α) (target name : ν) (blank : α) :
    Except Errno (FileSystem ν α) :=
  match fs.lookup name with
  | some _ => .error .alreadyExists
  | none => .ok (fs.insertNew name (.symlink · target) (fun _ => rfl) blank)

def erase (fs : FileSystem ν α) (name : ν) : FileSystem ν α where
  names := fs.names.erase name
  data := fs.data
  next := fs.next
  fresh := by
    intro other node hlookup
    by_cases hother : other = name
    · subst other
      rw [AList.lookup_erase] at hlookup
      contradiction
    · rw [AList.lookup_erase_ne hother] at hlookup
      exact fs.fresh other node hlookup

def insertOld (fs : FileSystem ν α) (name : ν) (node : Node ν)
    (hnode : node.inode < fs.next) : FileSystem ν α where
  names := fs.names.insert name node
  data := fs.data
  next := fs.next
  fresh := by
    intro other node' hlookup
    by_cases hother : other = name
    · subst other
      rw [AList.lookup_insert, Option.some.injEq] at hlookup
      exact hlookup ▸ hnode
    · rw [AList.lookup_insert_ne hother] at hlookup
      exact fs.fresh other node' hlookup

def unlink (fs : FileSystem ν α) (name : ν) : Except Errno (FileSystem ν α) :=
  match fs.lookup name with
  | none => .error .noEntry
  | some _ => .ok (fs.erase name)

/-- `link` does not follow a symbolic link. -/
def link (fs : FileSystem ν α) (name newName : ν) : Except Errno (FileSystem ν α) :=
  match hname : fs.lookup name with
  | none => .error .noEntry
  | some node =>
      match fs.lookup newName with
      | some _ => .error .alreadyExists
      | none => .ok (fs.insertOld newName node (fs.lookup_lt hname))

/-- `rename`: nothing happens when both names are links to one inode. -/
def rename (fs : FileSystem ν α) (name newName : ν) :
    Except Errno (FileSystem ν α) :=
  match hname : fs.lookup name with
  | none => .error .noEntry
  | some node =>
      if (fs.lookup newName).map Node.inode = some node.inode then .ok fs
      else .ok ((fs.erase name).insertOld newName node (fs.lookup_lt hname))

/-! ## What a name leads to afterwards -/

section

variable (fs : FileSystem ν α)

@[simp] theorem lookup_empty (blank : α) (name : ν) :
    (empty blank : FileSystem ν α).lookup name = none := by
  simp [lookup, empty]

@[simp] theorem lookup_write (inode : Nat) (content : α) (name : ν) :
    (fs.write inode content).lookup name = fs.lookup name := rfl

@[simp] theorem data_write (inode : Nat) (content : α) :
    (fs.write inode content).data = Function.update fs.data inode content := rfl

theorem lookup_insertNew (name other : ν) (make : Nat → Node ν)
    (hmake : ∀ inode, (make inode).inode = inode) (content : α) :
    (fs.insertNew name make hmake content).lookup other =
      if other = name then some (make fs.next) else fs.lookup other := by
  by_cases h : other = name
  · subst other
    simp [lookup, insertNew]
  · simp [lookup, insertNew, h, AList.lookup_insert_ne h]

theorem lookup_insertOld (name other : ν) (node : Node ν)
    (hnode : node.inode < fs.next) :
    (fs.insertOld name node hnode).lookup other =
      if other = name then some node else fs.lookup other := by
  by_cases h : other = name
  · subst other
    simp [lookup, insertOld]
  · simp [lookup, insertOld, h, AList.lookup_insert_ne h]

theorem lookup_erase (name other : ν) :
    (fs.erase name).lookup other = if other = name then none else fs.lookup other := by
  by_cases h : other = name
  · subst other
    simp [lookup, erase]
  · simp [lookup, erase, h, AList.lookup_erase_ne h]

@[simp] theorem data_erase (name : ν) : (fs.erase name).data = fs.data := rfl

@[simp] theorem data_insertOld (name : ν) (node : Node ν) (hnode : node.inode < fs.next) :
    (fs.insertOld name node hnode).data = fs.data := rfl

@[simp] theorem follow_write (inode : Nat) (content : α) (fuel : Nat) (name : ν) :
    (fs.write inode content).follow fuel name = fs.follow fuel name := by
  induction fuel generalizing name with
  | zero => rfl
  | succ fuel ih => simp [follow, ih]

@[simp] theorem resolve_write (inode : Nat) (content : α) (name : ν) :
    (fs.write inode content).resolve name = fs.resolve name :=
  follow_write fs inode content 41 name

theorem resolve_file {name : ν} {inode : Nat} (h : fs.lookup name = some (.file inode)) :
    fs.resolve name = .ok inode := by
  simp [resolve, follow, h]

theorem resolve_none {name : ν} (h : fs.lookup name = none) :
    fs.resolve name = .error .noEntry := by
  simp [resolve, follow, h]

theorem follow_lt {fuel : Nat} {name : ν} {inode : Nat}
    (h : fs.follow fuel name = .ok inode) :
    inode < fs.next ∧ ∃ other, fs.lookup other = some (.file inode) := by
  induction fuel generalizing name with
  | zero => simp [follow] at h
  | succ fuel ih =>
      rw [follow] at h
      cases hname : fs.lookup name with
      | none => simp [hname] at h
      | some node =>
          cases node with
          | file inode' =>
              simp only [hname, Except.ok.injEq] at h
              subst inode'
              exact ⟨fs.lookup_lt hname, name, hname⟩
          | symlink inode' target =>
              simp only [hname] at h
              exact ih h

end

/-! ## Directories without links -/

structure NoLinks (fs : FileSystem ν α) : Prop where
  regular : ∀ name node, fs.lookup name = some node → ∃ inode, node = .file inode
  single : ∀ first second inode, fs.lookup first = some (.file inode) →
    fs.lookup second = some (.file inode) → first = second

theorem noLinks_empty (blank : α) : (empty blank : FileSystem ν α).NoLinks :=
  ⟨by simp, by simp⟩

namespace NoLinks

variable {fs : FileSystem ν α}

theorem file_of_lookup (h : fs.NoLinks) {name : ν} {node : Node ν}
    (hname : fs.lookup name = some node) : node = .file node.inode := by
  obtain ⟨inode, rfl⟩ := h.regular name node hname
  rfl

theorem write (h : fs.NoLinks) (inode : Nat) (content : α) :
    (fs.write inode content).NoLinks :=
  ⟨h.regular, h.single⟩

theorem insertNew (h : fs.NoLinks) (name : ν) (content : α) :
    (fs.insertNew name .file (fun _ => rfl) content).NoLinks := by
  have hold : ∀ other inode, fs.lookup other = some (.file inode) → inode ≠ fs.next :=
    fun other inode hother => (fs.lookup_lt hother).ne
  constructor
  · intro other node hother
    rw [lookup_insertNew] at hother
    split at hother
    · exact ⟨fs.next, (Option.some.inj hother).symm⟩
    · exact h.regular other node hother
  · intro first second inode hfirst hsecond
    rw [lookup_insertNew] at hfirst hsecond
    split at hfirst <;> split at hsecond
    · simp_all
    · cases hfirst
      exact absurd rfl (hold second _ hsecond)
    · cases hsecond
      exact absurd rfl (hold first _ hfirst)
    · exact h.single first second inode hfirst hsecond

theorem erase (h : fs.NoLinks) (name : ν) : (fs.erase name).NoLinks := by
  constructor
  · intro other node hother
    rw [lookup_erase] at hother
    split at hother
    · contradiction
    · exact h.regular other node hother
  · intro first second inode hfirst hsecond
    rw [lookup_erase] at hfirst hsecond
    split at hfirst <;> split at hsecond <;> try contradiction
    exact h.single first second inode hfirst hsecond

theorem insertOld (h : fs.NoLinks) {name newName : ν} {inode : Nat}
    (hname : fs.lookup name = some (.file inode))
    (hlt : inode < (fs.erase name).next) :
    ((fs.erase name).insertOld newName (.file inode) hlt).NoLinks := by
  -- a renamed file has left its old name, so its inode stays under one name
  have hgone : ∀ other, (fs.erase name).lookup other ≠ some (.file inode) := by
    intro other hother
    rw [lookup_erase] at hother
    split at hother
    · contradiction
    · rename_i hne
      exact hne (h.single other name inode hother hname)
  constructor
  · intro other node hother
    rw [lookup_insertOld] at hother
    split at hother
    · exact ⟨inode, (Option.some.inj hother).symm⟩
    · exact (h.erase name).regular other node hother
  · intro first second other hfirst hsecond
    rw [lookup_insertOld] at hfirst hsecond
    split at hfirst <;> split at hsecond
    · simp_all
    · cases hfirst
      exact absurd hsecond (hgone second)
    · cases hsecond
      exact absurd hfirst (hgone first)
    · exact (h.erase name).single first second other hfirst hsecond

theorem resolve_congr (h : fs.NoLinks) {fs' : FileSystem ν α} {name : ν}
    (hname : fs'.lookup name = fs.lookup name) : fs'.resolve name = fs.resolve name := by
  cases hlookup : fs.lookup name with
  | none => rw [resolve_none _ (hname.trans hlookup), resolve_none _ hlookup]
  | some node =>
      obtain ⟨inode, rfl⟩ := h.regular name node hlookup
      rw [resolve_file _ (hname.trans hlookup), resolve_file _ hlookup]

theorem resolve_erase (h : fs.NoLinks) {name other : ν} (hne : other ≠ name) :
    (fs.erase name).resolve other = fs.resolve other :=
  h.resolve_congr (by rw [lookup_erase, if_neg hne])

end NoLinks

/-! ## Sums over the linked files -/

def linked (fs : FileSystem ν α) : Finset Nat :=
  (fs.names.entries.filterMap fun entry =>
    match entry.2 with
    | .file inode => some inode
    | .symlink _ _ => none).toFinset

theorem mem_linked {fs : FileSystem ν α} {inode : Nat} :
    inode ∈ fs.linked ↔ ∃ name, fs.lookup name = some (.file inode) := by
  simp only [linked, List.mem_toFinset, List.mem_filterMap, lookup]
  constructor
  · rintro ⟨⟨name, node⟩, hmem, hnode⟩
    cases node with
    | file inode' =>
        cases hnode
        exact ⟨name, AList.mem_lookup_iff.mpr hmem⟩
    | symlink inode' target => cases hnode
  · rintro ⟨name, hname⟩
    exact ⟨⟨name, .file inode⟩, AList.mem_lookup_iff.mp hname, rfl⟩

def total (fs : FileSystem ν α) (measure : α → Nat) : Nat :=
  ∑ inode ∈ fs.linked, measure (fs.data inode)

section

variable {fs : FileSystem ν α} (measure : α → Nat)

@[simp] theorem total_empty (blank : α) :
    (empty blank : FileSystem ν α).total measure = 0 := by
  simp [total, linked, empty]

theorem le_total {inode : Nat} (h : inode ∈ fs.linked) :
    measure (fs.data inode) ≤ fs.total measure :=
  Finset.single_le_sum (f := fun inode => measure (fs.data inode))
    (fun _ _ => Nat.zero_le _) h

theorem add_le_total {first second : Nat} (hfirst : first ∈ fs.linked)
    (hsecond : second ∈ fs.linked) (hne : first ≠ second) :
    measure (fs.data first) + measure (fs.data second) ≤ fs.total measure := by
  rw [total, ← Finset.sum_pair hne (f := fun inode => measure (fs.data inode))]
  exact Finset.sum_le_sum_of_subset
    (Finset.insert_subset hfirst (Finset.singleton_subset_iff.mpr hsecond))

theorem linked_insertNew (name : ν) (content : α) (hname : fs.lookup name = none) :
    (fs.insertNew name .file (fun _ => rfl) content).linked =
      insert fs.next fs.linked := by
  ext inode
  simp only [mem_linked, Finset.mem_insert, lookup_insertNew]
  constructor
  · rintro ⟨other, hother⟩
    split at hother
    · cases hother
      exact .inl rfl
    · exact .inr ⟨other, hother⟩
  · rintro (rfl | ⟨other, hother⟩)
    · exact ⟨name, by simp⟩
    · refine ⟨other, ?_⟩
      rw [if_neg (fun heq => by simp [heq, hname] at hother), hother]

theorem next_notMem_linked : fs.next ∉ fs.linked := by
  rw [mem_linked]
  rintro ⟨name, hname⟩
  exact (fs.lookup_lt hname).ne rfl

theorem total_insertNew (name : ν) (content : α) (hname : fs.lookup name = none) :
    (fs.insertNew name .file (fun _ => rfl) content).total measure =
      fs.total measure + measure content := by
  have hnext := fs.next_notMem_linked
  rw [total, linked_insertNew name content hname, Finset.sum_insert hnext, add_comm]
  congr 1
  · refine Finset.sum_congr rfl fun inode hinode => ?_
    have hne : inode ≠ fs.next := fun heq => hnext (heq ▸ hinode)
    simp [insertNew, Function.update_of_ne hne]
  · simp [insertNew]

theorem total_write {inode : Nat} (content : α) (h : inode ∈ fs.linked) :
    (fs.write inode content).total measure + measure (fs.data inode) =
      fs.total measure + measure content := by
  have hlinked : (fs.write inode content).linked = fs.linked := rfl
  have hrest : ∑ other ∈ fs.linked.erase inode,
        measure ((fs.write inode content).data other) =
      ∑ other ∈ fs.linked.erase inode, measure (fs.data other) := by
    refine Finset.sum_congr rfl fun other hother => ?_
    simp [Function.update_of_ne (Finset.ne_of_mem_erase hother)]
  rw [total, hlinked, ← Finset.add_sum_erase _ _ h, total,
    ← Finset.add_sum_erase fs.linked (fun other => measure (fs.data other)) h, hrest]
  simp only [data_write, Function.update_self]
  omega

def IsOnlyName (fs : FileSystem ν α) (name : ν) (inode : Nat) : Prop :=
  ∀ other, fs.lookup other = some (.file inode) ↔ other = name

theorem isOnlyName_iff {name : ν} {inode : Nat} :
    fs.IsOnlyName name inode ↔ fs.lookup name = some (.file inode) ∧
      ∀ other ∈ fs.names.keys, fs.lookup other = some (.file inode) → other = name := by
  constructor
  · exact fun h => ⟨(h name).mpr rfl, fun other _ => (h other).mp⟩
  · rintro ⟨hname, hkeys⟩ other
    refine ⟨fun hother => hkeys other ?_ hother, fun heq => heq ▸ hname⟩
    exact AList.lookup_isSome.mp (by rw [← lookup, hother]; rfl)

instance (name : ν) (inode : Nat) : Decidable (fs.IsOnlyName name inode) :=
  decidable_of_iff _ isOnlyName_iff.symm

theorem NoLinks.isOnlyName (h : fs.NoLinks) {name : ν} {inode : Nat}
    (hname : fs.lookup name = some (.file inode)) : fs.IsOnlyName name inode := by
  intro other
  constructor
  · exact fun hother => h.single other name inode hother hname
  · rintro rfl
    exact hname

theorem linked_erase {name : ν} {inode : Nat} (h : fs.IsOnlyName name inode) :
    (fs.erase name).linked = fs.linked.erase inode := by
  ext other
  simp only [mem_linked, Finset.mem_erase, lookup_erase]
  constructor
  · rintro ⟨path, hpath⟩
    split at hpath
    · contradiction
    · rename_i hne
      refine ⟨fun heq => hne ((h path).mp (heq ▸ hpath)), path, hpath⟩
  · rintro ⟨hne, path, hpath⟩
    refine ⟨path, ?_⟩
    rw [if_neg, hpath]
    rintro rfl
    rw [(h path).mpr rfl] at hpath
    cases hpath
    exact hne rfl

theorem total_erase {name : ν} {inode : Nat} (h : fs.IsOnlyName name inode) :
    (fs.erase name).total measure + measure (fs.data inode) = fs.total measure := by
  have hmem : inode ∈ fs.linked := mem_linked.mpr ⟨name, (h name).mpr rfl⟩
  rw [total, linked_erase h, total, ← Finset.add_sum_erase _ _ hmem, add_comm]
  rfl

theorem total_erase_write {name : ν} {inode : Nat} (h : fs.IsOnlyName name inode)
    (content : α) :
    ((fs.write inode content).erase name).total measure =
      (fs.erase name).total measure := by
  have hlinked : ((fs.write inode content).erase name).linked = (fs.erase name).linked := rfl
  rw [total, hlinked, total]
  refine Finset.sum_congr rfl fun other hother => ?_
  rw [linked_erase h] at hother
  simp [Function.update_of_ne (Finset.ne_of_mem_erase hother)]

end

theorem total_erase_absent {fs : FileSystem ν α} (measure : α → Nat) {name : ν}
    (h : fs.lookup name = none) : (fs.erase name).total measure = fs.total measure := by
  have hlinked : (fs.erase name).linked = fs.linked := by
    ext inode
    simp only [mem_linked, lookup_erase]
    constructor
    · rintro ⟨other, hother⟩
      split at hother
      · contradiction
      · exact ⟨other, hother⟩
    · rintro ⟨other, hother⟩
      refine ⟨other, ?_⟩
      rw [if_neg (fun heq => by simp [heq, h] at hother), hother]
  rw [total, hlinked]
  rfl

theorem total_insertOld {fs : FileSystem ν α} (measure : α → Nat)
    {name newName : ν} {inode : Nat} (hname : fs.lookup name = some (.file inode))
    (hlt : inode < (fs.erase name).next) (hne : newName ≠ name) :
    ((fs.erase name).insertOld newName (.file inode) hlt).total measure =
      (fs.erase newName).total measure := by
  have hlinked : ((fs.erase name).insertOld newName (.file inode) hlt).linked =
      (fs.erase newName).linked := by
    ext other
    simp only [mem_linked, lookup_insertOld, lookup_erase]
    constructor
    · rintro ⟨path, hpath⟩
      split at hpath
      · cases hpath
        exact ⟨name, by rw [if_neg hne.symm, hname]⟩
      · rename_i hpathNew
        split at hpath
        · contradiction
        · exact ⟨path, by rw [if_neg hpathNew, hpath]⟩
    · rintro ⟨path, hpath⟩
      split at hpath
      · contradiction
      · rename_i hpathNew
        by_cases heq : path = name
        · subst path
          exact ⟨newName, by rw [if_pos rfl, ← hpath, hname]⟩
        · exact ⟨path, by rw [if_neg hpathNew, if_neg heq, hpath]⟩
  rw [total, hlinked]
  rfl

/-! ## What other names keep linked -/

section

variable {fs fs' : FileSystem ν α} (measure : α → Nat)

theorem total_le_of_linked (hlinked : fs'.linked ⊆ fs.linked) (hdata : fs'.data = fs.data) :
    fs'.total measure ≤ fs.total measure := by
  rw [total, hdata]
  exact Finset.sum_le_sum_of_subset hlinked

theorem linked_erase_subset (name : ν) : (fs.erase name).linked ⊆ fs.linked := by
  intro inode
  simp only [mem_linked, lookup_erase]
  rintro ⟨other, hother⟩
  split at hother
  · contradiction
  · exact ⟨other, hother⟩

theorem linked_insertOld_subset {name newName : ν} {node : Node ν}
    (hname : fs.lookup name = some node) (hlt : node.inode < fs.next) :
    (fs.insertOld newName node hlt).linked ⊆ fs.linked := by
  intro inode
  simp only [mem_linked, lookup_insertOld]
  rintro ⟨other, hother⟩
  split at hother
  · exact ⟨name, by rw [hname, hother]⟩
  · exact ⟨other, hother⟩

/-- A `rename` that succeeds either finds one file under both names or moves one. -/
theorem rename_cases {name newName : ν} (h : fs.rename name newName = .ok fs') :
    ∃ node, fs.lookup name = some node ∧
      ((fs.lookup newName).map Node.inode = some node.inode ∧ fs' = fs ∨
        (fs.lookup newName).map Node.inode ≠ some node.inode ∧
          ∃ hlt, fs' = (fs.erase name).insertOld newName node hlt) := by
  unfold rename at h
  split at h
  · contradiction
  · rename_i node hname
    split at h
    · rename_i hsame
      cases h
      exact ⟨node, hname, .inl ⟨hsame, rfl⟩⟩
    · rename_i hother
      cases h
      exact ⟨node, hname, .inr ⟨hother, fs.lookup_lt hname, rfl⟩⟩

theorem lookup_of_rename_error {name newName : ν} {errno : Errno}
    (h : fs.rename name newName = .error errno) : fs.lookup name = none := by
  unfold rename at h
  split at h
  · assumption
  · split at h <;> contradiction

theorem linked_rename_subset {name newName : ν} (h : fs.rename name newName = .ok fs') :
    fs'.linked ⊆ fs.linked ∧ fs'.data = fs.data := by
  obtain ⟨node, hname, ⟨-, rfl⟩ | ⟨-, hlt, rfl⟩⟩ := rename_cases h
  · exact ⟨subset_rfl, rfl⟩
  · refine ⟨fun inode => ?_, rfl⟩
    simp only [mem_linked, lookup_insertOld, lookup_erase]
    rintro ⟨other, hother⟩
    split at hother
    · exact ⟨name, by rw [hname, hother]⟩
    · split at hother
      · contradiction
      · exact ⟨other, hother⟩

theorem total_insertNew_symlink (name target : ν) (content : α)
    (hname : fs.lookup name = none) :
    (fs.insertNew name (.symlink · target) (fun _ => rfl) content).total measure =
      fs.total measure := by
  have hlinked : (fs.insertNew name (.symlink · target) (fun _ => rfl) content).linked =
      fs.linked := by
    ext inode
    simp only [mem_linked, lookup_insertNew]
    constructor
    · rintro ⟨other, hother⟩
      split at hother
      · cases hother
      · exact ⟨other, hother⟩
    · rintro ⟨other, hother⟩
      refine ⟨other, ?_⟩
      rw [if_neg (fun heq => by simp [heq, hname] at hother), hother]
  rw [total, hlinked, total]
  refine Finset.sum_congr rfl fun inode hinode => ?_
  have hne : inode ≠ fs.next := fun heq => fs.next_notMem_linked (heq ▸ hinode)
  simp [insertNew, Function.update_of_ne hne]

end

/-! ## What a call does to the contents -/

section

variable {fs fs' : FileSystem ν α}

theorem data_insertNew (name : ν) (make : Nat → Node ν)
    (hmake : ∀ inode, (make inode).inode = inode) (content : α) (inode : Nat) :
    (fs.insertNew name make hmake content).data inode = content ∨
      (fs.insertNew name make hmake content).data inode = fs.data inode := by
  by_cases h : inode = fs.next
  · exact .inl (by simp [insertNew, h])
  · exact .inr (by simp [insertNew, Function.update_of_ne h])

theorem data_of_create {name : ν} {content : α} (h : fs.create name content = .ok fs')
    (inode : Nat) : fs'.data inode = content ∨ fs'.data inode = fs.data inode := by
  unfold create at h
  split at h
  · contradiction
  · cases h
    exact data_insertNew _ _ _ _ inode

theorem data_of_symlink {target name : ν} {blank : α}
    (h : fs.symlink target name blank = .ok fs') (inode : Nat) :
    fs'.data inode = blank ∨ fs'.data inode = fs.data inode := by
  unfold symlink at h
  split at h
  · contradiction
  · cases h
    exact data_insertNew _ _ _ _ inode

theorem data_of_unlink {name : ν} (h : fs.unlink name = .ok fs') : fs'.data = fs.data := by
  unfold unlink at h
  split at h
  · contradiction
  · cases h
    rfl

theorem data_of_link {name newName : ν} (h : fs.link name newName = .ok fs') :
    fs'.data = fs.data := by
  unfold link at h
  split at h
  · contradiction
  · split at h
    · contradiction
    · cases h
      rfl

end

/-! ## Another view of the contents -/

section

variable {β : Type} (f : α → β) (fs : FileSystem ν α)

def map : FileSystem ν β :=
  ⟨fs.names, fun inode => f (fs.data inode), fs.next, fs.fresh⟩

@[simp] theorem lookup_map (name : ν) : (fs.map f).lookup name = fs.lookup name := rfl

@[simp] theorem data_map (inode : Nat) : (fs.map f).data inode = f (fs.data inode) := rfl

@[simp] theorem resolve_map (name : ν) : (fs.map f).resolve name = fs.resolve name := by
  have hfollow : ∀ fuel other, (fs.map f).follow fuel other = fs.follow fuel other := by
    intro fuel
    induction fuel with
    | zero => intro other; rfl
    | succ fuel ih => intro other; simp [follow, ih]
  exact hfollow 41 name

theorem total_map (measure : β → Nat) :
    (fs.map f).total measure = fs.total (fun content => measure (f content)) := rfl

theorem map_write (inode : Nat) (content : α) :
    (fs.write inode content).map f = (fs.map f).write inode (f content) := by
  have hdata : (fun other => f (Function.update fs.data inode content other)) =
      Function.update (fun other => f (fs.data other)) inode (f content) :=
    Function.comp_update f fs.data inode content
  simp [map, write, hdata]

theorem map_insertNew (name : ν) (make : Nat → Node ν)
    (hmake : ∀ inode, (make inode).inode = inode) (content : α) :
    (fs.insertNew name make hmake content).map f =
      (fs.map f).insertNew name make hmake (f content) := by
  have hdata : (fun other => f (Function.update fs.data fs.next content other)) =
      Function.update (fun other => f (fs.data other)) fs.next (f content) :=
    Function.comp_update f fs.data fs.next content
  simp [map, insertNew, hdata]

theorem create_map (name : ν) (content : α) :
    (fs.map f).create name (f content) = (fs.create name content).map (map f) := by
  simp only [create, lookup_map]
  cases fs.lookup name with
  | none => simp [Except.map, map_insertNew]
  | some node => rfl

theorem symlink_map (target name : ν) (blank : α) :
    (fs.map f).symlink target name (f blank) =
      (fs.symlink target name blank).map (map f) := by
  simp only [symlink, lookup_map]
  cases fs.lookup name with
  | none => simp [Except.map, map_insertNew]
  | some node => rfl

theorem unlink_map (name : ν) :
    (fs.map f).unlink name = (fs.unlink name).map (map f) := by
  simp only [unlink, lookup_map]
  cases fs.lookup name <;> rfl

theorem link_map (name newName : ν) :
    (fs.map f).link name newName = (fs.link name newName).map (map f) := by
  unfold link
  simp only [lookup_map]
  split
  · rfl
  · split <;> rfl

theorem rename_map (name newName : ν) :
    (fs.map f).rename name newName = (fs.rename name newName).map (map f) := by
  unfold rename
  simp only [lookup_map]
  split
  · rfl
  · rename_i node hname
    by_cases hsame : (fs.lookup newName).map Node.inode = some node.inode
    · refine (if_pos hsame).trans ?_
      rw [if_pos hsame]
      rfl
    · refine (if_neg hsame).trans ?_
      rw [if_neg hsame]
      rfl

end

end FileSystem

end Ece318.Foundation
