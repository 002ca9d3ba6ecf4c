import Ece318.Bbfs.UnlinkSteps

/-!
# Removals that are stopped

A block file goes after the pointers of its last file have gone, and the name goes last.
So a `bb_unlink` that is stopped takes nothing from the other files, and leaves its own
file as it was, or empty, or removed.  What it has taken from the counters it takes once
more when it is tried again.
-/

namespace Ece318.Bbfs

open Ece318.Foundation

/-! ## What the readers see -/

structure Seen (m : Ledger) (inode : Nat) (s₀ s : BbState) : Prop where
  others : ∀ other ∈ m.rootdir.linked, other ≠ inode → ∀ index ∈ m.rootdir.data other,
    s.file (blockOf index) = s₀.file (blockOf index)
  own : (s.rootdir = s₀.rootdir ∧ ∀ index ∈ m.rootdir.data inode,
      s.file (blockOf index) = s₀.file (blockOf index)) ∨
    s.rootdir = s₀.rootdir.write inode []

def OnlyOwn (m : Ledger) (inode index : Nat) : Prop :=
  ∀ other ∈ m.rootdir.linked, other ≠ inode → index ∉ m.rootdir.data other

section

variable {host : Host} {contents : Set Bytes} {files : PathMap} {m : Ledger}
  {s₀ s s' : BbState} {inode index : Nat} {fpath : Path}

namespace Seen

theorem refl (m : Ledger) (inode : Nat) (s₀ : BbState) : Seen m inode s₀ s₀ :=
  ⟨fun _ _ _ _ _ => rfl, .inl ⟨rfl, fun _ _ => rfl⟩⟩

theorem rootdir_write (h : Seen m inode s₀ s) :
    s.rootdir.write inode [] = s₀.rootdir.write inode [] := by
  rcases h.own with ⟨hrootdir, -⟩ | hrootdir
  · rw [hrootdir]
  · rw [hrootdir]
    simp [FileSystem.write]

theorem empty (h : Seen m inode s₀ s) : Seen m inode s₀ (s.setPointers inode []) :=
  ⟨h.others, .inr h.rootdir_write⟩

theorem drop (h : Seen m inode s₀ s) (honly : OnlyOwn m inode index) :
    Seen m inode s₀ ((s.setPointers inode []).removeFile (blockOf index)) where
  others := by
    intro other hother hne index' hindex'
    have hblock : blockOf index' ≠ blockOf index := by
      rintro heq
      rw [blockOf_inj.mp heq] at hindex'
      exact honly other hother hne hindex'
    simpa [hblock] using h.others other hother hne index' hindex'
  own := .inr h.rootdir_write

theorem resolve_eq (h : Seen m inode s₀ s) (path : Path) :
    s.rootdir.resolve path = s₀.rootdir.resolve path := by
  rcases h.own with ⟨hrootdir, -⟩ | hrootdir
  · rw [hrootdir]
  · rw [hrootdir, FileSystem.resolve_write]

theorem data_eq (h : Seen m inode s₀ s) {other : Nat} (hne : other ≠ inode) :
    s.rootdir.data other = s₀.rootdir.data other := by
  rcases h.own with ⟨hrootdir, -⟩ | hrootdir
  · rw [hrootdir]
  · rw [hrootdir, FileSystem.data_write, Function.update_of_ne hne]

end Seen

/-- The entries of `left` are still to be released, and the other files can spare them. -/
structure Unlinking (host : Host) (m : Ledger) (inode : Nat) (s₀ : BbState) (t : Table)
    (left : List Nat) (s : BbState) : Prop extends Seen m inode s₀ s where
  hashes : s.file .hashes =
    some (t.text fun index => generateHash host (m.table.data index))
  valid : t.Valid left
  above : ∀ other ∈ m.rootdir.linked, other ≠ inode → ∀ index ∈ m.rootdir.data other,
    left.count index < t.count index
  in_range : ∀ inode, t.Valid (m.rootdir.data inode)
  lastId_eq : s.lastId = t.records.length
  length_eq : t.records.length = m.table.records.length
  data_eq : ∀ index, t.data index = m.table.data index

structure AtEntry (host : Host) (m : Ledger) (inode : Nat) (s₀ : BbState) (t : Table)
    (index : Nat) (left : List Nat) (s : BbState) (id usage : Bytes) (locals : DeleteLocals) :
    Prop where
  unlinking : Unlinking host m inode s₀ t (index :: left) s
  live : 0 < t.count index
  id_eq : id = padDecimal 3 (index + 1)
  usage_eq : usage = padDecimal 2 (t.count index)
  position_eq : locals.position = 45 * index + 5
  ahead : Ahead (t.release index) (if t.count index = 1 then [] else s.rootdir.data inode)
    locals.pointersFile (entriesOf left)

def dropped (t : Table) (inode index : Nat) (s : BbState) : BbState :=
  if t.count index = 1 then (s.setPointers inode []).removeFile (blockOf index) else s

section

variable {t : Table} {left : List Nat} {id usage : Bytes} {locals : DeleteLocals}

namespace Unlinking

theorem release (h : Unlinking host m inode s₀ t (index :: left) s)
    (hwalked : Walked (fun index => generateHash host (m.table.data index)) inode t [index] s s') :
    Unlinking host m inode s₀ (t.release index) left s' := by
  have hsingle : ∀ other, other ≠ index → [index].count other = 0 := fun other hne =>
    List.count_eq_zero.mpr (by simpa using hne)
  have hself : [index].count index = 1 := List.count_singleton_self
  have hrootdir := hwalked.rootdir_eq
  simp only [Table.frees, Bool.or_false, decide_eq_true_eq] at hrootdir
  refine ⟨⟨?_, ?_⟩, ?_, ?_, ?_, ?_, ?_, ?_, ?_⟩
  · intro other hother hne index' hindex'
    have habove := h.above other hother hne index' hindex'
    rw [← h.others other hother hne index' hindex',
      hwalked.block_eq index' (h.in_range other index' hindex')]
    refine if_neg fun hgone => ?_
    by_cases heq : index' = index
    · subst index'
      rw [List.count_cons_self] at habove
      omega
    · have := hsingle index' heq
      omega
  · by_cases hone : t.count index = 1
    · rw [if_pos hone] at hrootdir
      exact .inr (hrootdir.trans h.rootdir_write)
    · rw [if_neg hone] at hrootdir
      rcases h.own with ⟨hsame, hblock⟩ | hempty
      · refine .inl ⟨hrootdir.trans hsame, fun index' hindex' => ?_⟩
        rw [← hblock index' hindex', hwalked.block_eq index' (h.in_range inode index' hindex')]
        refine if_neg fun hgone => ?_
        by_cases heq : index' = index
        · subst index'
          omega
        · have := hsingle index' heq
          omega
      · exact .inr (hrootdir.trans hempty)
  · exact hwalked.hashes_eq
  · exact Table.Valid.release (fun other hother => h.valid other (List.mem_cons_of_mem _ hother)) _
  · intro other hother hne index' hindex'
    have habove := h.above other hother hne index' hindex'
    rw [Table.count_release]
    rw [List.count_cons] at habove
    by_cases heq : index = index'
    · simp only [heq, beq_self_eq_true, if_true] at habove ⊢
      omega
    · simpa [heq] using habove
  · exact fun other => (h.in_range other).release index
  · rw [hwalked.lastId_eq, h.lastId_eq, Table.release_length]
  · rw [Table.release_length, h.length_eq]
  · exact fun other => (t.data_releaseAll [index] other).trans (h.data_eq other)

theorem resolve (h : Unlinking host m inode s₀ t left s)
    (hpath : s₀.rootdir.resolve fpath = .ok inode) : s.rootdir.resolve fpath = .ok inode :=
  (h.resolve_eq fpath).trans hpath

theorem onlyOwn (h : Unlinking host m inode s₀ t (index :: left) s) (hone : t.count index = 1) :
    OnlyOwn m inode index := by
  intro other hother hne hindex
  have habove := h.above other hother hne index hindex
  rw [List.count_cons_self] at habove
  omega

end Unlinking

/-- What holds of a `bb_unlink` between its steps. -/
def Removing (host : Host) (m : Ledger) (inode : Nat) (s₀ : BbState) (fpath : Path)
    (s : BbState) : UnlinkPhase → Prop
  | .waiting => s = s₀
  | .reading opened locals => opened = inode ∧ ∃ t left, Unlinking host m inode s₀ t left s ∧
      Ahead t (s.rootdir.data inode) locals.pointersFile (entriesOf left)
  | .emptying opened id usage locals => opened = inode ∧ ∃ t index left,
      AtEntry host m inode s₀ t index left s id usage locals ∧ t.count index = 1
  | .dropping opened id usage locals => opened = inode ∧ ∃ t index left before,
      AtEntry host m inode s₀ t index left before id usage locals ∧ t.count index = 1 ∧
        s = before.setPointers inode []
  | .counting opened id usage locals => opened = inode ∧ ∃ t index left before,
      AtEntry host m inode s₀ t index left before id usage locals ∧
        s = dropped t inode index before
  | .closing => Seen m inode s₀ s
  | .answered _ => ∃ closed, Seen m inode s₀ closed ∧
      (s = closed ∨ s = { closed with rootdir := closed.rootdir.erase fpath })

variable (host fpath) in
theorem moveUnlink_reading {hash : Nat → Bytes} {entry : Entry}
    (hfile : s.file .hashes = some (t.text hash)) (hnumber : entry.number < 1000) {rest : Bytes}
    (hunread : locals.pointersFile.unread (s.rootdir.data inode) = entry.text ++ rest)
    {position : Nat} {usage : Bytes}
    (hread : locals.cursor.read (t.text hash) entry = ⟨position, some usage⟩) :
    moveUnlink host fpath ⟨s, .reading inode locals⟩ () =
      let next : DeleteLocals :=
        ⟨(locals.pointersFile.fread 4096 (s.rootdir.data inode) 3).2, position, some usage,
          locals.hash⟩
      .ok ⟨s, if atoi usage = 0 then .reading inode next
        else if atoi usage = 1 then .emptying inode entry.text usage next
        else .counting inode entry.text usage next⟩ := by
  have hid : (locals.pointersFile.fread 4096 (s.rootdir.data inode) 3).1 = entry.text := by
    rw [ReadStream.fread_fst _ _ (by omega), hunread,
      List.take_left' (Entry.text_length hnumber)]
  simp only [Cursor.read, DeleteLocals.cursor, Cursor.mk.injEq] at hread
  obtain ⟨rfl, husage⟩ := hread
  simp only [moveUnlink, hid, Entry.text_length hnumber, ne_eq, not_true_eq_false, if_false,
    hfile, Option.getD_some, Entry.atoi_text, husage]

namespace Unlinking

theorem start (hs : Represents host s₀ m) (hcovered : m.Covered)
    (hlinked : inode ∈ m.rootdir.linked) {hashesfile : Bytes}
    (hhashes : s₀.file .hashes = some hashesfile) :
    ∃ left, Unlinking host m inode s₀ m.table left s₀ ∧
      Ahead m.table (s₀.rootdir.data inode) .start (entriesOf left) := by
  have hnumbers := number_entriesOf fun index hindex =>
    (hs.valid inode index hindex).trans_le m.table.length_le
  -- a prefix of the slots, as many as the walk gets to see
  obtain ⟨seen, hahead⟩ : ∃ seen, Ahead m.table (s₀.rootdir.data inode) .start
      (entriesOf ((m.rootdir.data inode).take seen)) := by
    have hahead := (Ahead.start (t := m.table) hnumbers).1
    rw [← pointerBytes_eq, ← hs.data_eq, entriesOf, ← List.map_take] at hahead
    exact ⟨_, hahead⟩
  refine ⟨_, ⟨Seen.refl m inode s₀, ?_, ?_, ?_, hs.valid, hs.stores.lastId_eq, rfl,
    fun _ => rfl⟩, hahead⟩
  · rw [hhashes, hs.stores.text_eq hhashes]
  · exact fun index hindex => hs.valid inode index (List.mem_of_mem_take hindex)
  · intro other hother hne index hindex
    have hboth := FileSystem.add_le_total (List.count index) hother hlinked hne
    have hslot := List.count_pos_iff.mpr hindex
    have htake := (List.take_sublist seen (m.rootdir.data inode)).count_le index
    have hcount := hcovered index
    rw [Ledger.references] at hcount
    omega

theorem reading (h : Unlinking host m inode s₀ t left s)
    (hahead : Ahead t (s.rootdir.data inode) locals.pointersFile (entriesOf left)) :
    ∃ phase, moveUnlink host fpath ⟨s, .reading inode locals⟩ () = .ok ⟨s, phase⟩ ∧
      Removing host m inode s₀ fpath s phase := by
  cases left with
  | nil =>
      have hshort : (locals.pointersFile.fread 4096 (s.rootdir.data inode) 3).1.length ≠ 3 := by
        have hunread := hahead.unread_length_lt
        rw [ReadStream.fread_fst _ _ (by omega), List.length_take]
        omega
      refine ⟨.closing, ?_, h.toSeen⟩
      simp only [moveUnlink]
      rw [if_pos hshort]
  | cons index left =>
      obtain ⟨hnumber, rest, hunread⟩ := hahead.unread_eq
      have hnext := hahead.fread
      rw [Entry.index_id] at hnext
      have hlt := h.valid index List.mem_cons_self
      have hrecord := List.getElem?_eq_getElem hlt
      have hread := Cursor.read_id (fun index => generateHash_length host (m.table.data index))
        hrecord locals.cursor
      rw [← Table.count_eq hrecord] at hread
      have hmove := moveUnlink_reading host fpath h.hashes hnumber hunread hread
      refine ⟨_, hmove, ?_⟩
      rw [atoi_padDecimal]
      have hentry : 0 < t.count index → AtEntry host m inode s₀ t index left s
          (Entry.id (index + 1)).text (padDecimal 2 (t.count index))
          ⟨(locals.pointersFile.fread 4096 (s.rootdir.data inode) 3).2, 45 * index + 5,
            some (padDecimal 2 (t.count index)), locals.hash⟩ :=
        fun hlive => ⟨h, hlive, rfl, rfl, rfl, hnext⟩
      by_cases hdead : t.count index = 0
      · have hrest := h.release (Walked.dead h.hashes hdead)
        rw [if_neg (by omega)] at hnext
        rw [Table.release_dead hdead] at hrest hnext
        rw [if_pos (by omega)]
        exact ⟨rfl, t, left, hrest, hnext⟩
      · have hatEntry := hentry (by omega)
        rw [if_neg (by omega)]
        by_cases hone : t.count index = 1
        · rw [if_pos (by omega)]
          exact ⟨rfl, t, index, left, hatEntry, hone⟩
        · rw [if_neg (by omega)]
          exact ⟨rfl, t, index, left, s, hatEntry, by rw [dropped, if_neg hone]⟩

end Unlinking

namespace AtEntry

theorem countDown (hgrants : host.Grants) (hpath : s₀.rootdir.resolve fpath = .ok inode)
    (h : AtEntry host m inode s₀ t index left s id usage locals) :
    ∃ s' locals', Bbfs.countDown (dropped t inode index s) id usage locals = .ok (s', locals') ∧
      Unlinking host m inode s₀ (t.release index) left s' ∧
      Ahead (t.release index) (s'.rootdir.data inode) locals'.pointersFile (entriesOf left) := by
  have hresolve := h.unlinking.resolve hpath
  have hrecord := List.getElem?_eq_getElem (h.unlinking.valid index List.mem_cons_self)
  have hlive := h.live
  rw [Table.count_eq hrecord] at hlive
  obtain ⟨s', hdelete, hwalked⟩ := deleteEntry_live hgrants
    (fun index => generateHash_length host (m.table.data index))
    (fun index => nulFree_generateHash host (m.table.data index)) h.unlinking.hashes hresolve
    hrecord hlive locals h.position_eq
  rw [← Table.count_eq hrecord, ← h.id_eq, ← h.usage_eq, deleteEntry_eq_countDown] at hdelete
  have husage : atoi usage = t.count index := by rw [h.usage_eq, atoi_padDecimal]
  have hdropped : (if atoi usage = 1 then dropBlock host s fpath id else .ok s) =
      .ok (dropped t inode index s) := by
    rw [husage, dropped, dropBlock, openPath_of_resolve hgrants hresolve, h.id_eq,
      cString_padDecimal]
    by_cases hone : t.count index = 1
    · rw [if_pos (by omega), if_pos hone]
    · rw [if_neg (by omega), if_neg hone]
  have hlive' := h.live
  rw [if_neg (by omega), hdropped] at hdelete
  refine ⟨s', _, hdelete, h.unlinking.release hwalked, ?_⟩
  rw [hwalked.data_eq]
  exact h.ahead

end AtEntry

theorem removing_move (hgrants : host.Grants) (hs : Represents host s₀ m) (hcovered : m.Covered)
    (hpath : s₀.rootdir.resolve fpath = .ok inode) {r : UnlinkRun}
    (h : Removing host m inode s₀ fpath r.store r.phase) :
    ∃ r', moveUnlink host fpath r () = .ok r' ∧
      Removing host m inode s₀ fpath r'.store r'.phase := by
  obtain ⟨s, phase⟩ := r
  cases phase with
  | waiting =>
      obtain rfl : s = s₀ := h
      have hopen := openPath_of_resolve hgrants hpath .deletePointers
      cases hfile : s.file .hashes with
      | none =>
          refine ⟨⟨s, .closing⟩, ?_, Seen.refl m inode s⟩
          simp only [moveUnlink, openFile, hgrants.fopen, if_true, hfile, hopen]
      | some hashesfile =>
          have hlinked := Ledger.linked_of_resolve ((hs.resolve_eq fpath).symm.trans hpath)
          obtain ⟨left, hunlinking, hahead⟩ := Unlinking.start hs hcovered hlinked hfile
          refine ⟨⟨s, .reading inode ⟨.start, 0, none, none⟩⟩, ?_, rfl, _, left, hunlinking, hahead⟩
          simp only [moveUnlink, openFile, hgrants.fopen, if_true, hfile, hopen]
  | reading opened locals =>
      obtain ⟨rfl, t, left, hunlinking, hahead⟩ := h
      obtain ⟨phase, hmove, hphase⟩ := hunlinking.reading hahead
      exact ⟨_, hmove, hphase⟩
  | emptying opened id usage locals =>
      obtain ⟨rfl, t, index, left, hentry, hone⟩ := h
      have hopen := openPath_of_resolve hgrants (hentry.unlinking.resolve hpath) .removePointers
      exact ⟨⟨s.setPointers opened [], .dropping opened id usage locals⟩,
        by simp only [moveUnlink, hopen], rfl, t, index, left, s, hentry, hone, rfl⟩
  | dropping opened id usage locals =>
      obtain ⟨rfl, t, index, left, before, hentry, hone, rfl⟩ := h
      refine ⟨_, rfl, rfl, t, index, left, before, hentry, ?_⟩
      rw [dropped, if_pos hone, hentry.id_eq, cString_padDecimal]
  | counting opened id usage locals =>
      obtain ⟨rfl, t, index, left, before, hentry, rfl⟩ := h
      obtain ⟨s', locals', hcount, hunlinking, hahead⟩ := hentry.countDown hgrants hpath
      exact ⟨⟨s', .reading opened locals'⟩, by simp only [moveUnlink, hcount]; rfl, rfl, _, left,
        hunlinking, hahead⟩
  | closing =>
      refine ⟨_, rfl, s, h, ?_⟩
      rw [if_pos hgrants.unlink, FileSystem.unlink]
      cases s.rootdir.lookup fpath with
      | none => exact .inl rfl
      | some node => exact .inr rfl
  | answered retstat => exact ⟨_, rfl, h⟩

theorem removing_run (hgrants : host.Grants) (hs : Represents host s₀ m) (hcovered : m.Covered)
    (hpath : s₀.rootdir.resolve fpath = .ok inode) (steps : Nat) :
    ∃ r : UnlinkRun, run (moveUnlink host fpath) ⟨s₀, .waiting⟩ (List.replicate steps ()) =
        .ok r ∧ Removing host m inode s₀ fpath r.store r.phase := by
  have hmoves : Along (moveUnlink host fpath) (fun _ _ => True) ⟨s₀, .waiting⟩
      (List.replicate steps ()) := Along.of_forall (fun _ _ _ => trivial) _
  exact run_invariant (fun r : UnlinkRun => Removing host m inode s₀ fpath r.store r.phase)
    (fun _ _ hr _ => removing_move hgrants hs hcovered hpath hr) rfl hmoves

theorem Removing.seen {phase : UnlinkPhase} (h : Removing host m inode s₀ fpath s phase) :
    Seen m inode s₀ s ∨
      ∃ closed, Seen m inode s₀ closed ∧
        s = { closed with rootdir := closed.rootdir.erase fpath } := by
  cases phase with
  | waiting =>
      obtain rfl : s = s₀ := h
      exact .inl (Seen.refl m inode s)
  | reading opened locals =>
      obtain ⟨-, t, left, hunlinking, -⟩ := h
      exact .inl hunlinking.toSeen
  | emptying opened id usage locals =>
      obtain ⟨-, t, index, left, hentry, -⟩ := h
      exact .inl hentry.unlinking.toSeen
  | dropping opened id usage locals =>
      obtain ⟨-, t, index, left, before, hentry, -, rfl⟩ := h
      exact .inl hentry.unlinking.empty
  | counting opened id usage locals =>
      obtain ⟨-, t, index, left, before, hentry, rfl⟩ := h
      rw [dropped]
      split
      · exact .inl (hentry.unlinking.drop (hentry.unlinking.onlyOwn ‹_›))
      · exact .inl hentry.unlinking.toSeen
  | closing => exact .inl h
  | answered retstat =>
      obtain ⟨closed, hseen, rfl | rfl⟩ := h
      · exact .inl hseen
      · exact .inr ⟨closed, hseen, rfl⟩

/-! ## What is read after the stop -/

namespace Seen

variable (hgrants : host.Grants) (hs : Represents host s₀ m) (hm : Reflects contents m files)
  (hpath : s₀.rootdir.resolve fpath = .ok inode)

include hgrants hs hpath in
theorem readFile_own (h : Seen m inode s₀ s) : readFile host s fpath = readFile host s₀ fpath ∨
    readFile host s fpath = .ok (some []) := by
  rcases h.own with ⟨hrootdir, hblock⟩ | hrootdir
  · refine .inl (readFile_congr hgrants (by rw [hrootdir]) (fun _ _ => by rw [hrootdir]) ?_)
    intro found hfound id hid
    obtain rfl := Except.ok.inj (hpath.symm.trans hfound)
    rw [hs.data_eq, entries_pointerBytes (hs.valid inode)] at hid
    obtain ⟨index, hindex, rfl⟩ := List.mem_map.mp hid
    rw [cString_padDecimal]
    exact hblock index hindex
  · have hleads : Leads s (entries idLength (s.rootdir.data inode)) [] := by
      rw [hrootdir, FileSystem.data_write, Function.update_self]
      exact .nil
    exact .inr (readFile_eq hgrants ((h.resolve_eq fpath).trans hpath) hleads (by simp) (by simp))

include hm hs in
theorem noLinks (h : Seen m inode s₀ s) : s.rootdir.NoLinks := by
  have hbefore := hs.noLinks hm
  rcases h.own with ⟨hrootdir, -⟩ | hrootdir
  · rw [hrootdir]
    exact hbefore
  · rw [hrootdir]
    exact hbefore.write inode []

include hs hm hpath

theorem sight_other (h : Seen m inode s₀ s) {other : Path} (hne : other ≠ fpath) :
    s.sight other = s₀.sight other := by
  have hapart : ∀ found, s₀.rootdir.resolve other = .ok found →
      found ∈ m.rootdir.linked ∧ found ≠ inode := by
    intro found hfound
    exact ⟨Ledger.linked_of_resolve ((hs.resolve_eq other).symm.trans hfound),
      hs.inode_ne hm hpath hfound hne⟩
  refine sight_eq_iff.mpr ⟨h.resolve_eq other, fun found hfound => ⟨?_, fun id hid => ?_⟩⟩
  · exact h.data_eq (hapart found hfound).2
  · rw [hs.data_eq, entries_pointerBytes (hs.valid found)] at hid
    obtain ⟨index, hindex, rfl⟩ := List.mem_map.mp hid
    rw [cString_padDecimal]
    exact h.others found (hapart found hfound).1 (hapart found hfound).2 index hindex

theorem sight_erase (h : Seen m inode s₀ s) {other : Path} (hne : other ≠ fpath) :
    BbState.sight { s with rootdir := s.rootdir.erase fpath } other = s₀.sight other := by
  rw [← h.sight_other hs hm hpath hne]
  exact sight_eq_iff.mpr ⟨(h.noLinks hs hm).resolve_erase hne, fun _ _ => ⟨rfl, fun _ _ => rfl⟩⟩

end Seen

end

end

/-- What the disk holds when a `bb_unlink` is stopped after so many steps. -/
def stoppedUnlink (host : Host) (s : BbState) (fpath : Path) (steps : Nat) :
    Except Fault BbState :=
  (run (moveUnlink host fpath) ⟨s, .waiting⟩ (List.replicate steps ())).map UnlinkRun.store

theorem Carries.stoppedUnlink {host : Host} {contents : Set Bytes} {s : BbState}
    {files : PathMap} (h : Carries host contents s files) (hgrants : host.Grants) {fpath : Path}
    (hpath : files fpath ≠ none) (steps : Nat) :
    ∃ s', Bbfs.stoppedUnlink host s fpath steps = .ok s' ∧
      (∀ other, other ≠ fpath → readFile host s' other = readFile host s other) ∧
      (readFile host s' fpath = readFile host s fpath ∨
        readFile host s' fpath = .ok (some []) ∨ readFile host s' fpath = .ok none) := by
  obtain ⟨blocks, hblocks⟩ := Option.ne_none_iff_exists'.mp hpath
  obtain ⟨inode, hresolve⟩ := h.resolve hblocks
  obtain ⟨-, m, hs, hm⟩ := h
  obtain ⟨r, hrun, hremoving⟩ := removing_run hgrants hs hm.covered hresolve steps
  refine ⟨r.store, by rw [Bbfs.stoppedUnlink, hrun]; rfl, ?_⟩
  rcases hremoving.seen with hseen | ⟨closed, hseen, heq⟩
  · exact ⟨fun other hne => readFile_of_sight hgrants (hseen.sight_other hs hm hresolve hne),
      (hseen.readFile_own hgrants hs hresolve).imp_right .inl⟩
  · rw [heq]
    refine ⟨fun other hne => readFile_of_sight hgrants (hseen.sight_erase hs hm hresolve hne),
      .inr (.inr ?_)⟩
    exact readFile_missing hgrants (FileSystem.resolve_none _ (by simp [FileSystem.lookup_erase]))

/--
Wherever a `bb_unlink` is stopped: after the restart the other paths read as they did, and
the path itself as it did, or as an empty file, or not at all.
-/
theorem stopped_unlink_keeps_reads (sha1 : Bytes → Vector UInt8 20) (events : List Event)
    (hinj : Set.InjOn sha1 (handedOver events))
    (hrun : Along (serveEvent (.granting sha1)) (Resumable (.granting sha1)) freshMount events)
    {s : BbState} (hok : run (serveEvent (.granting sha1)) freshMount events = .ok s)
    {path : Path} (hpath : events.foldl PathMap.serveEvent .empty path ≠ none) (steps : Nat) :
    ∃ s', stoppedUnlink (.granting sha1) s path steps = .ok s' ∧
      (∀ other, other ≠ path →
        readFile (.granting sha1) (mount s') other = readFile (.granting sha1) s other) ∧
      (readFile (.granting sha1) (mount s') path = readFile (.granting sha1) s path ∨
        readFile (.granting sha1) (mount s') path = .ok (some []) ∨
        readFile (.granting sha1) (mount s') path = .ok none) := by
  have hgrants := Host.granting_grants sha1
  obtain ⟨s₀, hok₀, hcarries⟩ := session_carries hgrants hinj subset_rfl hrun
  obtain rfl := Except.ok.inj (hok₀.symm.trans hok)
  obtain ⟨s', hstop, hothers, hown⟩ := hcarries.stoppedUnlink hgrants hpath steps
  refine ⟨s', hstop, fun other hne => (readFile_mount hgrants).trans (hothers other hne), ?_⟩
  rw [readFile_mount hgrants]
  exact hown

def twinSession : List Event :=
  [.request (.mknod "a"), .request (.write "a" [97] 0), .request (.mknod "b"),
    .request (.write "b" [97] 0)]

theorem handedOver_twinSession : handedOver twinSession ⊆ {[97], [98]} := by
  rintro content (⟨path, buf, offset, hmem, rfl⟩ | ⟨buf, steps, hmem, rfl⟩)
  · simp only [twinSession, List.mem_cons, Event.request.injEq, Request.write.injEq,
      List.not_mem_nil, reduceCtorEq, false_or, or_false] at hmem
    rcases hmem with ⟨-, rfl, -⟩ | ⟨-, rfl, -⟩ <;> decide
  · simp [twinSession] at hmem

theorem stopped_unlink_keeps_reads_twinSession :
    ∃ s s', run (serveEvent (.granting sampleSha1)) freshMount twinSession = .ok s ∧
      stoppedUnlink (.granting sampleSha1) s "b" 3 = .ok s' ∧
      readFile (.granting sampleSha1) (mount s') "a" = .ok (some [97]) := by
  have hends : ∃ s, run (serveEvent (.granting sampleSha1)) freshMount twinSession = .ok s ∧
      readFile (.granting sampleSha1) s "a" = .ok (some [97]) := by
    decide +kernel
  obtain ⟨s, hok, hread⟩ := hends
  obtain ⟨s', hstop, hothers, -⟩ := stopped_unlink_keeps_reads sampleSha1 twinSession
    (sampleSha1_injOn.mono handedOver_twinSession) (by decide +kernel) hok
    (show twinSession.foldl PathMap.serveEvent .empty "b" ≠ none by decide) 3
  exact ⟨s, s', hok, hstop, (hothers "a" (by decide)).trans hread⟩

end Ece318.Bbfs
