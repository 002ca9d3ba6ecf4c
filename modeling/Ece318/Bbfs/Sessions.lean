import Ece318.Bbfs.Dedup
import Ece318.Bbfs.Stops

/-!
# The store after a stop

A stop leaves a store that the next mount can go on with if the write had not made its
block file yet, or had written all of it.  In between there is a block file without a
line, or a line whose block is empty, and the writes that follow trust both.
-/

namespace Ece318.Bbfs

open Ece318.Foundation

/-! ## Where the steps of a write have got to -/

section

variable {host : Host} {s s' : BbState} {t : Table} {buf data : Bytes} {steps index : Nat}

theorem run_of_answered {r : WriteRace Unit} {id : Int} (h : r.phase () = .answered id)
    (steps : Nat) :
    run (moveWrite host fun _ => data) r (List.replicate steps ()) = .ok r := by
  induction steps with
  | zero => rfl
  | succ steps ih =>
      have hmove : moveWrite host (fun _ => data) r () = .ok r := by
        simp only [moveWrite, h]
      rw [List.replicate_succ, run_cons _ hmove, ih]

theorem stoppedWrite_of_answered (hsize : buf.length ≤ maxBlockSize) {before : Nat} {id : Int}
    (hrun : run (moveWrite host fun _ : Unit => buf ++ [0]) (WriteRace.start s)
      (List.replicate before ()) = .ok ((WriteRace.start s).move () s' (.answered id)))
    (hle : before ≤ steps) : stoppedWrite host s buf steps = .ok s' := by
  have hanswered : ((WriteRace.start s).move () s' (.answered id)).phase () = .answered id :=
    by simp [WriteRace.move]
  obtain ⟨after, rfl⟩ := Nat.exists_eq_add_of_le hle
  rw [stoppedWrite, if_neg (by omega), List.replicate_add, run_append _ hrun,
    run_of_answered hanswered]
  rfl

namespace Stores

theorem stoppedWrite_before (h : Stores host s t) (hgrants : host.Grants)
    (hsize : buf.length ≤ maxBlockSize) (hle : steps ≤ 1) :
    ∃ s', stoppedWrite host s buf steps = .ok s' ∧ Stores host s' t ∧
      s'.rootdir = s.rootdir := by
  rw [stoppedWrite, if_neg (by omega)]
  interval_cases steps
  · exact ⟨s, rfl, h, rfl⟩
  · have hcompare := h.compareHashes (hgrants.fopen _) buf
    refine ⟨s.setFile .hashes (t.bytes host), ?_, h.setHashes, rfl⟩
    simp [run, moveWrite, WriteRace.start, WriteRace.move, generateHash_append_nul, hcompare,
      Except.map]

theorem stoppedWrite_found (h : Stores host s t) (hgrants : host.Grants)
    (hsize : buf.length ≤ maxBlockSize) (hroom : t.HasRoom host buf)
    (hfind : t.find host buf = some index) (hle : 2 ≤ steps) :
    ∃ s', stoppedWrite host s buf steps = .ok s' ∧ Stores host s' (t.store host buf).2 ∧
      s'.rootdir = s.rootdir := by
  obtain ⟨record, hrecord, hlive, hhash⟩ := t.find_eq_some host hfind
  have hcount : record.count < 99 := by
    simp only [Table.HasRoom, hfind] at hroom
    exact hroom record hrecord
  have hindex := Table.index_lt hrecord
  have hcompare := h.compareHashes (hgrants.fopen _) buf
  have hset := h.setHashes
  have hwrite := hset.writeHash_share (hgrants.fopen _) hrecord hcount
  have hold : (index : Int) + 1 ≤ s.lastId := by
    rw [h.lastId_eq]
    omega
  have hstore := t.store_of_find_some host hfind
  rw [hstore] at hcompare ⊢
  rw [hhash] at hwrite
  have hrun : run (moveWrite host fun _ : Unit => buf ++ [0]) (WriteRace.start s)
      (List.replicate 2 ()) = .ok ((WriteRace.start s).move ()
        ((s.setFile .hashes (t.bytes host)).setFile .hashes ((t.share index).bytes host))
        (.answered ((index : Int) + 1))) := by
    simp [run, moveWrite, WriteRace.start, WriteRace.move, generateHash_append_nul, hcompare,
      hold, hwrite, Except.map, List.replicate]
  exact ⟨_, stoppedWrite_of_answered hsize hrun hle,
    hset.share hrecord hlive, rfl⟩

theorem stoppedWrite_through (h : Stores host s t) (hgrants : host.Grants)
    (hsize : buf.length ≤ maxBlockSize) (hroom : t.HasRoom host buf) (hle : 5 ≤ steps) :
    ∃ s', stoppedWrite host s buf steps = .ok s' ∧ Stores host s' (t.store host buf).2 ∧
      s'.rootdir = s.rootdir := by
  obtain ⟨s', hgenerate, hs', hrootdir⟩ :=
    h.generateBlock hgrants (buf ++ [0]) ((t.hasRoom_append_nul host buf).mpr hroom)
  have halone := moveWrite_alone host (fun _ : Unit => buf ++ [0]) s ()
  simp only [hgenerate, Except.map] at halone
  rw [Table.store_append_nul] at hs'
  exact ⟨s', stoppedWrite_of_answered hsize halone hle, hs', hrootdir⟩

theorem stoppedWrite_between (h : Stores host s t) (hgrants : host.Grants)
    (hsize : buf.length ≤ maxBlockSize) (hroom : t.HasRoom host buf)
    (hfind : t.find host buf = none) (hlow : 2 ≤ steps) (hhigh : steps ≤ 4) :
    ∃ s', stoppedWrite host s buf steps = .ok s' ∧ Touched s s' ∧
      s'.file (blockOf t.records.length) = some [] ∧
      s'.file .hashes = some ((if steps = 2 then t else t.add buf).bytes host) := by
  have hlt : t.records.length < 999 := by simpa only [Table.HasRoom, hfind] using hroom
  have hcompare := h.compareHashes (hgrants.fopen _) buf
  rw [t.store_of_find_none host hfind] at hcompare
  have hnew : ¬ (t.records.length : Int) + 1 ≤ s.lastId := by
    rw [h.lastId_eq]
    omega
  have hnext : StorageFile.block (formatInt 3 ((s.lastId : Int) + 1)) = blockOf s.lastId := rfl
  have hwrite := writeHash_add (t := t)
    (s := (s.setFile .hashes (t.bytes host)).setFile (blockOf s.lastId) [])
    (by simp) h.lastId_eq (hgrants.fopen _) buf hlt
  simp only [BbState.lastId_setFile] at hwrite
  have hmade := (Touched.setHashes s (t.bytes host)).nextBlock []
  have hlined := hmade.hashes_again ((t.add buf).bytes host)
  rw [stoppedWrite, if_neg (by omega)]
  have hthree : run (moveWrite host fun _ : Unit => buf ++ [0]) (WriteRace.start s)
      (List.replicate 3 ()) = .ok ((WriteRace.start s).move ()
        (((s.setFile .hashes (t.bytes host)).setFile (blockOf s.lastId) []).setFile .hashes
          ((t.add buf).bytes host)) (.recorded (blockOf s.lastId))) := by
    simp [run, moveWrite, WriteRace.start, WriteRace.move, generateHash_append_nul, hcompare,
      hnew, hgrants.fopen, hnext, hwrite, Except.map, List.replicate]
  interval_cases steps
  · refine ⟨(s.setFile .hashes (t.bytes host)).setFile (blockOf s.lastId) [], ?_, hmade, ?_, ?_⟩
    · simp [run, moveWrite, WriteRace.start, WriteRace.move, generateHash_append_nul, hcompare,
        hnew, hgrants.fopen, hnext, Except.map, List.replicate]
    · simp [h.lastId_eq]
    · simp
  · refine ⟨_, by rw [hthree]; rfl, hlined, ?_, ?_⟩
    · simp [h.lastId_eq]
    · simp
  · have hfour : List.replicate 4 () = List.replicate 3 () ++ [()] := rfl
    refine ⟨_, by rw [hfour, run_concat _ hthree]; rfl, hlined.setLastId _, ?_, ?_⟩
    · simp [WriteRace.move, h.lastId_eq]
    · simp [WriteRace.move]

end Stores

/-! ## Which stops leave a store to go on with -/

/-- The hashes file is a table, and the block files are the blocks of its live records. -/
def BbState.Consistent (host : Host) (s : BbState) : Prop :=
  s.IsTable ∧ s.Deduplicated host

theorem BbState.Consistent.length_eq (h : s.Consistent host) :
    ((s.file .hashes).getD []).length = 45 * s.lastId := h.2.length_eq

theorem Table.store_grows (hroom : t.HasRoom host buf) :
    (t.store host buf).2.records.length = t.records.length ∨
      (t.store host buf).2.records.length = t.records.length + 1 ∧
        (t.store host buf).2.count t.records.length ≠ 0 := by
  have hcount := Table.count_store hroom t.records.length
  cases hfind : t.find host buf with
  | some index =>
      left
      rw [t.store_of_find_some host hfind]
      exact List.length_modify _ _ _
  | none =>
      right
      have hlt : t.records.length < 999 := by simpa only [Table.HasRoom, hfind] using hroom
      rw [t.store_of_find_none host hfind] at hcount ⊢
      rw [if_pos rfl] at hcount
      exact ⟨by simp [Table.add_records t hlt], hcount ▸ Nat.succ_ne_zero _⟩

namespace Stores

variable {t' : Table}

theorem nextLastId_eq (h : Stores host s t) (h' : Stores host s' t')
    (hgrows : t'.records.length = t.records.length ∨
      t'.records.length = t.records.length + 1 ∧ t'.count t.records.length ≠ 0) :
    s.nextLastId s' = s'.lastId := by
  rw [BbState.nextLastId, h.lastId_eq, h'.lastId_eq]
  rcases hgrows with hsame | ⟨hlength, hlive⟩
  · rw [if_pos, hsame]
    by_contra hsome
    obtain ⟨index, hlt, hname⟩ := h'.block_only _ hsome
    have heq : t.records.length = index := idText_injective hname
    omega
  · rw [if_neg (by simp [h'.block_live hlive]), hlength]

theorem tidy_stop (h : Stores host s t) (htidy : Tidy s) (h' : Stores host s' t')
    (hgrows : t'.records.length = t.records.length ∨
      t'.records.length = t.records.length + 1 ∧ t'.count t.records.length ≠ 0)
    (hstop : s' = s ∨ Touched s s') : Tidy s' ∧ (s'.Whole ↔ s.Whole) := by
  rcases hstop with rfl | htouched
  · exact ⟨htidy, Iff.rfl⟩
  · have hsame : s'.setLastId (s.nextLastId s') = s' := by
      rw [h.nextLastId_eq h' hgrows]
      rfl
    have htidy' := htidy.touched_nextLastId htouched
    have hwhole := htouched.whole_iff
    rw [hsame] at htidy' hwhole
    exact ⟨htidy', hwhole⟩

theorem whole_of_consistent (h : Stores host s t) (htidy : Tidy s)
    (hconsistent : (mount s).Consistent host) : s.Whole := by
  have hlength : ((s.file .hashes).getD []).length = 45 * (mount s).lastId :=
    hconsistent.length_eq
  rw [h.hashes_eq, t.bytes_length, ← h.lastId_eq] at hlength
  exact htidy.lastId_mount_iff.mp (by omega)

theorem nextLastId_of_made (h : Stores host s t)
    (hempty : s'.file (blockOf t.records.length) = some []) :
    s.nextLastId s' = t.records.length + 1 := by
  rw [BbState.nextLastId, h.lastId_eq, hempty]
  simp

theorem created_not_consistent (hempty : s'.file (blockOf t.records.length) = some [])
    (hhashes : s'.file .hashes = some (t.bytes host)) : ¬ (mount s').Consistent host := by
  intro hconsistent
  have hlength : ((s'.file .hashes).getD []).length = 45 * (mount s').lastId :=
    hconsistent.length_eq
  rw [hhashes, Option.getD_some, t.bytes_length] at hlength
  have hsome : (mount s').file (blockOf t.records.length) ≠ none := by
    rw [mount, BbState.file_setLastId, hempty]
    simp
  obtain ⟨id, -, hle, hname⟩ := hconsistent.2.block_only _ hsome
  have hid : t.records.length + 1 = id := padDecimal_injective 3 hname
  omega

theorem clean_of_recorded (h : Stores host s t) (htidy : Tidy s) (hlt : t.records.length < 999)
    (htouched : Touched s s') (hempty : s'.file (blockOf t.records.length) = some [])
    (hhashes : s'.file .hashes = some ((t.add buf).bytes host))
    (hconsistent : (mount s').Consistent host) :
    s.Whole ∧ generateHash host [] = generateHash host buf := by
  have hrecords : (t.add buf).records = t.records ++ [Record.new buf] :=
    Table.add_records t hlt
  have hnext := h.nextLastId_of_made hempty
  have hlength : ((s'.file .hashes).getD []).length = 45 * (mount s').lastId :=
    hconsistent.length_eq
  rw [hhashes, Option.getD_some, Table.bytes_length, hrecords, List.length_append,
    List.length_singleton] at hlength
  have hlast : (mount s').lastId = t.records.length + 1 := by omega
  constructor
  · refine htouched.whole_iff.mp ((htidy.touched_nextLastId htouched).lastId_mount_iff.mp ?_)
    rw [BbState.lastId_setLastId, hnext]
    exact hlast
  · have hcontent := hconsistent.2.hash_eq (t.records.length + 1) [] (by omega) hlast.ge hempty
    have hrecord : (t.add buf).records[t.records.length]? = some (Record.new buf) := by
      simp [hrecords]
    have hfield : (mount s').hashField (t.records.length + 1) =
        generateHash host (Record.new buf).data := by
      have hfile : (mount s').file .hashes = s'.file .hashes := rfl
      rw [BbState.hashField, BbState.field, hfile, hhashes]
      exact Table.readAt_hash host hrecord
    rw [hfield, Record.new_data, generateHash_cString] at hcontent
    exact hcontent

end Stores

def Kept (host : Host) (s : BbState) : Prop :=
  ∃ t, Stores host s t ∧ t.Distinct host ∧ Tidy s

theorem Kept.consistent (h : Kept host s) : s.Consistent host := by
  obtain ⟨t, hs, hdistinct, -⟩ := h
  exact ⟨hs.isTable, hs.deduplicated hdistinct⟩

theorem Kept.restart (h : Kept host s) (hwhole : s.Whole) : Kept host (mount s) := by
  obtain ⟨t, hs, hdistinct, htidy⟩ := h
  rw [htidy.mount_eq hwhole]
  exact ⟨t, hs, hdistinct, htidy⟩

theorem kept_freshMount (host : Host) : Kept host freshMount :=
  ⟨_, stores_freshMount host, distinct_initial host, .freshMount⟩

theorem Stores.kept_of_recorded (h : Stores host s t) (htidy : Tidy s)
    (hdistinct : t.Distinct host) (hlt : t.records.length < 999)
    (hfind : t.find host buf = none) (htouched : Touched s s')
    (hempty : s'.file (blockOf t.records.length) = some [])
    (hhashes : s'.file .hashes = some ((t.add buf).bytes host)) (hwhole : s.Whole)
    (hhash : generateHash host [] = generateHash host buf) : Kept host (mount s') := by
  have hnext := h.nextLastId_of_made hempty
  have hline : Record.line host t.records.length (Record.new []) =
      Record.line host t.records.length (Record.new buf) := by
    simp only [Record.line, Record.new_data, Record.new_count, generateHash_cString, hhash]
  have hbytes : (t.add []).bytes host = (t.add buf).bytes host := by
    rw [Table.bytes_add host hlt, Table.bytes_add host hlt, hline]
  have hnone : t.find host [] = none := by
    rw [← hfind]
    simp only [Table.find, hhash]
  have hroom : t.HasRoom host [] := by simpa only [Table.HasRoom, hnone] using hlt
  have hdistinct' := hdistinct.store hroom
  rw [t.store_of_find_none host hnone] at hdistinct'
  refine ⟨t.add [], h.add [] hlt ?_ ?_ ?_ ?_, hdistinct',
    (htidy.stop hwhole (.inr htouched)).1⟩
  · rw [htidy.mount_touched htouched hwhole, BbState.lastId_setLastId, hnext]
  · rw [hbytes]
    exact hhashes
  · exact hempty
  · intro id hid
    refine htouched.file_eq _ (by simp) fun heq => hid ?_
    rw [h.lastId_eq] at heq
    exact StorageFile.block.inj heq

/-! ## Sessions -/

/-- Requests that keep the table, and writes that have room for their block. -/
def Proper (host : Host) (s : BbState) : Event → Prop
  | .request request => KeepsTable host s request ∧ request.KeepsEntries
  | .restart => True
  | .stop buf _ => buf.length ≤ maxBlockSize ∧ WithinLimits host s buf

instance (event : Event) : Decidable (Proper host s event) :=
  match event with
  | .request request =>
      inferInstanceAs (Decidable (KeepsTable host s request ∧ request.KeepsEntries))
  | .restart => .isTrue trivial
  | .stop buf _ =>
      inferInstanceAs (Decidable (buf.length ≤ maxBlockSize ∧ WithinLimits host s buf))

def Settled (host : Host) (s : BbState) (buf : Bytes) (steps : Nat) : Prop :=
  (compareHashes host s (generateHash host buf)).1 ≤ s.lastId ∨ steps ≤ 1 ∨ 5 ≤ steps

instance : Decidable (Settled host s buf steps) :=
  inferInstanceAs (Decidable (_ ∨ _ ∨ _))

/-- What the end of a mount must not come upon. -/
def Clean (host : Host) (s : BbState) : Event → Prop
  | .request _ => True
  | .restart => s.Whole
  | .stop buf steps => s.Whole ∧
      (Settled host s buf steps ∨ 3 ≤ steps ∧ generateHash host [] = generateHash host buf)

instance (event : Event) : Decidable (Clean host s event) :=
  match event with
  | .request _ => .isTrue trivial
  | .restart => inferInstanceAs (Decidable s.Whole)
  | .stop _ _ => inferInstanceAs (Decidable (_ ∧ (_ ∨ _)))

theorem Stores.settled_iff (h : Stores host s t) (hgrants : host.Grants) :
    Settled host s buf steps ↔ t.find host buf ≠ none ∨ steps ≤ 1 ∨ 5 ≤ steps := by
  rw [Settled, h.compareHashes (hgrants.fopen _) buf, h.lastId_eq, Table.store]
  refine or_congr_left ?_
  cases hfind : t.find host buf with
  | none => simp
  | some index =>
      obtain ⟨record, hrecord, -⟩ := t.find_eq_some host hfind
      have hindex := Table.index_lt hrecord
      simp only [ne_eq, reduceCtorEq, not_false_eq_true, iff_true]
      omega

theorem Stores.stop_settled (h : Stores host s t) (htidy : Tidy s) (hgrants : host.Grants)
    (hsize : buf.length ≤ maxBlockSize) (hlimits : WithinLimits host s buf)
    (hsettled : Settled host s buf steps) :
    ∃ s' t', stoppedWrite host s buf steps = .ok s' ∧ Stores host s' t' ∧
      (t' = t ∨ t.HasRoom host buf ∧ t' = (t.store host buf).2) ∧ s'.rootdir = s.rootdir ∧
      Tidy s' ∧ (s'.Whole ↔ s.Whole) := by
  have hroom := (h.withinLimits_iff hgrants buf).mp hlimits
  rcases Nat.lt_or_ge 1 steps with hlate | hearly
  · have hstored : ∃ s', stoppedWrite host s buf steps = .ok s' ∧
        Stores host s' (t.store host buf).2 ∧ s'.rootdir = s.rootdir := by
      rcases (h.settled_iff hgrants).mp hsettled with hfind | hsteps
      · obtain ⟨index, hindex⟩ := Option.ne_none_iff_exists'.mp hfind
        exact h.stoppedWrite_found hgrants hsize hroom hindex hlate
      · exact h.stoppedWrite_through hgrants hsize hroom (by omega)
    obtain ⟨s', hok, hs', hrootdir⟩ := hstored
    exact ⟨s', _, hok, hs', .inr ⟨hroom, rfl⟩, hrootdir,
      h.tidy_stop htidy hs' (Table.store_grows hroom) (stoppedWrite_touched hgrants hok)⟩
  · obtain ⟨s', hok, hs', hrootdir⟩ := h.stoppedWrite_before hgrants hsize hearly
    exact ⟨s', t, hok, hs', .inl rfl, hrootdir,
      h.tidy_stop htidy hs' (.inl rfl) (stoppedWrite_touched hgrants hok)⟩

theorem Kept.stop (h : Kept host s) (hgrants : host.Grants)
    (hproper : Proper host s (.stop buf steps)) :
    ∃ s', serveEvent host s (.stop buf steps) = .ok s' ∧
      (s'.Consistent host → Clean host s (.stop buf steps)) ∧
      (Clean host s (.stop buf steps) → Kept host s') := by
  obtain ⟨t, hs, hdistinct, htidy⟩ := h
  obtain ⟨hsize, hlimits⟩ := hproper
  have hroom := (hs.withinLimits_iff hgrants buf).mp hlimits
  by_cases hsettled : Settled host s buf steps
  · obtain ⟨s', t', hok, hs', htable, -, htidy', hwhole⟩ :=
      hs.stop_settled htidy hgrants hsize hlimits hsettled
    have hdistinct' : t'.Distinct host := by
      rcases htable with rfl | ⟨-, rfl⟩
      · exact hdistinct
      · exact hdistinct.store hroom
    refine ⟨mount s', by rw [serveEvent, hok]; rfl, ?_, ?_⟩
    · exact fun hconsistent =>
        ⟨hwhole.mp (hs'.whole_of_consistent htidy' hconsistent), .inl hsettled⟩
    · exact fun hclean => Kept.restart ⟨t', hs', hdistinct', htidy'⟩ (hwhole.mpr hclean.1)
  · have hbetween := mt (hs.settled_iff hgrants).mpr hsettled
    simp only [not_or, ne_eq, not_not] at hbetween
    obtain ⟨hfind, hlow, hhigh⟩ := hbetween
    have hlt : t.records.length < 999 := by simpa only [Table.HasRoom, hfind] using hroom
    obtain ⟨s', hok, htouched, hempty, hhashes⟩ :=
      hs.stoppedWrite_between hgrants hsize hroom hfind (by omega) (by omega : steps ≤ 4)
    refine ⟨mount s', by rw [serveEvent, hok]; rfl, ?_, ?_⟩
    · intro hconsistent
      by_cases htwo : steps = 2
      · rw [if_pos htwo] at hhashes
        exact absurd hconsistent (Stores.created_not_consistent hempty hhashes)
      · rw [if_neg htwo] at hhashes
        obtain ⟨hwhole, hhash⟩ :=
          hs.clean_of_recorded htidy hlt htouched hempty hhashes hconsistent
        exact ⟨hwhole, .inr ⟨by omega, hhash⟩⟩
    · rintro ⟨hwhole, hcase⟩
      obtain ⟨hthree, hhash⟩ := hcase.resolve_left hsettled
      rw [if_neg (by omega)] at hhashes
      exact hs.kept_of_recorded htidy hdistinct hlt hfind htouched hempty hhashes hwhole hhash

theorem Kept.request (h : Kept host s) (hgrants : host.Grants) {request : Request}
    (hproper : Proper host s (.request request)) :
    ∃ s', serveEvent host s (.request request) = .ok s' ∧ Kept host s' := by
  obtain ⟨t, hs, hdistinct, htidy⟩ := h
  obtain ⟨hkeeps, hentries⟩ := hproper
  obtain ⟨s', t', hok, hs', hcases⟩ := hs.serve hgrants hkeeps
  have hlimit : s'.lastId ≤ 999 := by
    rw [hs'.lastId_eq]
    exact t'.length_le
  refine ⟨s', hok, t', hs', ?_, htidy.serve hgrants hentries hok hlimit⟩
  rcases hcases with ⟨path, buf, offset, -, hroom, rfl⟩ | rfl | ⟨path, indices, -, rfl, -⟩
  · exact hdistinct.store hroom
  · exact hdistinct
  · exact hdistinct.releaseAll indices

/-- One event: the store is consistent after it just if no mount ended badly. -/
theorem Kept.serveEvent (h : Kept host s) (hgrants : host.Grants) {event : Event}
    (hproper : Proper host s event) :
    ∃ s', Bbfs.serveEvent host s event = .ok s' ∧
      (s'.Consistent host → Clean host s event) ∧ (Clean host s event → Kept host s') := by
  cases event with
  | request request =>
      obtain ⟨s', hok, hs'⟩ := h.request hgrants hproper
      exact ⟨s', hok, fun _ => trivial, fun _ => hs'⟩
  | restart =>
      obtain ⟨t, hs, hdistinct, htidy⟩ := h
      exact ⟨mount s, rfl, hs.whole_of_consistent htidy,
        Kept.restart ⟨t, hs, hdistinct, htidy⟩⟩
  | stop buf steps => exact h.stop hgrants hproper

end

/--
A store that is used over many mounts, each ended between requests or inside a write,
is consistent after every event if and only if no mount ends while a block file is
missing, or between the block file of a new block and its content.
-/
theorem session_consistent_iff (sha1 : Bytes → Vector UInt8 20) (events : List Event)
    (hproper : Along (serveEvent (.granting sha1)) (Proper (.granting sha1)) freshMount events) :
    (∀ first second, events = first ++ second →
        ∃ s, run (serveEvent (.granting sha1)) freshMount first = .ok s ∧
          s.Consistent (.granting sha1)) ↔
      Along (serveEvent (.granting sha1)) (Clean (.granting sha1)) freshMount events := by
  have hgrants := Host.granting_grants sha1
  have hfresh := kept_freshMount (.granting sha1)
  refine forall_prefix_iff_along
    (fun s => s.Consistent (.granting sha1) → Kept (.granting sha1) s)
    (BbState.Consistent (.granting sha1)) ?_ (fun _ => hfresh) hfresh.consistent hproper
  intro s event hkept hconsistent hproper
  obtain ⟨s', hok, hclean, hkept'⟩ := (hkept hconsistent).serveEvent hgrants hproper
  exact ⟨s', hok, fun hconsistent' => hkept' (hclean hconsistent'),
    hclean, fun hclean' => (hkept' hclean').consistent⟩

def stoppedSession : List Event :=
  [.request (.mknod "a"), .request (.write "a" [97] 0), .stop [98] 5, .restart,
    .request (.write "a" [98] 4069), .stop [99] 3]

/-- All is well up to the last event, which stops a write before its block is there. -/
theorem session_consistent_iff_stoppedSession :
    (∀ first second, stoppedSession.dropLast = first ++ second →
        ∃ s, run (serveEvent (.granting sampleSha1)) freshMount first = .ok s ∧
          s.Consistent (.granting sampleSha1)) ∧
      ¬ ∀ first second, stoppedSession = first ++ second →
        ∃ s, run (serveEvent (.granting sampleSha1)) freshMount first = .ok s ∧
          s.Consistent (.granting sampleSha1) := by
  have hsettled := session_consistent_iff sampleSha1 stoppedSession.dropLast (by decide +kernel)
  have hwhole := session_consistent_iff sampleSha1 stoppedSession (by decide +kernel)
  exact ⟨hsettled.mpr (by decide +kernel), mt hwhole.mp (by decide +kernel)⟩

end Ece318.Bbfs
