import Mathlib.Data.Fintype.Card
import Ece318.Bbfs.AnyStore
import Ece318.Bbfs.TableRuns

/-!
# Writes at once

`generate_block` takes no lock.  A request decides by a lookup that its block is
new, and reads `last_id` again for the name of the block file, for the line of
the hashes file and for its answer.  As long as no two requests are between the
block file and the new `last_id`, and none moves `last_id` on while another has
still to answer it, every interleaving keeps the table.
-/

namespace Ece318.Bbfs

open Ece318.Foundation

/-- How far a `generate_block` has come, with what it holds. -/
inductive WritePhase where
  | waiting
  | found (id : Int)
  | missed
  | created (nextBlock : StorageFile)
  | recorded (nextBlock : StorageFile)
  | counted (nextBlock : StorageFile)
  | answered (id : Int)
  deriving DecidableEq, Repr

namespace WritePhase

def claims : WritePhase → Bool
  | created _ | recorded _ => true
  | _ => false

def fills : WritePhase → Bool
  | counted _ => true
  | _ => false

end WritePhase

structure WriteRace (ι : Type) where
  store : BbState
  phase : ι → WritePhase

namespace WriteRace

variable {ι : Type}

def start (store : BbState) : WriteRace ι := ⟨store, fun _ => .waiting⟩

def move [DecidableEq ι] (r : WriteRace ι) (who : ι) (store : BbState) (phase : WritePhase) :
    WriteRace ι :=
  ⟨store, Function.update r.phase who phase⟩

def Quiet (r : WriteRace ι) : Prop :=
  ∀ who, r.phase who = .waiting ∨ ∃ id, r.phase who = .answered id

def answers [Fintype ι] (r : WriteRace ι) (id : Nat) : Nat :=
  (Finset.univ.filter fun who => r.phase who = .answered id).card

end WriteRace

section

variable {ι : Type} [DecidableEq ι] (host : Host) (blockData : ι → Bytes)

/-- The next step of one of the requests. -/
def moveWrite (r : WriteRace ι) (who : ι) : Except Fault (WriteRace ι) :=
  let hash := generateHash host (blockData who)
  match r.phase who with
  | .waiting =>
      let (lastID, s) := compareHashes host r.store hash
      .ok (r.move who s (if lastID ≤ s.lastId then .found lastID else .missed))
  | .found id =>
      (writeHash host r.store hash id).map fun s => r.move who s (.answered id)
  | .missed =>
      if host.grants .generateBlock then
        let nextBlock := StorageFile.block (formatInt 3 (r.store.lastId + 1))
        .ok (r.move who (r.store.setFile nextBlock []) (.created nextBlock))
      else .ok (r.move who r.store (.answered 0))
  | .created nextBlock =>
      (writeHash host r.store hash (r.store.lastId + 1)).map fun s =>
        r.move who s (.recorded nextBlock)
  | .recorded nextBlock =>
      .ok (r.move who (r.store.setLastId (r.store.lastId + 1)) (.counted nextBlock))
  | .counted nextBlock =>
      let content := writeAt ((r.store.file nextBlock).getD []) (cString (blockData who)) 0
      .ok (r.move who (r.store.setFile nextBlock content) (.answered r.store.lastId))
  | .answered _ => .ok r

end

/-- Each request by itself is a `generate_block`. -/
theorem moveWrite_alone {ι : Type} [DecidableEq ι] (host : Host) (blockData : ι → Bytes)
    (s : BbState) (who : ι) :
    run (moveWrite host blockData) (WriteRace.start s) (List.replicate 5 who) =
      (generateBlock host s (blockData who)).map fun answer =>
        (WriteRace.start s).move who answer.2 (.answered answer.1) := by
  rcases hcompare : compareHashes host s (generateHash host (blockData who)) with ⟨lastID, found⟩
  by_cases hle : lastID ≤ found.lastId
  · cases hwrite : writeHash host found (generateHash host (blockData who)) lastID with
    | error fault =>
        simp [run, moveWrite, WriteRace.start, WriteRace.move, generateBlock, hcompare, hle,
          hwrite, bind, Except.bind, Except.map]
    | ok written =>
        simp [run, moveWrite, WriteRace.start, WriteRace.move, generateBlock, hcompare, hle,
          hwrite, bind, Except.bind, Except.map, pure, Except.pure, List.replicate]
  · by_cases hgrants : host.grants .generateBlock = true
    · cases hwrite : writeHash host
          (found.setFile (.block (formatInt 3 (found.lastId + 1))) [])
          (generateHash host (blockData who)) (found.lastId + 1) with
      | error fault =>
          simp [run, moveWrite, WriteRace.start, WriteRace.move, generateBlock, hcompare, hle,
            hgrants, hwrite, bind, Except.bind, Except.map, List.replicate]
      | ok written =>
          have hempty : written.file (.block (formatInt 3 (found.lastId + 1))) = some [] := by
            rcases writeHash_cases hwrite with rfl | ⟨hashesfile, rfl⟩ <;> simp
          simp [run, moveWrite, WriteRace.start, WriteRace.move, generateBlock, hcompare, hle,
            hgrants, hwrite, hempty, bind, Except.bind, Except.map, pure, Except.pure,
            List.replicate]
    · simp [run, moveWrite, WriteRace.start, WriteRace.move, generateBlock, hcompare, hle,
        hgrants, Except.map, pure, Except.pure, List.replicate]

/--
What a step must meet: room for one more reference or one more id, and requests
that wait for each other.
-/
def InTurn {ι : Type} (r : WriteRace ι) (who : ι) : Prop :=
  match r.phase who with
  | .found id => atoi (r.store.counterField id.toNat) < 99
  | .missed => r.store.lastId < 999 ∧ ∀ other, (r.phase other).claims = false
  | .recorded _ => ∀ other, (r.phase other).fills = false
  | _ => True

instance {ι : Type} [Fintype ι] (r : WriteRace ι) (who : ι) : Decidable (InTurn r who) :=
  match hphase : r.phase who with
  | .found id => decidable_of_iff (atoi (r.store.counterField id.toNat) < 99)
      (by simp only [InTurn, hphase])
  | .missed => decidable_of_iff
      (r.store.lastId < 999 ∧ ∀ other, (r.phase other).claims = false)
      (by simp only [InTurn, hphase])
  | .recorded _ => decidable_of_iff (∀ other, (r.phase other).fills = false)
      (by simp only [InTurn, hphase])
  | .waiting | .created _ | .counted _ | .answered _ =>
      .isTrue (by simp only [InTurn, hphase])

def BbState.counter (s : BbState) (id : Nat) : Int :=
  if id ≤ s.lastId then atoi (s.counterField id) else 0

/-- No id stands for two contents, and when the requests are through nothing is lost. -/
structure WriteRace.KeepsBlocks {ι : Type} [Fintype ι] (host : Host) (blockData : ι → Bytes)
    (before : BbState) (r : WriteRace ι) : Prop where
  ids_differ : ∀ first second id, r.phase first = .answered id →
    r.phase second = .answered id → blockData first = blockData second
  isTable : r.Quiet → r.store.IsTable
  counter_eq : r.Quiet → ∀ id, 1 ≤ id →
    r.store.counter id = before.counter id + r.answers id
  block_eq : r.Quiet → ∀ who id, r.phase who = .answered id →
    ∃ content, r.store.file (.block (formatInt 3 id)) = some content ∧
      generateHash host content = generateHash host (blockData who)

/-! ## The table between the steps -/

namespace WritePhase

def entry (lastId : Nat) : WritePhase → Option Nat
  | recorded _ => some lastId
  | counted _ => some (lastId - 1)
  | answered id => some (id.toNat - 1)
  | _ => none

def pending (lastId : Nat) : WritePhase → Option Nat
  | recorded _ => some lastId
  | counted _ => some (lastId - 1)
  | _ => none

theorem entry_eq {phase : WritePhase} (hclaims : phase.claims = false)
    (hfills : phase.fills = false) (lastId lastId' : Nat) :
    phase.entry lastId = phase.entry lastId' := by
  cases phase with
  | recorded nextBlock => contradiction
  | counted nextBlock => contradiction
  | _ => rfl

theorem pending_eq {phase : WritePhase} (hclaims : phase.claims = false)
    (hfills : phase.fills = false) (lastId : Nat) : phase.pending lastId = none := by
  cases phase with
  | recorded nextBlock => contradiction
  | counted nextBlock => contradiction
  | _ => rfl

end WritePhase

/-- Where a request stands with the store. -/
def Placed (host : Host) (s : BbState) (t : Table) (data : Bytes) : WritePhase → Prop
  | .waiting => True
  | .found id => ∃ index < s.lastId, id = (index : Int) + 1 ∧ t.count index ≠ 0 ∧
      generateHash host (t.data index) = generateHash host data
  | .missed => True
  | .created nextBlock => nextBlock = blockOf s.lastId ∧ s.file nextBlock = some [] ∧
      s.lastId = t.records.length ∧ s.lastId < 999
  | .recorded nextBlock => nextBlock = blockOf s.lastId ∧ s.file nextBlock = some [] ∧
      s.lastId + 1 = t.records.length ∧ t.data s.lastId = cString data
  | .counted nextBlock => ∃ index, s.lastId = index + 1 ∧ nextBlock = blockOf index ∧
      s.file nextBlock = some [] ∧ t.data index = cString data
  | .answered id => ∃ index < s.lastId, id = (index : Int) + 1 ∧
      generateHash host (t.data index) = generateHash host data

def tally {ι : Type} [Fintype ι] (entries : ι → Option Nat) (index : Nat) : Nat :=
  (Finset.univ.filter fun who => entries who = some index).card

structure Underway {ι : Type} [Fintype ι] (host : Host) (blockData : ι → Bytes)
    (before : Table) (r : WriteRace ι) (t : Table) : Prop where
  hashes_eq : (r.store.file .hashes).getD [] = t.bytes host
  hashes_exists : (t.records ≠ [] ∨ ∃ who, r.phase who ≠ .waiting) →
    r.store.file .hashes ≠ none
  lastId_le : r.store.lastId ≤ t.records.length
  lastId_eq : (∀ who, (r.phase who).claims = false) → r.store.lastId = t.records.length
  placed : ∀ who, Placed host r.store t (blockData who) (r.phase who)
  claims_unique : ∀ first second, (r.phase first).claims = true →
    (r.phase second).claims = true → first = second
  fills_unique : ∀ first second, (r.phase first).fills = true →
    (r.phase second).fills = true → first = second
  count_eq : ∀ index, t.count index = before.count index +
    tally (fun who => (r.phase who).entry r.store.lastId) index
  block_eq : ∀ index record, t.records[index]? = some record →
    (∀ who, (r.phase who).pending r.store.lastId ≠ some index) →
      r.store.file (blockOf index) = if record.count = 0 then none else some record.data
  block_only : ∀ id, r.store.file (.block id) ≠ none →
    (∃ index < t.records.length, id = padDecimal 3 (index + 1)) ∨
      ∃ who, r.phase who = .created (.block id)

section

variable {ι : Type} [Fintype ι] {host : Host} {s s' : BbState} {t t' : Table}
  {data : Bytes} {phase : WritePhase}

theorem tally_update [DecidableEq ι] {entries : ι → Option Nat} {who : ι}
    (hnone : entries who = none) (added index : Nat) :
    tally (Function.update entries who (some added)) index =
      tally entries index + if added = index then 1 else 0 := by
  unfold tally
  by_cases hadded : added = index
  · subst index
    have hinsert : (Finset.univ.filter fun other =>
        Function.update entries who (some added) other = some added) =
          insert who (Finset.univ.filter fun other => entries other = some added) := by
      ext other
      by_cases hother : other = who
      · simp [hother]
      · simp [hother]
    rw [hinsert, Finset.card_insert_of_notMem (by simp [hnone]), if_pos rfl]
  · have hsame : (Finset.univ.filter fun other =>
        Function.update entries who (some added) other = some index) =
          Finset.univ.filter fun other => entries other = some index := by
      ext other
      by_cases hother : other = who
      · simp [hother, hnone, hadded]
      · simp [Function.update_of_ne hother]
    rw [hsame, if_neg hadded, Nat.add_zero]

theorem tally_ne_zero {entries : ι → Option Nat} {who : ι} {index : Nat}
    (h : entries who = some index) : tally entries index ≠ 0 :=
  Finset.card_ne_zero_of_mem (Finset.mem_filter.mpr ⟨Finset.mem_univ who, h⟩)

theorem Placed.congr (h : Placed host s t data phase) (hlast : s'.lastId = s.lastId)
    (hblock : ∀ id, s'.file (.block id) = s.file (.block id)) :
    Placed host s' t data phase := by
  cases phase with
  | waiting => trivial
  | found id => simpa [Placed, hlast] using h
  | missed => trivial
  | created nextBlock =>
      rcases h with ⟨rfl, h⟩
      simpa [Placed, hlast, hblock] using h
  | recorded nextBlock =>
      rcases h with ⟨rfl, h⟩
      simpa [Placed, hlast, hblock] using h
  | counted nextBlock =>
      rcases h with ⟨index, hindex, rfl, h⟩
      exact ⟨index, hlast.trans hindex, rfl, (hblock _).trans h.1, h.2⟩
  | answered id => simpa [Placed, hlast] using h

theorem Placed.grow (h : Placed host s t data phase) (hle : s.lastId ≤ t.records.length)
    (hlength : phase.claims = true → t'.records.length = t.records.length)
    (hdata : ∀ index < t.records.length, t'.data index = t.data index)
    (hcount : ∀ index, t.count index ≠ 0 → t'.count index ≠ 0) :
    Placed host s t' data phase := by
  cases phase with
  | waiting => trivial
  | found id =>
      rcases h with ⟨index, hindex, rfl, hlive, hhash⟩
      exact ⟨index, hindex, rfl, hcount index hlive, by rwa [hdata index (by omega)]⟩
  | missed => trivial
  | created nextBlock => simpa only [Placed, hlength rfl] using h
  | recorded nextBlock =>
      rcases h with ⟨hblock, hempty, hlast, hown⟩
      exact ⟨hblock, hempty, by rw [hlast, hlength rfl], by rwa [hdata _ (by omega)]⟩
  | counted nextBlock =>
      rcases h with ⟨index, hindex, hblock, hempty, hown⟩
      exact ⟨index, hindex, hblock, hempty, by rwa [hdata index (by omega)]⟩
  | answered id =>
      rcases h with ⟨index, hindex, rfl, hhash⟩
      exact ⟨index, hindex, rfl, by rwa [hdata index (by omega)]⟩

theorem Placed.setFile (h : Placed host s t data phase) {name : StorageFile} {content : Bytes}
    (hclaims : phase.claims = true → name ≠ blockOf s.lastId)
    (hfills : phase.fills = true → ∀ index, s.lastId = index + 1 → name ≠ blockOf index) :
    Placed host (s.setFile name content) t data phase := by
  cases phase with
  | waiting => trivial
  | found id => exact h
  | missed => trivial
  | created nextBlock =>
      rcases h with ⟨rfl, hempty, h⟩
      exact ⟨rfl, by rwa [BbState.file_setFile, if_neg (hclaims rfl).symm], h⟩
  | recorded nextBlock =>
      rcases h with ⟨rfl, hempty, h⟩
      exact ⟨rfl, by rwa [BbState.file_setFile, if_neg (hclaims rfl).symm], h⟩
  | counted nextBlock =>
      rcases h with ⟨index, hindex, rfl, hempty, h⟩
      exact ⟨index, hindex, rfl,
        by rwa [BbState.file_setFile, if_neg (hfills rfl index hindex).symm], h⟩
  | answered id => exact h

theorem Placed.increment (h : Placed host s t data phase) (hclaims : phase.claims = false)
    (hfills : phase.fills = false) :
    Placed host (s.setLastId (s.lastId + 1)) t data phase := by
  cases phase with
  | waiting => trivial
  | found id =>
      rcases h with ⟨index, hindex, h⟩
      exact ⟨index, hindex.trans (Nat.lt_succ_self _), h⟩
  | missed => trivial
  | created nextBlock => contradiction
  | recorded nextBlock => contradiction
  | counted nextBlock => contradiction
  | answered id =>
      rcases h with ⟨index, hindex, h⟩
      exact ⟨index, hindex.trans (Nat.lt_succ_self _), h⟩

end

namespace WriteRace

section

variable {ι : Type} [DecidableEq ι] (r : WriteRace ι) (who : ι) (store : BbState)
  (phase : WritePhase)

@[simp] theorem move_store : (r.move who store phase).store = store := rfl

@[simp] theorem move_phase_self : (r.move who store phase).phase who = phase := by
  simp [move]

theorem move_phase_of_ne {other : ι} (h : other ≠ who) :
    (r.move who store phase).phase other = r.phase other := by
  simp [move, h]

theorem entry_move (lastId : Nat) :
    (fun other => ((r.move who store phase).phase other).entry lastId) =
      Function.update (fun other => (r.phase other).entry lastId) who (phase.entry lastId) := by
  funext other
  by_cases hother : other = who
  · subst other
    simp
  · simp [hother, move_phase_of_ne]

theorem entry_move_of_eq {lastId : Nat}
    (h : phase.entry lastId = (r.phase who).entry lastId) :
    (fun other => ((r.move who store phase).phase other).entry lastId) =
      fun other => (r.phase other).entry lastId := by
  rw [entry_move, h]
  exact Function.update_eq_self who _

theorem forall_move {P : ι → WritePhase → Prop} (hself : P who phase)
    (hothers : ∀ other, other ≠ who → P other (r.phase other)) (other : ι) :
    P other ((r.move who store phase).phase other) := by
  by_cases hother : other = who
  · subst other
    simpa using hself
  · rw [move_phase_of_ne r who store phase hother]
    exact hothers other hother

theorem forall_of_move {P : ι → WritePhase → Prop} (hself : P who (r.phase who))
    (hall : ∀ other, P other ((r.move who store phase).phase other)) (other : ι) :
    P other (r.phase other) := by
  by_cases hother : other = who
  · subst other
    exact hself
  · rw [← move_phase_of_ne r who store phase hother]
    exact hall other

theorem claims_of_move (hself : (r.phase who).claims = false)
    (hall : ∀ other, ((r.move who store phase).phase other).claims = false) (other : ι) :
    (r.phase other).claims = false :=
  r.forall_of_move who store phase (P := fun _ phase => phase.claims = false) hself hall other

theorem pending_of_move {lastId index : Nat} (hself : (r.phase who).pending lastId ≠ some index)
    (hall : ∀ other, ((r.move who store phase).phase other).pending lastId ≠ some index)
    (other : ι) : (r.phase other).pending lastId ≠ some index :=
  r.forall_of_move who store phase (P := fun _ phase => phase.pending lastId ≠ some index)
    hself hall other

theorem created_move {name : StorageFile} (hself : r.phase who ≠ .created name)
    (h : ∃ other, r.phase other = .created name) :
    ∃ other, (r.move who store phase).phase other = .created name := by
  rcases h with ⟨other, hother⟩
  refine ⟨other, ?_⟩
  rw [move_phase_of_ne]
  · exact hother
  · rintro rfl
    exact hself hother

theorem unique_move {f : WritePhase → Bool}
    (hold : ∀ first second, f (r.phase first) = true → f (r.phase second) = true →
      first = second)
    (hself : f phase = true → f (r.phase who) = true ∨ ∀ other, f (r.phase other) = false)
    (first second : ι) (hfirst : f ((r.move who store phase).phase first) = true)
    (hsecond : f ((r.move who store phase).phase second) = true) : first = second := by
  have hother : ∀ other, other ≠ who → f phase = true → f (r.phase other) = false := by
    intro other hne hphase
    rcases hself hphase with hwho | hnone
    · rw [Bool.eq_false_iff]
      exact fun h => hne (hold other who h hwho)
    · exact hnone other
  by_cases h₁ : first = who
  · by_cases h₂ : second = who
    · rw [h₁, h₂]
    · rw [h₁, move_phase_self] at hfirst
      rw [move_phase_of_ne r who store phase h₂, hother second h₂ hfirst] at hsecond
      contradiction
  · by_cases h₂ : second = who
    · rw [h₂, move_phase_self] at hsecond
      rw [move_phase_of_ne r who store phase h₁, hother first h₁ hsecond] at hfirst
      contradiction
    · rw [move_phase_of_ne r who store phase h₁] at hfirst
      rw [move_phase_of_ne r who store phase h₂] at hsecond
      exact hold first second hfirst hsecond

end

end WriteRace

theorem Stores.counter_eq {host : Host} {s : BbState} {t : Table} (h : Stores host s t)
    (index : Nat) : s.counter (index + 1) = t.count index := by
  unfold BbState.counter
  rw [h.lastId_eq]
  split
  · rw [h.counterField_count (by omega), atoi_padDecimal]
  · rw [Table.count, List.getElem?_eq_none (by omega)]
    rfl

/-! ## One step -/

namespace Underway

section

variable {ι : Type} [Fintype ι] {host : Host} {blockData : ι → Bytes}
  {before t : Table} {r : WriteRace ι} {who : ι}

theorem hashes_of_ne (h : Underway host blockData before r t) {phase : WritePhase}
    (hphase : r.phase who = phase) (hne : phase ≠ .waiting) :
    r.store.file .hashes = some (t.bytes host) := by
  have hsome := h.hashes_exists (.inr ⟨who, hphase ▸ hne⟩)
  exact (Option.getD_eq_iff.mp h.hashes_eq).resolve_right fun hnone => hsome hnone.1

theorem claims_of_ne (h : Underway host blockData before r t) {phase : WritePhase}
    (hphase : r.phase who = phase) (hclaims : phase.claims = true) (other : ι)
    (hne : other ≠ who) : (r.phase other).claims = false := by
  subst phase
  rw [Bool.eq_false_iff]
  exact fun hother => hne (h.claims_unique other who hother hclaims)

theorem counterField (h : Underway host blockData before r t) {index : Nat}
    (hindex : index < t.records.length) :
    r.store.counterField (index + 1) = padDecimal 2 (t.count index) := by
  have hrecord := List.getElem?_eq_getElem hindex
  rw [BbState.counterField, BbState.field, h.hashes_eq, Table.count_eq hrecord]
  exact Table.readAt_counter host hrecord

theorem count_of_entry (h : Underway host blockData before r t) {phase : WritePhase}
    (hphase : r.phase who = phase) {index : Nat}
    (hentry : phase.entry r.store.lastId = some index) : t.count index ≠ 0 := by
  subst phase
  have htally : tally (fun other => (r.phase other).entry r.store.lastId) index ≠ 0 :=
    tally_ne_zero hentry
  rw [h.count_eq]
  omega

variable [DecidableEq ι]

theorem idle (h : Underway host blockData before r t) (hphase : r.phase who = .waiting)
    {phase : WritePhase} (hidle : phase = .missed ∨ ∃ id, phase = .found id)
    (hplaced : Placed host r.store t (blockData who) phase) :
    Underway host blockData before
      (r.move who (r.store.setFile .hashes (t.bytes host)) phase) t := by
  have hentry : ∀ lastId, phase.entry lastId = none ∧ phase.pending lastId = none := by
    rcases hidle with rfl | ⟨id, rfl⟩ <;> exact fun _ => ⟨rfl, rfl⟩
  have hflags : phase.claims = false ∧ phase.fills = false := by
    rcases hidle with rfl | ⟨id, rfl⟩ <;> exact ⟨rfl, rfl⟩
  exact {
    hashes_eq := by simp
    hashes_exists := by simp
    lastId_le := h.lastId_le
    lastId_eq := fun hclaims =>
      h.lastId_eq (r.claims_of_move who _ phase (by rw [hphase]; rfl) hclaims)
    placed := r.forall_move who _ phase (hplaced.congr rfl (by simp))
      fun other _ => (h.placed other).congr rfl (by simp)
    claims_unique := r.unique_move who _ phase h.claims_unique (by simp [hflags])
    fills_unique := r.unique_move who _ phase h.fills_unique (by simp [hflags])
    count_eq := by
      intro index
      rw [WriteRace.move_store, WriteRace.entry_move_of_eq _ _ _ _
        (by rw [hphase, (hentry _).1]; rfl)]
      exact h.count_eq index
    block_eq := by
      intro index record hrecord hpending
      have hnone := r.pending_of_move who _ phase (by simp [hphase, WritePhase.pending]) hpending
      simpa using h.block_eq index record hrecord hnone
    block_only := by
      intro id hid
      apply (h.block_only id (by simpa using hid)).imp_right
      exact r.created_move who _ phase (by simp [hphase]) }

theorem share (h : Underway host blockData before r t) {index : Nat} {record : Record}
    (hphase : r.phase who = .found (index + 1)) (hindex : index < r.store.lastId)
    (hrecord : t.records[index]? = some record) (hlive : record.count ≠ 0)
    (hroom : record.count < 99)
    (hhash : generateHash host (t.data index) = generateHash host (blockData who)) :
    Underway host blockData before
      (r.move who (r.store.setFile .hashes ((t.share index).bytes host))
        (.answered (index + 1))) (t.share index) := by
  have hcount := Table.count_share hrecord hroom
  have hgrown : ∀ other, t.count other ≠ 0 → (t.share index).count other ≠ 0 := by
    intro other hother
    rw [hcount]
    omega
  exact {
    hashes_eq := by simp
    hashes_exists := by simp
    lastId_le := by simpa using h.lastId_le
    lastId_eq := by
      intro hclaims
      have hnone := r.claims_of_move who _ _ (by rw [hphase]; rfl) hclaims
      simpa using h.lastId_eq hnone
    placed := by
      refine r.forall_move who _ _ ⟨index, hindex, rfl, by simpa using hhash⟩ fun other _ => ?_
      exact ((h.placed other).grow h.lastId_le (by simp) (by simp) hgrown).congr rfl (by simp)
    claims_unique := r.unique_move who _ _ h.claims_unique (by simp [WritePhase.claims])
    fills_unique := r.unique_move who _ _ h.fills_unique (by simp [WritePhase.fills])
    count_eq := by
      intro other
      have hentry : WritePhase.entry r.store.lastId (.answered (index + 1)) = some index := by
        simp [WritePhase.entry]
      rw [WriteRace.move_store, WriteRace.entry_move, BbState.lastId_setFile, hentry,
        tally_update (by simp [hphase, WritePhase.entry]), hcount, h.count_eq other]
      omega
    block_eq := by
      intro other record' hrecord' hpending
      have hnone := r.pending_of_move who _ _ (by simp [hphase, WritePhase.pending]) hpending
      rcases Table.of_share_getElem? hrecord hlive hrecord' with ⟨old, hold, hdata, hdead⟩
      simpa [hdata, hdead] using h.block_eq other old hold hnone
    block_only := by
      intro id hid
      have hold := h.block_only id (by simpa using hid)
      rw [Table.share_records, List.length_modify]
      exact hold.imp_right (r.created_move who _ _ (by simp [hphase])) }

theorem create (h : Underway host blockData before r t) (hphase : r.phase who = .missed)
    (hroom : r.store.lastId < 999) (hclaims : ∀ other, (r.phase other).claims = false) :
    Underway host blockData before
      (r.move who (r.store.setFile (blockOf r.store.lastId) [])
        (.created (blockOf r.store.lastId))) t := by
  have hlast := h.lastId_eq hclaims
  exact {
    hashes_eq := by simpa using h.hashes_eq
    hashes_exists := by
      intro _
      simp [h.hashes_of_ne hphase (by simp)]
    lastId_le := h.lastId_le
    lastId_eq := by
      intro hnone
      simpa [WritePhase.claims] using hnone who
    placed := by
      refine r.forall_move who _ _ ⟨rfl, by simp, hlast, hroom⟩ fun other _ => ?_
      refine (h.placed other).setFile (by simp [hclaims]) fun _ index hindex => ?_
      rw [Ne, blockOf_inj]
      omega
    claims_unique := r.unique_move who _ _ h.claims_unique (by simp [hclaims])
    fills_unique := r.unique_move who _ _ h.fills_unique (by simp [WritePhase.fills])
    count_eq := by
      intro index
      rw [WriteRace.move_store, WriteRace.entry_move_of_eq _ _ _ _ (by rw [hphase]; rfl)]
      exact h.count_eq index
    block_eq := by
      intro index record hrecord hpending
      have hnone := r.pending_of_move who _ _ (by simp [hphase, WritePhase.pending]) hpending
      have hne : index ≠ r.store.lastId := by
        have hlt := Table.index_lt hrecord
        omega
      rw [WriteRace.move_store, BbState.file_setFile, if_neg (mt blockOf_inj.mp hne)]
      exact h.block_eq index record hrecord hnone
    block_only := by
      intro id hid
      by_cases hown : StorageFile.block id = blockOf r.store.lastId
      · exact .inr ⟨who, by simp [hown]⟩
      · apply (h.block_only id (by simpa [hown] using hid)).imp_right
        exact r.created_move who _ _ (by simp [hphase]) }

theorem append (h : Underway host blockData before r t) {nextBlock : StorageFile}
    (hphase : r.phase who = .created nextBlock) :
    Underway host blockData before
      (r.move who (r.store.setFile .hashes ((t.add (blockData who)).bytes host))
        (.recorded nextBlock)) (t.add (blockData who)) := by
  have hplaced := h.placed who
  rw [hphase] at hplaced
  rcases hplaced with ⟨hblock, hempty, hlast, hroom⟩
  rw [hlast] at hroom
  have hrecords : (t.add (blockData who)).records = t.records ++ [Record.new (blockData who)] :=
    Table.add_records t hroom
  have hcount : ∀ index, (t.add (blockData who)).count index =
      t.count index + if t.records.length = index then 1 else 0 := Table.count_add hroom
  have hgrown : ∀ index, t.count index ≠ 0 → (t.add (blockData who)).count index ≠ 0 := by
    intro index hindex
    rw [hcount]
    omega
  have hothers := h.claims_of_ne hphase rfl
  exact {
    hashes_eq := by simp
    hashes_exists := by simp
    lastId_le := by
      rw [hrecords, List.length_append]
      exact h.lastId_le.trans (Nat.le_add_right _ _)
    lastId_eq := by
      intro hnone
      simpa [WritePhase.claims] using hnone who
    placed := by
      refine r.forall_move who _ _ ⟨hblock, by simp [hblock, ← hempty], ?_, ?_⟩ fun other hne => ?_
      · simp [hrecords, hlast]
      · rw [WriteRace.move_store, BbState.lastId_setFile, hlast, Table.data_add_self hroom]
      · have hidle : (r.phase other).claims = true →
            (t.add (blockData who)).records.length = t.records.length := by
          simp [hothers other hne]
        exact ((h.placed other).grow h.lastId_le hidle (fun _ => Table.data_add) hgrown).congr
          rfl (by simp)
    claims_unique := r.unique_move who _ _ h.claims_unique (by simp [hphase, WritePhase.claims])
    fills_unique := r.unique_move who _ _ h.fills_unique (by simp [WritePhase.fills])
    count_eq := by
      intro index
      rw [WriteRace.move_store, WriteRace.entry_move, BbState.lastId_setFile, WritePhase.entry,
        tally_update (by simp [hphase, WritePhase.entry]), hcount, h.count_eq index, hlast]
      omega
    block_eq := by
      intro index record hrecord hpending
      have hnone := r.pending_of_move who _ _ (by simp [hphase, WritePhase.pending]) hpending
      have hold : index ≠ t.records.length := by
        rintro rfl
        exact hpending who (by simp [WritePhase.pending, hlast])
      rw [hrecords] at hrecord
      have hlt : index < t.records.length := by
        have hle := (List.getElem?_eq_some_iff.mp hrecord).1
        rw [List.length_append, List.length_singleton] at hle
        omega
      rw [List.getElem?_append_left hlt] at hrecord
      simpa using h.block_eq index record hrecord hnone
    block_only := by
      intro id hid
      rw [hrecords, List.length_append, List.length_singleton]
      rcases h.block_only id (by simpa using hid) with ⟨index, hindex, rfl⟩ | ⟨other, hother⟩
      · exact .inl ⟨index, by omega, rfl⟩
      · -- only the mover has a block file open without a record
        have hsame : other = who :=
          h.claims_unique other who (by rw [hother]; rfl) (by rw [hphase]; rfl)
        rw [hsame, hphase, WritePhase.created.injEq, hblock] at hother
        rw [hlast] at hother
        exact .inl ⟨t.records.length, by omega, (StorageFile.block.inj hother).symm⟩ }

theorem increment (h : Underway host blockData before r t) {nextBlock : StorageFile}
    (hphase : r.phase who = .recorded nextBlock)
    (hfills : ∀ other, (r.phase other).fills = false) :
    Underway host blockData before
      (r.move who (r.store.setLastId (r.store.lastId + 1)) (.counted nextBlock)) t := by
  have hplaced := h.placed who
  rw [hphase] at hplaced
  rcases hplaced with ⟨hblock, hempty, hlast, hown⟩
  have hothers := h.claims_of_ne hphase rfl
  have hentry : (fun other => ((r.move who (r.store.setLastId (r.store.lastId + 1))
      (.counted nextBlock)).phase other).entry (r.store.lastId + 1)) =
        fun other => (r.phase other).entry r.store.lastId := by
    funext other
    by_cases hother : other = who
    · subst other
      simp [hphase, WritePhase.entry]
    · rw [WriteRace.move_phase_of_ne _ _ _ _ hother]
      exact WritePhase.entry_eq (hothers other hother) (hfills other) _ _
  have hpendings : ∀ other, ((r.move who (r.store.setLastId (r.store.lastId + 1))
      (.counted nextBlock)).phase other).pending (r.store.lastId + 1) =
        (r.phase other).pending r.store.lastId := by
    intro other
    by_cases hother : other = who
    · subst other
      simp [hphase, WritePhase.pending]
    · rw [WriteRace.move_phase_of_ne _ _ _ _ hother]
      rw [WritePhase.pending_eq (hothers other hother) (hfills other),
        WritePhase.pending_eq (hothers other hother) (hfills other)]
  exact {
    hashes_eq := by simpa using h.hashes_eq
    hashes_exists := by
      intro _
      simp [h.hashes_of_ne hphase (by simp)]
    lastId_le := hlast.le
    lastId_eq := fun _ => hlast
    placed := by
      refine r.forall_move who _ _ ⟨_, rfl, hblock, by simpa using hempty, hown⟩
        fun other hne => ?_
      exact (h.placed other).increment (hothers other hne) (hfills other)
    claims_unique := r.unique_move who _ _ h.claims_unique (by simp [WritePhase.claims])
    fills_unique := r.unique_move who _ _ h.fills_unique (by simp [hfills])
    count_eq := by
      intro index
      rw [WriteRace.move_store, BbState.lastId_setLastId, hentry]
      exact h.count_eq index
    block_eq := by
      intro index record hrecord hpending
      simp only [WriteRace.move_store, BbState.lastId_setLastId, hpendings] at hpending
      simpa using h.block_eq index record hrecord hpending
    block_only := by
      intro id hid
      rcases h.block_only id (by simpa using hid) with hindex | ⟨other, hother⟩
      · exact .inl hindex
      · have hsame : other = who :=
          h.claims_unique other who (by rw [hother]; rfl) (by rw [hphase]; rfl)
        rw [hsame, hphase] at hother
        contradiction }

theorem fill (h : Underway host blockData before r t) {nextBlock : StorageFile}
    (hphase : r.phase who = .counted nextBlock) :
    Underway host blockData before
      (r.move who (r.store.setFile nextBlock (cString (blockData who)))
        (.answered r.store.lastId)) t := by
  have hplaced := h.placed who
  rw [hphase] at hplaced
  rcases hplaced with ⟨own, hlast, rfl, hempty, hown⟩
  have hlive : t.count own ≠ 0 :=
    h.count_of_entry hphase (by simp [WritePhase.entry, hlast])
  exact {
    hashes_eq := by simpa using h.hashes_eq
    hashes_exists := by
      intro _
      simp [h.hashes_of_ne hphase (by simp)]
    lastId_le := h.lastId_le
    lastId_eq := fun hclaims =>
      h.lastId_eq (r.claims_of_move who _ _ (by rw [hphase]; rfl) hclaims)
    placed := by
      refine r.forall_move who _ _ ⟨own, by simp [hlast], by simp [hlast], by simp [hown]⟩
        fun other hne => (h.placed other).setFile (fun _ => ?_) fun hfills _ _ => ?_
      · rw [Ne, blockOf_inj]
        omega
      · exact absurd (h.fills_unique other who hfills (by rw [hphase]; rfl)) hne
    claims_unique := r.unique_move who _ _ h.claims_unique (by simp [WritePhase.claims])
    fills_unique := r.unique_move who _ _ h.fills_unique (by simp [WritePhase.fills])
    count_eq := by
      intro index
      rw [WriteRace.move_store, BbState.lastId_setFile, WriteRace.entry_move_of_eq _ _ _ _
        (by rw [hphase]; simp [WritePhase.entry])]
      exact h.count_eq index
    block_eq := by
      intro index record hrecord hpending
      rw [WriteRace.move_store, BbState.file_setFile]
      by_cases hindex : index = own
      · subst index
        rw [Table.count_eq hrecord] at hlive
        rw [Table.data_eq hrecord] at hown
        rw [if_pos rfl, if_neg hlive, hown]
      · have hnone := r.pending_of_move who _ _
          (by simp [hphase, WritePhase.pending, hlast, Ne.symm hindex]) hpending
        rw [if_neg (mt blockOf_inj.mp hindex)]
        exact h.block_eq index record hrecord hnone
    block_only := by
      intro id hid
      by_cases hself : StorageFile.block id = blockOf own
      · have hle := h.lastId_le
        exact .inl ⟨own, by omega, StorageFile.block.inj hself⟩
      · apply (h.block_only id (by simpa [hself] using hid)).imp_right
        exact r.created_move who _ _ (by simp [hphase]) }

theorem lookup (h : Underway host blockData before r t) (hgrants : host.Grants)
    (hphase : r.phase who = .waiting) :
    ∃ phase, moveWrite host blockData r who =
        .ok (r.move who (r.store.setFile .hashes (t.bytes host)) phase) ∧
      (phase = .missed ∨ ∃ id, phase = .found id) ∧
      Placed host r.store t (blockData who) phase := by
  have hscan := t.compareLoop_find host r.store.lastId (blockData who)
  have hmove : moveWrite host blockData r who =
      .ok (r.move who (r.store.setFile .hashes (t.bytes host))
        (let lastID := compareLoop r.store.lastId (t.bytes host)
            (generateHash host (blockData who)) ((t.bytes host).length + 1) idLength
          if lastID ≤ r.store.lastId then .found lastID else .missed)) := by
    simp only [moveWrite, hphase, compareHashes, hgrants.fopen, if_true, h.hashes_eq,
      BbState.lastId_setFile]
  refine ⟨_, hmove, ?_, ?_⟩
  · dsimp only
    split <;> simp
  · rw [hscan]
    cases hfind : t.find host (blockData who) with
    | none =>
        have hpast : ¬ (r.store.lastId : Int) + 1 ≤ r.store.lastId := by omega
        dsimp only
        rw [if_neg hpast]
        trivial
    | some index =>
        rcases t.find_eq_some host hfind with ⟨record, hrecord, hlive, hhash⟩
        dsimp only
        split
        · rename_i hle
          have hle' : (index : Int) + 1 ≤ r.store.lastId := hle
          rw [← Table.count_eq hrecord] at hlive
          rw [← Table.data_eq hrecord] at hhash
          exact ⟨index, by omega, rfl, hlive, hhash⟩
        · -- a line past `last_id` is taken for no line
          trivial

theorem step (h : Underway host blockData before r t) (hgrants : host.Grants)
    (hturn : InTurn r who) :
    ∃ r', moveWrite host blockData r who = .ok r' ∧
      ∃ t', Underway host blockData before r' t' := by
  have hplaced := h.placed who
  cases hphase : r.phase who with
  | waiting =>
      rcases h.lookup hgrants hphase with ⟨phase, hmove, hidle, hfound⟩
      exact ⟨_, hmove, t, h.idle hphase hidle hfound⟩
  | found id =>
      rw [hphase] at hplaced
      rcases hplaced with ⟨index, hindex, rfl, hlive, hhash⟩
      have hlt : index < t.records.length := hindex.trans_le h.lastId_le
      have hrecord := List.getElem?_eq_getElem hlt
      have hid : ((index : Int) + 1).toNat = index + 1 := by omega
      simp only [InTurn, hphase, hid, h.counterField hlt, atoi_padDecimal] at hturn
      rw [Table.count_eq hrecord] at hlive hturn
      have hwrite := Stores.writeHash_share_of_hashes
        (h.hashes_of_ne hphase (by simp)) (hgrants.fopen _) hrecord
        (by omega) hindex
      rw [← Table.data_eq hrecord, hhash] at hwrite
      refine ⟨_, by simp only [moveWrite, hphase, hwrite]; rfl, t.share index, ?_⟩
      exact h.share hphase hindex hrecord hlive (by omega) hhash
  | missed =>
      simp only [InTurn, hphase] at hturn
      refine ⟨_, by simp only [moveWrite, hphase, hgrants.fopen, if_true]; rfl, t, ?_⟩
      exact h.create hphase hturn.1 hturn.2
  | created nextBlock =>
      rw [hphase] at hplaced
      rcases hplaced with ⟨-, -, hlast, hroom⟩
      have hwrite := Stores.writeHash_add (h.hashes_of_ne hphase (by simp)) hlast
        (hgrants.fopen _) (blockData who) (hlast ▸ hroom)
      exact ⟨_, by simp only [moveWrite, hphase, hwrite]; rfl, _, h.append hphase⟩
  | recorded nextBlock =>
      simp only [InTurn, hphase] at hturn
      exact ⟨_, by simp only [moveWrite, hphase], t, h.increment hphase hturn⟩
  | counted nextBlock =>
      rw [hphase] at hplaced
      rcases hplaced with ⟨index, -, -, hempty, -⟩
      exact ⟨_, by simp only [moveWrite, hphase, hempty, Option.getD_some, writeAt_nil], t,
        h.fill hphase⟩
  | answered id => exact ⟨r, by simp only [moveWrite, hphase], t, h⟩

end

section

variable {ι : Type} [Fintype ι] {host : Host} {blockData : ι → Bytes} {s : BbState}
  {before t : Table} {r : WriteRace ι}

theorem start (hs : Stores host s before) :
    Underway host blockData before (WriteRace.start s) before where
  hashes_eq := hs.hashes_eq
  hashes_exists := by
    rintro (hne | ⟨who, hwho⟩)
    · exact hs.hashes_exists hne
    · exact absurd rfl hwho
  lastId_le := hs.lastId_eq.le
  lastId_eq := fun _ => hs.lastId_eq
  placed := fun _ => trivial
  claims_unique := by simp [WriteRace.start, WritePhase.claims]
  fills_unique := by simp [WriteRace.start, WritePhase.fills]
  count_eq := by simp [tally, WriteRace.start, WritePhase.entry]
  block_eq := fun index record hrecord _ => hs.block_eq index record hrecord
  block_only := fun id hid => .inl (hs.block_only id hid)

theorem stores (h : Underway host blockData before r t) (hquiet : r.Quiet) :
    Stores host r.store t where
  lastId_eq := by
    apply h.lastId_eq
    intro who
    rcases hquiet who with hwho | ⟨id, hwho⟩ <;> rw [hwho] <;> rfl
  hashes_eq := h.hashes_eq
  hashes_exists := fun hne => h.hashes_exists (.inl hne)
  block_eq := by
    intro index record hrecord
    apply h.block_eq index record hrecord
    intro who
    rcases hquiet who with hwho | ⟨id, hwho⟩ <;> simp [hwho, WritePhase.pending]
  block_only := by
    intro id hid
    rcases h.block_only id hid with hindex | ⟨who, hcreated⟩
    · exact hindex
    · rcases hquiet who with hwho | ⟨other, hwho⟩ <;> simp [hwho] at hcreated

theorem tally_eq_answers (h : Underway host blockData before r t) (hquiet : r.Quiet)
    (index : Nat) :
    tally (fun who => (r.phase who).entry r.store.lastId) index = r.answers (index + 1) := by
  unfold tally WriteRace.answers
  congr 1
  apply Finset.filter_congr
  intro who _
  rcases hquiet who with hwho | ⟨id, hwho⟩
  · simp [hwho, WritePhase.entry]
  · have hplaced := h.placed who
    rw [hwho] at hplaced
    rcases hplaced with ⟨own, -, rfl, -⟩
    simp [hwho, WritePhase.entry]

theorem ids_differ (h : Underway host blockData before r t)
    (hinj : Set.InjOn (generateHash host) (Set.range blockData)) {first second : ι} {id : Int}
    (hfirst : r.phase first = .answered id) (hsecond : r.phase second = .answered id) :
    blockData first = blockData second := by
  have hplaced := h.placed first
  have hplaced' := h.placed second
  rw [hfirst] at hplaced
  rw [hsecond] at hplaced'
  rcases hplaced with ⟨index, -, rfl, hhash⟩
  rcases hplaced' with ⟨index', -, hid, hhash'⟩
  obtain rfl : index = index' := by omega
  exact hinj ⟨first, rfl⟩ ⟨second, rfl⟩ (hhash.symm.trans hhash')

theorem counter_eq (h : Underway host blockData before r t) (hs : Stores host s before)
    (hquiet : r.Quiet) {id : Nat} (hpos : 1 ≤ id) :
    r.store.counter id = s.counter id + r.answers id := by
  have hstores := h.stores hquiet
  obtain ⟨index, rfl⟩ : ∃ index, id = index + 1 := ⟨id - 1, by omega⟩
  rw [hstores.counter_eq, hs.counter_eq, h.count_eq, h.tally_eq_answers hquiet]
  push_cast
  rfl

theorem block_of_answer (h : Underway host blockData before r t) (hquiet : r.Quiet) {who : ι}
    {id : Int} (hid : r.phase who = .answered id) :
    ∃ content, r.store.file (.block (formatInt 3 id)) = some content ∧
      generateHash host content = generateHash host (blockData who) := by
  have hplaced := h.placed who
  rw [hid] at hplaced
  rcases hplaced with ⟨index, hindex, rfl, hhash⟩
  have hlive : t.count index ≠ 0 := h.count_of_entry hid (by simp [WritePhase.entry])
  exact ⟨_, (h.stores hquiet).block_live hlive, hhash⟩

end

end Underway

theorem keepsBlocks_run {ι : Type} [Fintype ι] [DecidableEq ι] {host : Host}
    (hgrants : host.Grants) {s : BbState} {before : Table} (hs : Stores host s before)
    {blockData : ι → Bytes} (hinj : Set.InjOn (generateHash host) (Set.range blockData))
    {schedule : List ι}
    (hturns : Along (moveWrite host blockData) InTurn (WriteRace.start s) schedule) :
    ∃ r, run (moveWrite host blockData) (WriteRace.start s) schedule = .ok r ∧
      r.KeepsBlocks host blockData s := by
  rcases run_invariant (fun r => ∃ t, Underway host blockData before r t)
    (fun r who ⟨t, h⟩ hturn => h.step hgrants hturn) ⟨before, .start hs⟩ hturns
    with ⟨r, hrun, t, h⟩
  exact ⟨r, hrun, {
    ids_differ := fun _ _ _ => h.ids_differ hinj
    isTable := fun hquiet => (h.stores hquiet).isTable
    counter_eq := fun hquiet _ => h.counter_eq hs hquiet
    block_eq := fun hquiet _ _ => h.block_of_answer hquiet }⟩

def twoBlocks : Bool → Bytes
  | false => [97, 0]
  | true => [98, 0]

theorem generateHash_injOn_twoBlocks :
    Set.InjOn (generateHash (.granting sampleSha1)) (Set.range twoBlocks) := by
  rintro _ ⟨first, rfl⟩ _ ⟨second, rfl⟩ h
  cases first <;> cases second
  · rfl
  · exact absurd h (by decide +kernel)
  · exact absurd h (by decide +kernel)
  · rfl

def followed : List Bool :=
  [false, true, false, false, false, false, true, true, true, true]

theorem keepsBlocks_run_followed :
    ∃ r, run (moveWrite (.granting sampleSha1) twoBlocks) (WriteRace.start freshMount) followed =
        .ok r ∧
      r.KeepsBlocks (.granting sampleSha1) twoBlocks freshMount :=
  keepsBlocks_run (Host.granting_grants sampleSha1) (stores_freshMount _)
    generateHash_injOn_twoBlocks (by decide +kernel)

/-- Both are counted before either answers. -/
theorem inStep_merges :
    ∃ r, run (moveWrite (.granting sampleSha1) twoBlocks) (WriteRace.start freshMount)
        [false, true, false, true, false, true, false, true, false, true] = .ok r ∧
      (r.phase false = .answered 2 ∧ r.phase true = .answered 2) ∧
      ¬ r.KeepsBlocks (.granting sampleSha1) twoBlocks freshMount := by
  have hanswers : ∃ r, run (moveWrite (.granting sampleSha1) twoBlocks)
      (WriteRace.start freshMount)
        [false, true, false, true, false, true, false, true, false, true] = .ok r ∧
      (r.phase false = .answered 2 ∧ r.phase true = .answered 2) := by
    decide +kernel
  rcases hanswers with ⟨r, hrun, hfalse, htrue⟩
  refine ⟨r, hrun, ⟨hfalse, htrue⟩, fun hkeeps => ?_⟩
  exact absurd (hkeeps.ids_differ false true 2 hfalse htrue) (by decide)

end Ece318.Bbfs
