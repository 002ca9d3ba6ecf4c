import Mathlib.Algebra.Order.Field.Rat
import Mathlib.Data.Nat.Cast.Order.Field
import Mathlib.Tactic.Linarith
import Mathlib.Tactic.NormNum
import Mathlib.Tactic.Positivity
import Mathlib.Tactic.Ring
import Ece318.Schedule.Metering
import Ece318.Schedule.Safety

/-!
# The goodness of a task

`getMinGoodness` multiplies two truncated quotients in 64 bits.  Here are the same
product over the integers, the product of the exact ratios, and what each of them
says about the task that is returned.
-/

namespace Ece318.Schedule

open Ece318.Foundation

namespace Sched

variable (s : Sched) (cells : List TaskAddr) (task : TaskAddr)

def leastPred : Nat :=
  (cells.map fun u => (s.tasks u).nextBurstPred.toNat).min?.getD 0

def longestWait : Nat :=
  (cells.map fun u => (s.tasks u).waitingInRQ.toNat).max?.getD 0

def burstQuotient : Nat :=
  (1 + (s.tasks task).nextBurstPred.toNat) / (1 + s.leastPred cells)

def waitQuotient : Nat :=
  (1 + s.longestWait cells) / (1 + (s.tasks task).waitingInRQ.toNat)

/-- The product of the truncated quotients, over the integers. -/
def truncatedGoodness : Nat := s.burstQuotient cells task * s.waitQuotient cells task

/-- The product of the ratios, over the rationals. -/
def exactGoodness : ℚ :=
  ((1 + (s.tasks task).nextBurstPred.toNat : ℕ) / (1 + s.leastPred cells : ℕ)) *
    ((1 + s.longestWait cells : ℕ) / (1 + (s.tasks task).waitingInRQ.toNat : ℕ))

end Sched

/-! ## Truncated quotients -/

theorem div_lt_two_mul {a b : Nat} (hb : 0 < b) (hle : b ≤ a) :
    (a : ℚ) / b < 2 * (a / b : ℕ) := by
  have hpos : 1 ≤ a / b := (Nat.one_le_div_iff hb).mpr hle
  have hfloor : a < b * (a / b + 1) := Nat.lt_mul_div_succ a hb
  have hdouble : b * (a / b + 1) ≤ 2 * (a / b) * b := by
    rw [Nat.mul_comm]
    exact Nat.mul_le_mul_right b (by omega)
  have hb' : (0 : ℚ) < b := Nat.cast_pos.mpr hb
  rw [div_lt_iff₀ hb']
  exact_mod_cast Nat.lt_of_lt_of_le hfloor hdouble

theorem toNat_one_add {a : UInt64} (h : a < ULLONG_MAX) : (1 + a).toNat = 1 + a.toNat := by
  have hlt := UInt64.lt_iff_toNat_lt.mp h
  simp only [ULLONG_MAX, UInt64.reduceToNat] at hlt
  rw [UInt64.toNat_add]
  simp only [UInt64.reduceToNat]
  apply Nat.mod_eq_of_lt
  omega

/-! ## The extremes of the queue -/

section

variable {s : Sched} {seed : TaskAddr} {cells : List TaskAddr} {u : TaskAddr}

theorem leastPred_eq {m : TaskAddr} (hm : m ∈ cells)
    (hleast : ∀ u ∈ cells, (s.tasks m).nextBurstPred ≤ (s.tasks u).nextBurstPred) :
    s.leastPred cells = (s.tasks m).nextBurstPred.toNat := by
  have hmin : (cells.map fun u => (s.tasks u).nextBurstPred.toNat).min? =
      some (s.tasks m).nextBurstPred.toNat := by
    rw [List.min?_eq_some_iff]
    refine ⟨List.mem_map.mpr ⟨m, hm, rfl⟩, ?_⟩
    intro n hn
    obtain ⟨u, hu, rfl⟩ := List.mem_map.mp hn
    exact UInt64.le_iff_toNat_le.mp (hleast u hu)
  rw [Sched.leastPred, hmin]
  rfl

theorem longestWait_eq {w : TaskAddr} (hw : w ∈ cells)
    (hlongest : ∀ u ∈ cells, (s.tasks w).waitingInRQ ≥ (s.tasks u).waitingInRQ) :
    s.longestWait cells = (s.tasks w).waitingInRQ.toNat := by
  have hmax : (cells.map fun u => (s.tasks u).waitingInRQ.toNat).max? =
      some (s.tasks w).waitingInRQ.toNat := by
    rw [List.max?_eq_some_iff]
    refine ⟨List.mem_map.mpr ⟨w, hw, rfl⟩, ?_⟩
    intro n hn
    obtain ⟨u, hu, rfl⟩ := List.mem_map.mp hn
    exact UInt64.le_iff_toNat_le.mp (hlongest u hu)
  rw [Sched.longestWait, hmax]
  rfl

theorem leastPred_le (hu : u ∈ cells) :
    s.leastPred cells ≤ (s.tasks u).nextBurstPred.toNat := by
  have hmem : (s.tasks u).nextBurstPred.toNat ∈
      cells.map fun u => (s.tasks u).nextBurstPred.toNat := List.mem_map.mpr ⟨u, hu, rfl⟩
  cases hmin : (cells.map fun u => (s.tasks u).nextBurstPred.toNat).min? with
  | none =>
      rw [List.min?_eq_none_iff] at hmin
      simp [hmin] at hmem
  | some n =>
      rw [Sched.leastPred, hmin]
      exact (List.min?_eq_some_iff.mp hmin).2 _ hmem

theorem le_longestWait (hu : u ∈ cells) :
    (s.tasks u).waitingInRQ.toNat ≤ s.longestWait cells := by
  have hmem : (s.tasks u).waitingInRQ.toNat ∈
      cells.map fun u => (s.tasks u).waitingInRQ.toNat := List.mem_map.mpr ⟨u, hu, rfl⟩
  cases hmax : (cells.map fun u => (s.tasks u).waitingInRQ.toNat).max? with
  | none =>
      rw [List.max?_eq_none_iff] at hmax
      simp [hmax] at hmem
  | some n =>
      rw [Sched.longestWait, hmax]
      exact (List.max?_eq_some_iff.mp hmax).2 _ hmem

theorem one_le_burstQuotient (hu : u ∈ cells) : 1 ≤ s.burstQuotient cells u := by
  have hle := leastPred_le (s := s) hu
  exact (Nat.one_le_div_iff (by omega)).mpr (by omega)

theorem updateWaitingInRQ_book (h : Queued s seed cells) (c : TaskAddr) :
    updateWaitingInRQ (book s c).1 = .ok (s.measured cells c) := by
  rw [book_eq]
  exact updateWaitingInRQ_bookedState h c

/-! ## What is stored, and what it stands for -/

theorem toNat_goodnessOf {m w : TaskAddr} (hm : m ∈ cells) (hw : w ∈ cells)
    (hleast : ∀ u ∈ cells, (s.tasks m).nextBurstPred ≤ (s.tasks u).nextBurstPred)
    (hlongest : ∀ u ∈ cells, (s.tasks w).waitingInRQ ≥ (s.tasks u).waitingInRQ)
    (hpred : ∀ u ∈ cells, (s.tasks u).nextBurstPred < ULLONG_MAX)
    (hwait : ∀ u ∈ cells, (s.tasks u).waitingInRQ < ULLONG_MAX) (hu : u ∈ cells) :
    (s.goodnessOf m w u).toNat = s.truncatedGoodness cells u % 2 ^ 64 := by
  rw [Sched.goodnessOf, UInt64.toNat_mul, UInt64.toNat_div, UInt64.toNat_div,
    toNat_one_add (hpred u hu), toNat_one_add (hpred m hm), toNat_one_add (hwait w hw),
    toNat_one_add (hwait u hu), ← leastPred_eq hm hleast, ← longestWait_eq hw hlongest]
  rfl

theorem truncatedGoodness_lt (hpred : ∀ u ∈ cells, (s.tasks u).nextBurstPred < 0xffffffff)
    (hwait : ∀ u ∈ cells, (s.tasks u).waitingInRQ < 0xffffffff) (hu : u ∈ cells) :
    s.truncatedGoodness cells u < 2 ^ 64 := by
  have hburst : s.burstQuotient cells u < 2 ^ 32 := by
    have hlt := UInt64.lt_iff_toNat_lt.mp (hpred u hu)
    simp only [UInt64.reduceToNat] at hlt
    apply Nat.lt_of_le_of_lt (Nat.div_le_self _ _)
    omega
  have hwaiting : s.waitQuotient cells u < 2 ^ 32 := by
    have hlongest : s.longestWait cells < 0xffffffff := by
      cases hmax : (cells.map fun u => (s.tasks u).waitingInRQ.toNat).max? with
      | none => simp [Sched.longestWait, hmax]
      | some n =>
          obtain ⟨w, hw, rfl⟩ := List.mem_map.mp (List.max?_mem hmax)
          simpa [Sched.longestWait, hmax] using UInt64.lt_iff_toNat_lt.mp (hwait w hw)
    apply Nat.lt_of_le_of_lt (Nat.div_le_self _ _)
    omega
  calc s.truncatedGoodness cells u
      < 2 ^ 32 * 2 ^ 32 := Nat.mul_lt_mul'' hburst hwaiting
    _ = 2 ^ 64 := by decide

theorem truncatedGoodness_le_exact (s : Sched) (cells : List TaskAddr) (u : TaskAddr) :
    (s.truncatedGoodness cells u : ℚ) ≤ s.exactGoodness cells u := by
  rw [Sched.truncatedGoodness, Nat.cast_mul]
  exact mul_le_mul Nat.cast_div_le Nat.cast_div_le (Nat.cast_nonneg _) (by positivity)

theorem exactGoodness_lt (hu : u ∈ cells) :
    s.exactGoodness cells u < 4 * s.truncatedGoodness cells u := by
  have hleast := leastPred_le (s := s) hu
  have hlongest := le_longestWait (s := s) hu
  have hburst : ((1 + (s.tasks u).nextBurstPred.toNat : ℕ) : ℚ) / (1 + s.leastPred cells : ℕ) <
      2 * s.burstQuotient cells u := div_lt_two_mul (by omega) (by omega)
  have hwaiting : ((1 + s.longestWait cells : ℕ) : ℚ) /
      (1 + (s.tasks u).waitingInRQ.toNat : ℕ) < 2 * s.waitQuotient cells u :=
    div_lt_two_mul (by omega) (by omega)
  calc s.exactGoodness cells u
      < (2 * s.burstQuotient cells u) * (2 * s.waitQuotient cells u) :=
        mul_lt_mul'' hburst hwaiting (by positivity) (by positivity)
    _ = 4 * s.truncatedGoodness cells u := by
        rw [Sched.truncatedGoodness, Nat.cast_mul]
        ring

/-! ## The task that is returned -/

theorem getMinGoodness_truncated (h : Queued s seed cells) (hne : cells ≠ [])
    (hpred : ∀ u ∈ cells, (s.tasks u).nextBurstPred < 0xffffffff)
    (hwait : ∀ u ∈ cells, (s.tasks u).waitingInRQ < 0xffffffff) :
    ∃ s' curr, getMinGoodness s = .ok (s', some curr) ∧ curr ∈ cells ∧
      ∀ u ∈ cells, s.truncatedGoodness cells curr ≤ s.truncatedGoodness cells u := by
  have hpred' : ∀ u ∈ cells, (s.tasks u).nextBurstPred < ULLONG_MAX :=
    fun u hu => UInt64.lt_trans (hpred u hu) (by decide)
  have hwait' : ∀ u ∈ cells, (s.tasks u).waitingInRQ < ULLONG_MAX :=
    fun u hu => UInt64.lt_trans (hwait u hu) (by decide)
  obtain ⟨m, hm, w, hw, curr, hcurr, hleast, hlongest, hok, hminimal⟩ :=
    getMinGoodness_eq_some h hne hpred' hwait'
  have hvalue : ∀ u ∈ cells, (s.goodnessOf m w u).toNat = s.truncatedGoodness cells u := by
    intro u hu
    rw [toNat_goodnessOf hm hw hleast hlongest hpred' hwait' hu]
    exact Nat.mod_eq_of_lt (truncatedGoodness_lt hpred hwait hu)
  refine ⟨_, curr, hok, hcurr, ?_⟩
  intro u hu
  rw [← hvalue curr hcurr, ← hvalue u hu]
  exact UInt64.le_iff_toNat_le.mp (hminimal u hu)

/--
The returned task minimises the product of the truncated quotients, so the
product of its exact ratios is less than four times the least one.
-/
theorem getMinGoodness_minimal (h : Queued s seed cells) (hne : cells ≠ [])
    (hpred : ∀ u ∈ cells, (s.tasks u).nextBurstPred < 0xffffffff)
    (hwait : ∀ u ∈ cells, (s.tasks u).waitingInRQ < 0xffffffff) :
    ∃ s' curr, getMinGoodness s = .ok (s', some curr) ∧ curr ∈ cells ∧
      ∀ u ∈ cells, s.truncatedGoodness cells curr ≤ s.truncatedGoodness cells u ∧
        s.exactGoodness cells curr < 4 * s.exactGoodness cells u := by
  obtain ⟨s', curr, hok, hcurr, hminimal⟩ := getMinGoodness_truncated h hne hpred hwait
  refine ⟨s', curr, hok, hcurr, ?_⟩
  intro u hu
  have hle : (s.truncatedGoodness cells curr : ℚ) ≤ s.truncatedGoodness cells u :=
    Nat.cast_le.mpr (hminimal u hu)
  refine ⟨hminimal u hu, ?_⟩
  calc s.exactGoodness cells curr
      < 4 * s.truncatedGoodness cells curr := exactGoodness_lt hcurr
    _ ≤ 4 * s.truncatedGoodness cells u := by linarith
    _ ≤ 4 * s.exactGoodness cells u := by
        linarith [truncatedGoodness_le_exact s cells u]

end

/--
Three tasks are queued at clock 0.  Task 1 runs first, task 2 from clock 1 on, and
at clock 2 task 3 has waited twice as long as task 1.
-/
def nearTie : List Action :=
  [.schedFork 1, .wakeUpNewTask 1, .schedFork 2, .wakeUpNewTask 2, .schedFork 3,
    .wakeUpNewTask 3, .schedule, .tick 1, .schedule, .tick 2]

theorem legal_nearTie : Along stepWatched (Legal 0) (start blank 0) nearTie := by decide

theorem run_nearTie :
    ∃ w, run stepWatched (start blank 0) nearTie = .ok w ∧ w.1.current = some 2 ∧
      w.2.queued = [3, 2, 1] ∧
      (∀ u ∈ [3, 2, 1], ((w.1.measured [3, 2, 1] 2).tasks u).nextBurstPred = 0 ∧
        ((w.1.measured [3, 2, 1] 2).tasks u).waitingInRQ ≤ 2) ∧
      (w.1.measured [3, 2, 1] 2).leastPred [3, 2, 1] = 0 ∧
      (w.1.measured [3, 2, 1] 2).longestWait [3, 2, 1] = 2 ∧
      ((w.1.measured [3, 2, 1] 2).tasks 3).waitingInRQ = 2 ∧
      ((w.1.measured [3, 2, 1] 2).tasks 1).waitingInRQ = 1 ∧
      ∃ s', getMinGoodness (w.1.measured [3, 2, 1] 2) = .ok (s', some 1) :=
  ⟨_, rfl, rfl, rfl, by decide, rfl, rfl, rfl, rfl, _, rfl⟩

theorem getMinGoodness_minimal_nearTie :
    ∃ w s, run stepWatched (start blank 0) nearTie = .ok w ∧
      updateWaitingInRQ (book w.1 2).1 = .ok s ∧
      ∃ s' curr, getMinGoodness s = .ok (s', some curr) ∧ curr ∈ [3, 2, 1] ∧
        ∀ u ∈ [3, 2, 1], s.truncatedGoodness [3, 2, 1] curr ≤ s.truncatedGoodness [3, 2, 1] u ∧
          s.exactGoodness [3, 2, 1] curr < 4 * s.exactGoodness [3, 2, 1] u := by
  obtain ⟨w, hrun, -, hqueued, hvalues, -⟩ := run_nearTie
  have hring : Queued w.1 0 [3, 2, 1] :=
    hqueued ▸ (sound_run (Sound.start blank 0) legal_nearTie hrun).queued
  refine ⟨w, _, hrun, updateWaitingInRQ_book hring 2,
    getMinGoodness_minimal (measured_queued hring 2) (by decide) ?_ ?_⟩
  · intro u hu
    rw [(hvalues u hu).1]
    decide
  · intro u hu
    exact UInt64.lt_of_le_of_lt (hvalues u hu).2 (by decide)

/-- Truncation makes a tie of 1 and 3/2, and the later task of the queue wins it. -/
theorem getMinGoodness_not_exact :
    ∃ w s, run stepWatched (start blank 0) nearTie = .ok w ∧ w.1.current = some 2 ∧
      updateWaitingInRQ (book w.1 2).1 = .ok s ∧ Queued s 0 [3, 2, 1] ∧
      (∀ u ∈ [3, 2, 1], (s.tasks u).nextBurstPred < 0xffffffff ∧
        (s.tasks u).waitingInRQ < 0xffffffff) ∧
      ∃ s', getMinGoodness s = .ok (s', some 1) ∧
        s.exactGoodness [3, 2, 1] 3 < s.exactGoodness [3, 2, 1] 1 := by
  obtain ⟨w, hrun, hcurrent, hqueued, hvalues, hleast, hlongest, hthree, hone, s', hok⟩ :=
    run_nearTie
  have hring : Queued w.1 0 [3, 2, 1] :=
    hqueued ▸ (sound_run (Sound.start blank 0) legal_nearTie hrun).queued
  refine ⟨w, _, hrun, hcurrent, updateWaitingInRQ_book hring 2, measured_queued hring 2, ?_, s',
    hok, ?_⟩
  · intro u hu
    rw [(hvalues u hu).1]
    exact ⟨by decide, UInt64.lt_of_le_of_lt (hvalues u hu).2 (by decide)⟩
  · simp only [Sched.exactGoodness, hleast, hlongest, (hvalues 3 (by decide)).1,
      (hvalues 1 (by decide)).1, hthree, hone, UInt64.reduceToNat]
    norm_num

/-! ## Bounded bypass -/

/--
A task of maximal wait that has waited long beside another one, measured by its
burst quotient, is never passed over for it.
-/
theorem getMinGoodness_bypass {s : Sched} {seed : TaskAddr} {cells : List TaskAddr}
    (h : Queued s seed cells) (hpred : ∀ u ∈ cells, (s.tasks u).nextBurstPred < 0xffffffff)
    (hwait : ∀ u ∈ cells, (s.tasks u).waitingInRQ < 0xffffffff) {M : TaskAddr} (hM : M ∈ cells)
    (hlongest : ∀ u ∈ cells, (s.tasks M).waitingInRQ ≥ (s.tasks u).waitingInRQ) :
    (∃ s' curr, getMinGoodness s = .ok (s', some curr) ∧ curr ∈ cells) ∧
      ∀ T, 1 + (s.tasks M).waitingInRQ.toNat ≥
          (s.burstQuotient cells M + 1) * (1 + (s.tasks T).waitingInRQ.toNat) →
        ∀ s', getMinGoodness s ≠ .ok (s', some T) := by
  obtain ⟨s', curr, hok, hcurr, hminimal⟩ :=
    getMinGoodness_truncated h (List.ne_nil_of_mem hM) hpred hwait
  refine ⟨⟨s', curr, hok, hcurr⟩, ?_⟩
  intro T hlong s'' hreturned
  obtain rfl : curr = T := by
    rw [hok] at hreturned
    exact Option.some.inj (Prod.mk.inj (Except.ok.inj hreturned)).2
  have hwaited := longestWait_eq hM hlongest
  have hself : s.waitQuotient cells M = 1 := by
    rw [Sched.waitQuotient, hwaited]
    exact Nat.div_self (by omega)
  have hquotient : s.burstQuotient cells M + 1 ≤ s.waitQuotient cells curr := by
    rw [Sched.waitQuotient, hwaited]
    exact (Nat.le_div_iff_mul_le (by omega)).mpr hlong
  have hle : s.truncatedGoodness cells curr ≤ s.truncatedGoodness cells M := hminimal M hM
  have hbelow : s.waitQuotient cells curr ≤ s.truncatedGoodness cells curr :=
    Nat.le_mul_of_pos_left _ (one_le_burstQuotient hcurr)
  rw [Sched.truncatedGoodness, Sched.truncatedGoodness, hself, Nat.mul_one] at hle
  rw [Sched.truncatedGoodness] at hbelow
  omega

theorem getMinGoodness_bypass_nearTie :
    ∃ w s, run stepWatched (start blank 0) nearTie = .ok w ∧
      updateWaitingInRQ (book w.1 2).1 = .ok s ∧
      (∃ s' curr, getMinGoodness s = .ok (s', some curr) ∧ curr ∈ [3, 2, 1]) ∧
      ∀ T, 1 + (s.tasks 3).waitingInRQ.toNat ≥
          (s.burstQuotient [3, 2, 1] 3 + 1) * (1 + (s.tasks T).waitingInRQ.toNat) →
        ∀ s', getMinGoodness s ≠ .ok (s', some T) := by
  obtain ⟨w, hrun, -, hqueued, hvalues, -, -, hthree, -⟩ := run_nearTie
  have hring : Queued w.1 0 [3, 2, 1] :=
    hqueued ▸ (sound_run (Sound.start blank 0) legal_nearTie hrun).queued
  have hsmall : ∀ u ∈ [3, 2, 1],
      ((w.1.measured [3, 2, 1] 2).tasks u).nextBurstPred < 0xffffffff ∧
        ((w.1.measured [3, 2, 1] 2).tasks u).waitingInRQ < 0xffffffff := by
    intro u hu
    rw [(hvalues u hu).1]
    exact ⟨by decide, UInt64.lt_of_le_of_lt (hvalues u hu).2 (by decide)⟩
  refine ⟨w, _, hrun, updateWaitingInRQ_book hring 2,
    getMinGoodness_bypass (measured_queued hring 2) (fun u hu => (hsmall u hu).1)
      (fun u hu => (hsmall u hu).2) (by decide) ?_⟩
  intro u hu
  rw [hthree]
  exact (hvalues u hu).2

/-! ## Wraps -/

/-- The integer product of every queued task fits 64 bits when `schedule` compares them. -/
def GoodnessFits (s : Sched) (cells : List TaskAddr) : Prop :=
  ∀ c s', s.current = some c → updateWaitingInRQ (book s c).1 = .ok s' →
    ∀ u ∈ cells, s'.truncatedGoodness cells u < 2 ^ 64

/-- `schedule` stores the integer product in every queued task. -/
def GoodnessStored (s : Sched) (cells : List TaskAddr) : Prop :=
  ∃ c s' s'', s.current = some c ∧ updateWaitingInRQ (book s c).1 = .ok s' ∧
    schedule s = .ok s'' ∧
    ∀ u ∈ cells, (s''.tasks u).goodness.toNat = s'.truncatedGoodness cells u

section

variable {seed : TaskAddr} {w : Watched}

theorem dispatch_goodness (s : Sched) (cells : List TaskAddr) (c curr : TaskAddr)
    (goodness : TaskAddr → UInt64) (u : TaskAddr) :
    ((s.dispatch cells c curr goodness).tasks u).goodness = goodness u := by
  by_cases hu : u = c <;> simp [Sched.dispatch, Sched.rescheduled, hu]

theorem Early.schedule_goodness (he : Early seed w) {c : TaskAddr} (hc : w.1.current = some c)
    (hne : w.2.queued ≠ []) :
    ∃ s'', schedule w.1 = .ok s'' ∧ ∀ u ∈ w.2.queued, (s''.tasks u).goodness.toNat =
      (w.1.measured w.2.queued c).truncatedGoodness w.2.queued u % 2 ^ 64 := by
  have hpred : ∀ u ∈ w.2.queued, (w.1.tasks u).nextBurstPred < ULLONG_MAX :=
    fun u hu => he.sound.pred u (he.sound.forked u hu)
  obtain ⟨m, hm, w', hw', curr, -, hok, hextremes⟩ :=
    schedule_long he.sound.queued hne hc hpred he.waited_lt
  refine ⟨_, hok, ?_⟩
  intro u hu
  rw [dispatch_goodness, if_pos hu]
  refine toNat_goodnessOf hm hw' (fun u hu => (hextremes u hu).1)
    (fun u hu => (hextremes u hu).2.1)
    (fun u hu => measured_nextBurstPred_lt c (hpred u hu)) ?_ hu
  intro u hu
  rw [measured_waitingInRQ w.1 c hu]
  exact he.waited_lt u hu

theorem Early.stored_iff_fits (he : Early seed w) :
    GoodnessStored w.1 w.2.queued ↔ GoodnessFits w.1 w.2.queued := by
  obtain ⟨c, hc, -⟩ := he.sound.current
  have hmeasure := updateWaitingInRQ_book he.sound.queued c
  by_cases hempty : w.2.queued = []
  · -- `getMinGoodness` is not called
    obtain ⟨s'', t, hok, -⟩ := he.dispatches
    refine iff_of_true ⟨c, _, s'', hc, hmeasure, hok, ?_⟩ ?_
    · simp [hempty]
    · intro c' s' _ _
      simp [hempty]
  · obtain ⟨s'', hok, hstored⟩ := he.schedule_goodness hc hempty
    constructor
    · rintro ⟨c', s', s₁, hc', hmeasure', hok', hexact⟩ c₂ s₂ hc₂ hmeasure₂ u hu
      obtain rfl : c = c' := Option.some.inj (hc.symm.trans hc')
      obtain rfl : c = c₂ := Option.some.inj (hc.symm.trans hc₂)
      obtain rfl := Except.ok.inj (hmeasure.symm.trans hmeasure')
      obtain rfl := Except.ok.inj (hmeasure.symm.trans hmeasure₂)
      obtain rfl := Except.ok.inj (hok.symm.trans hok')
      rw [← hexact u hu]
      exact UInt64.toNat_lt _
    · intro hfits
      refine ⟨c, _, s'', hc, hmeasure, hok, ?_⟩
      intro u hu
      rw [hstored u hu]
      exact Nat.mod_eq_of_lt (hfits c _ hc hmeasure u hu)

theorem goodnessFits_of_clock_lt (hm : Metered seed w) (hclock : w.1.clock < 0xffffffff) :
    GoodnessFits w.1 w.2.queued := by
  intro c s' hc hmeasure u hu
  obtain rfl := Except.ok.inj
    ((updateWaitingInRQ_book hm.sound.queued c).symm.trans hmeasure)
  refine truncatedGoodness_lt ?_ ?_ hu
  · intro v hv
    refine UInt64.lt_of_le_of_lt ?_ hclock
    have htask := hm.tasks v (hm.sound.forked v hv)
    by_cases hvc : v = c
    · subst v
      simpa [Sched.measured, Sched.rewait, Sched.bookedState, Sched.modify] using
        (htask.booked_le hc).2.2
    · simpa [Sched.measured, Sched.rewait, Sched.bookedState, Sched.modify, hvc] using htask.pred
  · intro v hv
    have hstamp := hm.sound.stamped v (hm.sound.forked v hv)
    rw [measured_waitingInRQ w.1 c hv, Sched.waited]
    split
    · decide
    · refine UInt64.lt_of_le_of_lt ?_ hclock
      rw [UInt64.le_iff_toNat_le, UInt64.toNat_sub_of_le _ _ (UInt64.le_iff_toNat_le.mpr hstamp)]
      omega

end

def longBurst (clock : UInt64) : List Action :=
  [.schedFork 1, .wakeUpNewTask 1, .schedule, .schedFork 2, .wakeUpNewTask 2, .tick clock]

theorem legal_longBurst (clock : UInt64) :
    Along stepWatched (Legal 0) (start blank 0) (longBurst clock ++ [.schedule]) := by
  refine ⟨by decide, ?_⟩
  rintro _ ⟨⟩
  refine ⟨by decide, ?_⟩
  rintro _ ⟨⟩
  refine ⟨trivial, ?_⟩
  rintro _ ⟨⟩
  refine ⟨by decide, ?_⟩
  rintro _ ⟨⟩
  refine ⟨by decide, ?_⟩
  rintro _ ⟨⟩
  refine ⟨UInt64.zero_le, ?_⟩
  rintro _ ⟨⟩
  exact ⟨trivial, fun _ _ => trivial⟩

theorem run_longBurst (clock : UInt64) :
    ∃ w, run stepWatched (start blank 0) (longBurst clock) = .ok w ∧ w.1.clock = clock ∧
      w.1.current = some 1 ∧ w.2.queued = [2, 1] ∧
      ((w.1.measured [2, 1] 1).tasks 1).nextBurstPred = burstAverage clock 0 ∧
      ((w.1.measured [2, 1] 1).tasks 2).nextBurstPred = 0 ∧
      ((w.1.measured [2, 1] 1).tasks 1).waitingInRQ = 0 ∧
      ((w.1.measured [2, 1] 1).tasks 2).waitingInRQ = clock := by
  refine ⟨_, rfl, rfl, rfl, rfl, ?_, rfl, rfl, ?_⟩
  · show burstAverage (0 + (clock - 0)) 0 = burstAverage clock 0
    rw [UInt64.sub_zero, UInt64.zero_add]
  · show clock - 0 = clock
    rw [UInt64.sub_zero]

theorem longBurst_wraps {clock : UInt64} (hclock : 0x13988e140 ≤ clock)
    (hlimit : clock < 0x8000000000000000) :
    ∃ w, run stepWatched (start blank 0) (longBurst clock) = .ok w ∧ w.1.clock = clock ∧
      ¬ GoodnessStored w.1 w.2.queued := by
  obtain ⟨w, hrun, hclock', hcurrent, hqueued, hpred, hpred', hwait, hwait'⟩ :=
    run_longBurst clock
  have hsound := sound_run (Sound.start blank 0) (legal_longBurst clock).of_append hrun
  have hearly : Early 0 w := ⟨hsound, hclock'.symm ▸ hlimit⟩
  refine ⟨w, hrun, hclock', fun hstored => ?_⟩
  have hfits := hearly.stored_iff_fits.mp hstored 1 _ hcurrent
    (updateWaitingInRQ_book hsound.queued 1) 1 (by simp [hqueued])
  rw [hqueued] at hfits
  have hleast : (w.1.measured [2, 1] 1).leastPred [2, 1] = 0 := by
    rw [leastPred_eq (m := 2) (by decide), hpred']
    · rfl
    · intro u _
      rw [hpred']
      exact UInt64.zero_le
  have hlongest : (w.1.measured [2, 1] 1).longestWait [2, 1] = clock.toNat := by
    rw [longestWait_eq (w := 2) (by decide), hwait']
    intro u hu
    rcases List.mem_pair.mp hu with rfl | rfl
    · exact UInt64.le_refl _
    · rw [hwait]
      exact UInt64.zero_le
  have hfrom := UInt64.le_iff_toNat_le.mp hclock
  simp only [UInt64.reduceToNat] at hfrom
  rw [Sched.truncatedGoodness, Sched.burstQuotient, Sched.waitQuotient, hleast, hlongest, hpred,
    hwait, toNat_burstAverage] at hfits
  simp only [UInt64.reduceToNat, Nat.add_zero, Nat.div_one] at hfits
  have hburst : 0xd105eb80 ≤ 2 * clock.toNat / 3 := by omega
  have hproduct : (1 + 0xd105eb80) * (1 + 0x13988e140) ≤
      (1 + 2 * clock.toNat / 3) * (1 + clock.toNat) := Nat.mul_le_mul (by omega) (by omega)
  omega

/--
In a run whose calls of `schedule` all come before clock `2^32 - 1`, each of them stores
the integer products.  That is about as late as they can come: from clock 5260239168 on,
less than a quarter more, a single burst is enough for a product that is not stored.
-/
theorem goodnessStored_of_clock_lt (s₀ : Sched) (seed : TaskAddr) :
    (∀ actions, Along stepWatched (Legal seed) (start s₀ seed) actions →
      Along stepWatched (fun w a => a = .schedule → w.1.clock < 0xffffffff)
        (start s₀ seed) actions →
      ∀ first second w, actions = first ++ .schedule :: second →
        run stepWatched (start s₀ seed) first = .ok w → GoodnessStored w.1 w.2.queued) ∧
    ∀ clock, 0x13988e140 ≤ clock → clock < 0x4000000000000 →
      ∃ actions w, Along stepWatched (Legal 0) (start blank 0) (actions ++ [.schedule]) ∧
        run stepWatched (start blank 0) actions = .ok w ∧ w.1.clock = clock ∧
          ¬ GoodnessStored w.1 w.2.queued := by
  constructor
  · rintro actions hlegal hclock first second w rfl hrun
    have hsound := sound_run (Sound.start s₀ seed) hlegal.of_append hrun
    have hmetered := (Metered.start s₀ seed).run hlegal.of_append hrun
    have hearly : w.1.clock < 0xffffffff := ((along_append hrun).mp hclock).2.1 rfl
    exact (Early.stored_iff_fits ⟨hsound, UInt64.lt_trans hearly (by decide)⟩).mpr
      (goodnessFits_of_clock_lt hmetered hearly)
  · intro clock hfrom hlimit
    obtain ⟨w, hrun, hclock, hwraps⟩ :=
      longBurst_wraps hfrom (UInt64.lt_trans hlimit (by decide))
    exact ⟨_, w, legal_longBurst clock, hrun, hclock, hwraps⟩

theorem goodnessStored_of_clock_lt_nearTie :
    ∀ first second w, nearTie = first ++ .schedule :: second →
      run stepWatched (start blank 0) first = .ok w → GoodnessStored w.1 w.2.queued :=
  (goodnessStored_of_clock_lt blank 0).1 nearTie legal_nearTie (by decide)

/-- A burst of `2^33`. -/
theorem hugeBurst_wraps :
    Along stepWatched (Timely 0) (start blank 0) (longBurst 0x200000000 ++ [.schedule]) ∧
      ∃ w, run stepWatched (start blank 0) (longBurst 0x200000000) = .ok w ∧
        ¬ GoodnessStored w.1 w.2.queued := by
  have hfrom : (0x13988e140 : UInt64) ≤ 0x200000000 := by decide
  obtain ⟨w, hrun, -, hwraps⟩ := longBurst_wraps hfrom (by decide)
  exact ⟨by decide, w, hrun, hwraps⟩

end Ece318.Schedule
