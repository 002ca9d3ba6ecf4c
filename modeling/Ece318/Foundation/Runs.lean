import Mathlib.Data.List.Basic

/-!
# Runs of a program that takes one action after another

`step` may stop with an error; a run stops with it.  `Along` says that a guard
holds at every action of a run, in the state the action meets.  What one step
preserves, a run preserves, and a step-wise simulation lifts to runs.
-/

namespace Ece318.Foundation

/-! ## Computations that may stop -/

section

variable {ε α β : Type} {result : Except ε α} {b : β}

theorem bind_eq_ok {next : α → Except ε β} :
    result >>= next = .ok b ↔ ∃ a, result = .ok a ∧ next a = .ok b := by
  cases result <;> simp [bind, Except.bind]

theorem map_eq_ok {f : α → β} :
    result.map f = .ok b ↔ ∃ a, result = .ok a ∧ f a = b := by
  cases result <;> simp [Except.map]

end

/-! ## Runs -/

section

variable {σ α ε τ : Type} (step : σ → α → Except ε σ)

def run : σ → List α → Except ε σ
  | state, [] => .ok state
  | state, action :: actions =>
      match step state action with
      | .error fault => .error fault
      | .ok state' => run state' actions

/-- The guard holds of every action of the run, in the state before it. -/
def Along (guard : σ → α → Prop) : σ → List α → Prop
  | _, [] => True
  | state, action :: actions =>
      guard state action ∧
        ∀ state', step state action = .ok state' → Along guard state' actions

instance decidableAlong (guard : σ → α → Prop) [∀ state action, Decidable (guard state action)] :
    ∀ state actions, Decidable (Along step guard state actions)
  | _, [] => .isTrue trivial
  | state, action :: actions =>
      have : Decidable (∀ state', step state action = .ok state' →
          Along step guard state' actions) :=
        match hstep : step state action with
        | .error _ => .isTrue fun _ h => by simp at h
        | .ok next =>
            have := decidableAlong guard next actions
            decidable_of_iff (Along step guard next actions)
              ⟨fun h _ heq => Except.ok.inj heq ▸ h, fun h => h next rfl⟩
      inferInstanceAs (Decidable (_ ∧ _))

variable {step}

@[simp] theorem run_nil (state : σ) : run step state [] = .ok state := rfl

theorem run_cons {state state' : σ} {action : α} (actions : List α)
    (h : step state action = .ok state') :
    run step state (action :: actions) = run step state' actions := by
  simp [run, h]

theorem run_replicate {state : σ} {action : α} (h : step state action = .ok state) (count : Nat) :
    run step state (List.replicate count action) = .ok state := by
  induction count with
  | zero => rfl
  | succ count ih => rw [List.replicate_succ, run_cons _ h, ih]

theorem run_replicate_cases {state final : σ} {action : α} {count : Nat}
    (h : run step state (List.replicate count action) = .ok final) :
    state = final ∨ ∃ next, step state action = .ok next ∧
      ∃ fewer, run step next (List.replicate fewer action) = .ok final := by
  cases count with
  | zero => exact .inl (Except.ok.inj h)
  | succ fewer =>
      cases hstep : step state action with
      | error fault => simp [List.replicate_succ, run, hstep] at h
      | ok next =>
          rw [List.replicate_succ, run_cons _ hstep] at h
          exact .inr ⟨next, rfl, fewer, h⟩

theorem run_append {state state' : σ} {first : List α} (second : List α)
    (h : run step state first = .ok state') :
    run step state (first ++ second) = run step state' second := by
  induction first generalizing state with
  | nil =>
      cases h
      rfl
  | cons action first ih =>
      cases hstep : step state action with
      | error fault => simp [run, hstep] at h
      | ok next =>
          rw [run_cons _ hstep] at h
          rw [List.cons_append, run_cons _ hstep, ih h]

theorem run_concat {state state' : σ} {actions : List α} (action : α)
    (h : run step state actions = .ok state') :
    run step state (actions ++ [action]) = step state' action := by
  rw [run_append _ h, run]
  cases step state' action <;> rfl

theorem run_concat_eq_ok {state final : σ} {actions : List α} {action : α} :
    run step state (actions ++ [action]) = .ok final ↔
      ∃ middle, run step state actions = .ok middle ∧ step middle action = .ok final := by
  induction actions generalizing state with
  | nil =>
      rw [List.nil_append, run_nil]
      constructor
      · intro h
        refine ⟨state, rfl, ?_⟩
        cases hstep : step state action with
        | error fault => simp [run, hstep] at h
        | ok next => simpa [run, hstep] using h
      · rintro ⟨middle, ⟨⟩, hstep⟩
        simp [run, hstep]
  | cons head actions ih =>
      cases hstep : step state head with
      | error fault => simp [run, hstep]
      | ok next => rw [List.cons_append, run_cons _ hstep, run_cons _ hstep, ih]

instance decidableExistsOk {result : Except ε σ} {P : σ → Prop} [DecidablePred P] :
    Decidable (∃ state, result = .ok state ∧ P state) :=
  match result with
  | .error _ => .isFalse fun ⟨_, h, _⟩ => by simp at h
  | .ok state =>
      decidable_of_iff (P state)
        ⟨fun h => ⟨state, rfl, h⟩, fun ⟨_, h, hP⟩ => Except.ok.inj h ▸ hP⟩

instance decidableForallOk {result : Except ε σ} {P : σ → Prop} [DecidablePred P] :
    Decidable (∀ state, result = .ok state → P state) :=
  match result with
  | .error _ => .isTrue fun _ h => by simp at h
  | .ok state =>
      decidable_of_iff (P state)
        ⟨fun hP _ h => Except.ok.inj h ▸ hP, fun h => h state rfl⟩

theorem along_cons {guard : σ → α → Prop} {state state' : σ} {action : α} {actions : List α}
    (h : step state action = .ok state') :
    Along step guard state (action :: actions) ↔
      guard state action ∧ Along step guard state' actions := by
  simp [Along, h]

theorem along_append {guard : σ → α → Prop} {state state' : σ}
    {first second : List α} (h : run step state first = .ok state') :
    Along step guard state (first ++ second) ↔
      Along step guard state first ∧ Along step guard state' second := by
  induction first generalizing state with
  | nil =>
      cases h
      simp [Along]
  | cons action first ih =>
      cases hstep : step state action with
      | error fault => simp [run, hstep] at h
      | ok next =>
          rw [run_cons _ hstep] at h
          simp [Along, hstep, ih h, and_assoc]

theorem Along.of_append {guard : σ → α → Prop} {state : σ} {first second : List α}
    (h : Along step guard state (first ++ second)) :
    Along step guard state first := by
  induction first generalizing state with
  | nil => trivial
  | cons action first ih =>
      exact ⟨h.1, fun next hstep => ih (h.2 next hstep)⟩

theorem Along.mono {guard weaker : σ → α → Prop} {state : σ} {actions : List α}
    (himp : ∀ state, ∀ action ∈ actions, guard state action → weaker state action)
    (h : Along step guard state actions) : Along step weaker state actions := by
  induction actions generalizing state with
  | nil => trivial
  | cons action actions ih =>
      refine ⟨himp _ _ List.mem_cons_self h.1, fun next hstep => ?_⟩
      exact ih (fun s a ha => himp s a (List.mem_cons_of_mem _ ha)) (h.2 next hstep)

theorem Along.of_forall {guard : σ → α → Prop} {actions : List α}
    (h : ∀ action ∈ actions, ∀ state, guard state action) (state : σ) :
    Along step guard state actions := by
  induction actions generalizing state with
  | nil => trivial
  | cons action actions ih =>
      exact ⟨h _ List.mem_cons_self state, fun next _ =>
        ih (fun a ha => h a (List.mem_cons_of_mem _ ha)) next⟩

theorem along_iff_forall_mem {P : α → Prop}
    (hok : ∀ state action, ∃ state', step state action = .ok state') {state : σ}
    {actions : List α} :
    Along step (fun _ action => P action) state actions ↔ ∀ action ∈ actions, P action := by
  refine ⟨fun h => ?_, fun h => Along.of_forall (fun action haction _ => h action haction) state⟩
  induction actions generalizing state with
  | nil => simp
  | cons action actions ih =>
      rcases hok state action with ⟨next, hnext⟩
      exact List.forall_mem_cons.mpr ⟨h.1, ih (h.2 next hnext)⟩

theorem Along.and {guard other : σ → α → Prop} {state : σ} {actions : List α}
    (h : Along step guard state actions) (h' : Along step other state actions) :
    Along step (fun s a => guard s a ∧ other s a) state actions := by
  induction actions generalizing state with
  | nil => trivial
  | cons action actions ih => exact ⟨⟨h.1, h'.1⟩, fun next hok => ih (h.2 next hok) (h'.2 next hok)⟩

theorem Along.and_mem {guard : σ → α → Prop} {state : σ} {actions : List α}
    (h : Along step guard state actions) :
    Along step (fun s a => guard s a ∧ a ∈ actions) state actions :=
  h.mono fun _ _ ha hguard => ⟨hguard, ha⟩

/--
A step-wise simulation: from related states every guarded step succeeds and
follows the abstract step.  Then every guarded run succeeds and follows the
abstract run.
-/
theorem run_simulates {guard : σ → α → Prop} (next : τ → α → τ) (R : σ → τ → Prop)
    (hstep : ∀ state abstract action, R state abstract → guard state action →
      ∃ state', step state action = .ok state' ∧ R state' (next abstract action))
    {state : σ} (abstract : τ) {actions : List α} (hR : R state abstract)
    (hrun : Along step guard state actions) :
    ∃ state', run step state actions = .ok state' ∧
      R state' (actions.foldl next abstract) := by
  induction actions generalizing state abstract with
  | nil => exact ⟨state, rfl, hR⟩
  | cons action actions ih =>
      obtain ⟨state', hok, hR'⟩ := hstep state abstract action hR hrun.1
      obtain ⟨final, hfinal, hrel⟩ := ih _ hR' (hrun.2 state' hok)
      exact ⟨final, by rw [run_cons _ hok, hfinal], hrel⟩

theorem run_invariant {guard : σ → α → Prop} (Inv : σ → Prop)
    (hstep : ∀ state action, Inv state → guard state action →
      ∃ state', step state action = .ok state' ∧ Inv state')
    {state : σ} {actions : List α} (hInv : Inv state)
    (hrun : Along step guard state actions) :
    ∃ state', run step state actions = .ok state' ∧ Inv state' :=
  run_simulates (fun _ _ => ()) (fun s (_ : Unit) => Inv s) (fun s _ a => hstep s a)
    () hInv hrun

theorem run_preserves {guard : σ → α → Prop} (Inv : σ → Prop)
    (hstep : ∀ state action state', Inv state → guard state action →
      step state action = .ok state' → Inv state')
    {state final : σ} {actions : List α} (hInv : Inv state)
    (hguard : Along step guard state actions)
    (hrun : run step state actions = .ok final) : Inv final := by
  induction actions generalizing state with
  | nil =>
      cases hrun
      exact hInv
  | cons action actions ih =>
      cases hok : step state action with
      | error fault => simp [run, hok] at hrun
      | ok next =>
          rw [run_cons _ hok] at hrun
          exact ih (hstep _ _ _ hInv hguard.1 hok) (hguard.2 next hok) hrun

/--
A property that every guarded step keeps exactly when it is clean: a run stays
good in every state it passes if and only if all its steps are clean.
-/
theorem forall_prefix_iff_along {guard clean : σ → α → Prop} (Inv Good : σ → Prop)
    (hstep : ∀ state action, Inv state → Good state → guard state action →
      ∃ state', step state action = .ok state' ∧ Inv state' ∧
        (Good state' ↔ clean state action))
    {state : σ} {actions : List α} (hInv : Inv state) (hGood : Good state)
    (hrun : Along step guard state actions) :
    (∀ first second, actions = first ++ second →
        ∃ state', run step state first = .ok state' ∧ Good state') ↔
      Along step clean state actions := by
  induction actions generalizing state with
  | nil =>
      refine ⟨fun _ => trivial, fun _ first second h => ⟨state, ?_, hGood⟩⟩
      obtain ⟨rfl, -⟩ := List.append_eq_nil_iff.mp h.symm
      rfl
  | cons action actions ih =>
      obtain ⟨next, hok, hInv', hclean⟩ := hstep state action hInv hGood hrun.1
      constructor
      · intro h
        -- the prefix of one action shows that the first step is clean
        obtain ⟨state', hsingle, hGood'⟩ := h [action] actions rfl
        rw [run_cons _ hok, run_nil, Except.ok.injEq] at hsingle
        subst state'
        refine ⟨hclean.mp hGood', fun state' hok' => ?_⟩
        rw [hok, Except.ok.injEq] at hok'
        subst state'
        refine (ih hInv' hGood' (hrun.2 next hok)).mp fun first second heq => ?_
        obtain ⟨final, hfinal, hgood⟩ := h (action :: first) second (by rw [heq]; rfl)
        rw [run_cons _ hok] at hfinal
        exact ⟨final, hfinal, hgood⟩
      · rintro ⟨haction, hrest⟩ first second heq
        cases first with
        | nil => exact ⟨state, rfl, hGood⟩
        | cons head first =>
            obtain ⟨rfl, htail⟩ := List.cons.inj heq
            rw [run_cons _ hok]
            exact (ih hInv' (hclean.mpr haction) (hrun.2 next hok)).mpr
              (hrest next hok) first second htail

theorem run_good_iff_along {clean : σ → α → Prop} (Inv Good : σ → Prop)
    (hstep : ∀ state action, Inv state →
      ∃ state', step state action = .ok state' ∧ Inv state' ∧
        (Good state' ↔ Good state ∧ clean state action))
    {state : σ} (hInv : Inv state) (actions : List α) :
    ∃ state', run step state actions = .ok state' ∧
      (Good state' ↔ Good state ∧ Along step clean state actions) := by
  induction actions generalizing state with
  | nil => exact ⟨state, rfl, by simp [Along]⟩
  | cons action actions ih =>
      obtain ⟨next, hok, hInv', hclean⟩ := hstep state action hInv
      obtain ⟨final, hrun, hgood⟩ := ih hInv'
      refine ⟨final, by rw [run_cons _ hok, hrun], ?_⟩
      rw [hgood, hclean, and_assoc]
      simp [Along, hok]

/--
What an observer sees of a run: where the irrelevant actions are invisible and the relevant
ones act on the view alone, the view is that of the relevant actions.
-/
theorem view_foldl_filter {ω : Type} {next : τ → α → τ} {view : τ → ω} {relevant : α → Prop}
    [DecidablePred relevant] {actions : List α}
    (hskip : ∀ action ∈ actions, ¬ relevant action → ∀ state,
      view (next state action) = view state)
    (hkeep : ∀ action ∈ actions, relevant action → ∀ state state', view state = view state' →
      view (next state action) = view (next state' action))
    {state state' : τ} (h : view state = view state') :
    view (actions.foldl next state) =
      view ((actions.filter (relevant ·)).foldl next state') := by
  induction actions generalizing state state' with
  | nil => exact h
  | cons action actions ih =>
      rw [List.forall_mem_cons] at hskip hkeep
      by_cases hrelevant : relevant action
      · rw [List.filter_cons_of_pos (by simpa using hrelevant)]
        exact ih hskip.2 hkeep.2 (hkeep.1 hrelevant state state' h)
      · rw [List.filter_cons_of_neg (by simpa using hrelevant)]
        exact ih hskip.2 hkeep.2 ((hskip.1 hrelevant state).trans h)

theorem countP_lt_countP [DecidableEq α] {counted counted' : α → Bool} {items : List α} {item : α}
    (himp : ∀ x ∈ items, counted' x → counted x) (hitem : item ∈ items)
    (hbefore : counted item) (hafter : ¬ counted' item) :
    items.countP counted' < items.countP counted := by
  have hperm := List.perm_cons_erase hitem
  rw [hperm.countP_eq counted', hperm.countP_eq counted, List.countP_cons_of_neg hafter,
    List.countP_cons_of_pos hbefore, Nat.lt_succ_iff]
  exact List.countP_mono_left fun x hx => himp x (List.mem_of_mem_erase hx)

/-- A rank that no step raises and every counted action lowers. -/
theorem run_lowers {guard : σ → α → Prop} (counted : α → Bool) (Inv : σ → Prop) (rank : σ → Nat)
    (hstep : ∀ state action state', Inv state → guard state action →
      step state action = .ok state' →
        Inv state' ∧ rank state' ≤ rank state - if counted action then 1 else 0)
    {state final : σ} {actions : List α} (hInv : Inv state)
    (hguard : Along step guard state actions) (hrun : run step state actions = .ok final) :
    rank final ≤ rank state - actions.countP counted := by
  induction actions generalizing state with
  | nil =>
      cases hrun
      exact Nat.le_refl _
  | cons action actions ih =>
      cases hok : step state action with
      | error fault => simp [run, hok] at hrun
      | ok next =>
          rw [run_cons _ hok] at hrun
          obtain ⟨hInv', hrank⟩ := hstep state action next hInv hguard.1 hok
          have hrest := ih hInv' (hguard.2 next hok) hrun
          rw [List.countP_cons]
          omega

/--
A rank that no step raises and every counted action lowers unless it reaches the
goal.  With more counted actions than the rank, the run reaches the goal.
-/
theorem run_reaches {guard : σ → α → Prop} {goal : σ → Prop} (counted : α → Bool)
    (Inv : σ → Prop) (rank : σ → Nat)
    (hstep : ∀ state action, Inv state → guard state action →
      ∃ state', step state action = .ok state' ∧
        ((counted action ∧ goal state') ∨
          (Inv state' ∧ rank state' + (if counted action then 1 else 0) ≤ rank state)))
    {state : σ} {actions : List α} (hInv : Inv state) (hrun : Along step guard state actions)
    (hcount : rank state < actions.countP counted) :
    ∃ first action second middle final, actions = first ++ action :: second ∧
      first.countP counted ≤ rank state ∧ run step state first = .ok middle ∧
      counted action ∧ step middle action = .ok final ∧ goal final := by
  induction actions generalizing state with
  | nil => simp at hcount
  | cons action actions ih =>
      obtain ⟨next, hok, ⟨hcounted, hgoal⟩ | ⟨hInv', hrank⟩⟩ := hstep state action hInv hrun.1
      · exact ⟨[], action, actions, state, next, rfl, by simp, rfl, hcounted, hok, hgoal⟩
      · rw [List.countP_cons] at hcount
        obtain ⟨first, last, second, middle, final, heq, hle, hmiddle, hlast⟩ :=
          ih hInv' (hrun.2 next hok) (by omega)
        refine ⟨action :: first, last, second, middle, final, by rw [heq]; rfl, ?_, ?_, hlast⟩
        · rw [List.countP_cons]
          omega
        · rw [run_cons _ hok, hmiddle]

end

/-! ## Watched runs -/

section

variable {σ τ α ε : Type}

def watch (step : σ → α → Except ε σ) (record : τ → σ → α → σ → τ) (state : σ × τ)
    (action : α) : Except ε (σ × τ) :=
  (step state.1 action).map fun next => (next, record state.2 state.1 action next)

variable {step : σ → α → Except ε σ} {record : τ → σ → α → σ → τ}

theorem watch_eq_ok {state state' : σ × τ} {action : α} :
    watch step record state action = .ok state' ↔
      ∃ next, step state.1 action = .ok next ∧
        (next, record state.2 state.1 action next) = state' :=
  map_eq_ok

variable (step record) in
theorem run_watch (state : σ × τ) (actions : List α) :
    (run (watch step record) state actions).map Prod.fst = run step state.1 actions := by
  induction actions generalizing state with
  | nil => rfl
  | cons action actions ih =>
      cases hstep : step state.1 action with
      | error fault => simp [run, watch, hstep, Except.map]
      | ok next =>
          have hwatch : watch step record state action =
              .ok (next, record state.2 state.1 action next) := by
            simp [watch, hstep, Except.map]
          rw [run_cons _ hwatch, run_cons _ hstep, ih]

end

/-! ## Runs that answer -/

section

variable {σ τ α ε ω : Type}

/-- What a run answers, and the state after it. -/
def transcript (ask : σ → α → Except ε (ω × σ)) : σ → List α → Except ε (List ω × σ)
  | state, [] => .ok ([], state)
  | state, action :: actions => do
      let first ← ask state action
      let rest ← transcript ask first.2 actions
      return (first.1 :: rest.1, rest.2)

/-- Every answer is one that the abstract state before its action allows. -/
inductive Explains (next : τ → α → τ) (allows : τ → α → ω → Prop) :
    τ → List α → List ω → Prop
  | nil (abstract : τ) : Explains next allows abstract [] []
  | cons {abstract : τ} {action : α} {actions : List α} {answer : ω} {answers : List ω}
      (first : allows abstract action answer)
      (rest : Explains next allows (next abstract action) actions answers) :
      Explains next allows abstract (action :: actions) (answer :: answers)

/--
A simulation whose steps also answer: from related states every guarded action is
answered as the abstract state allows.  Then a whole run is.
-/
theorem transcript_explained {ask : σ → α → Except ε (ω × σ)} {guard : σ → α → Prop}
    (next : τ → α → τ) (allows : τ → α → ω → Prop) (R : σ → τ → Prop)
    (hstep : ∀ state abstract action, R state abstract → guard state action →
      ∃ answer state', ask state action = .ok (answer, state') ∧
        allows abstract action answer ∧ R state' (next abstract action))
    {state : σ} (abstract : τ) {actions : List α} (hR : R state abstract)
    (hrun : Along (fun state action => (ask state action).map Prod.snd) guard state actions) :
    ∃ answers state', transcript ask state actions = .ok (answers, state') ∧
      Explains next allows abstract actions answers ∧ R state' (actions.foldl next abstract) := by
  induction actions generalizing state abstract with
  | nil => exact ⟨[], state, rfl, .nil abstract, hR⟩
  | cons action actions ih =>
      obtain ⟨answer, state', hask, hallows, hR'⟩ := hstep state abstract action hR hrun.1
      have hstate : (ask state action).map Prod.snd = .ok state' := by
        rw [hask]
        rfl
      obtain ⟨answers, final, hrest, hexplains, hfinal⟩ := ih _ hR' (hrun.2 state' hstate)
      refine ⟨answer :: answers, final, ?_, .cons hallows hexplains, hfinal⟩
      simp only [transcript, hask, bind, Except.bind, hrest]
      rfl

end

end Ece318.Foundation
