import Mathlib.Data.List.Basic
import Mathlib.Order.Lattice

/-!
# Scans that keep the best item

A scan compares the key of each item with the best key so far and keeps the
item when the key is better.  `better` may be a strict or a non-strict order;
it only has to agree with the preorder `le` in which the result is best.
-/

namespace Ece318.Foundation

section

variable {α κ : Type} (better : κ → κ → Prop) [∀ new old, Decidable (better new old)] (key : α → κ)

def keepBest (best : κ × Option α) (item : α) : κ × Option α :=
  if better (key item) best.1 then (key item, some item) else best

variable {better} {le : κ → κ → Prop}

/-- What a comparison has to satisfy for a scan to end with a best item. -/
structure Improves (better le : κ → κ → Prop) : Prop where
  refl : ∀ a, le a a
  trans : ∀ a b c, le a b → le b c → le a c
  le_of_better : ∀ new old, better new old → le new old
  le_of_not_better : ∀ new old, ¬ better new old → le old new

theorem keepBest_le (h : Improves better le) (best : κ × Option α) (item : α) :
    le (keepBest better key best item).1 best.1 ∧
      le (keepBest better key best item).1 (key item) := by
  by_cases hbetter : better (key item) best.1
  · rw [keepBest, if_pos hbetter]
    exact ⟨h.le_of_better _ _ hbetter, h.refl _⟩
  · rw [keepBest, if_neg hbetter]
    exact ⟨h.refl _, h.le_of_not_better _ _ hbetter⟩

theorem foldl_keepBest_le (h : Improves better le) (best : κ × Option α) (items : List α) :
    le (items.foldl (keepBest better key) best).1 best.1 ∧
      ∀ item ∈ items, le (items.foldl (keepBest better key) best).1 (key item) := by
  induction items generalizing best with
  | nil => exact ⟨h.refl _, by simp⟩
  | cons item items ih =>
      obtain ⟨hbest, hitem⟩ := keepBest_le key h best item
      obtain ⟨hfirst, hrest⟩ := ih (keepBest better key best item)
      rw [List.foldl_cons]
      refine ⟨h.trans _ _ _ hfirst hbest, ?_⟩
      intro other hother
      rcases List.mem_cons.mp hother with rfl | hother
      · exact h.trans _ _ _ hfirst hitem
      · exact hrest other hother

variable (better) in
theorem foldl_keepBest_cases (best : κ × Option α) (items : List α) :
    (items.foldl (keepBest better key) best = best ∧
        ∀ item ∈ items, ¬ better (key item) best.1) ∨
      ∃ item ∈ items, items.foldl (keepBest better key) best = (key item, some item) := by
  induction items generalizing best with
  | nil => simp
  | cons item items ih =>
      rw [List.foldl_cons]
      by_cases hbetter : better (key item) best.1
      · right
        rw [keepBest, if_pos hbetter]
        rcases ih (key item, some item) with ⟨heq, -⟩ | ⟨other, hother, heq⟩
        · exact ⟨item, by simp, heq⟩
        · exact ⟨other, List.mem_cons_of_mem _ hother, heq⟩
      · rw [keepBest, if_neg hbetter]
        rcases ih best with ⟨heq, hnone⟩ | ⟨other, hother, heq⟩
        · left
          exact ⟨heq, by simpa [hbetter] using hnone⟩
        · right
          exact ⟨other, List.mem_cons_of_mem _ hother, heq⟩

/-- A scan in which some item beats the initial value ends with a best item. -/
theorem foldl_keepBest_eq_some (h : Improves better le) {best : κ × Option α} {items : List α}
    {winner : α} (hwinner : winner ∈ items) (hbetter : better (key winner) best.1) :
    ∃ item ∈ items, items.foldl (keepBest better key) best = (key item, some item) ∧
      ∀ other ∈ items, le (key item) (key other) := by
  rcases foldl_keepBest_cases better key best items with
    ⟨-, hnone⟩ | ⟨item, hitem, heq⟩
  · exact absurd hbetter (hnone winner hwinner)
  · have hle := (foldl_keepBest_le key h best items).2
    rw [heq] at hle
    exact ⟨item, hitem, heq, hle⟩

structure Ranks (better : κ → κ → Prop) : Prop where
  trans : ∀ a b c, better a b → better b c → better a c
  of_not_better : ∀ a b c, ¬ better b c → better a c → better a b

/-- The item that is kept beats every earlier item, and no later item beats it. -/
theorem foldl_keepBest_split (h : Ranks better) (best : κ × Option α) (items : List α) :
    (items.foldl (keepBest better key) best = best ∧
        ∀ item ∈ items, ¬ better (key item) best.1) ∨
      ∃ front item back, items = front ++ item :: back ∧
        items.foldl (keepBest better key) best = (key item, some item) ∧
        better (key item) best.1 ∧ (∀ x ∈ front, better (key item) (key x)) ∧
        ∀ x ∈ back, ¬ better (key x) (key item) := by
  induction items generalizing best with
  | nil => simp
  | cons item items ih =>
      rw [List.foldl_cons]
      by_cases hbetter : better (key item) best.1
      · rw [keepBest, if_pos hbetter]
        rcases ih (key item, some item) with
          ⟨heq, hnone⟩ | ⟨front, other, back, rfl, heq, hitem, hfront, hback⟩
        · exact Or.inr ⟨[], item, items, rfl, heq, hbetter, by simp, hnone⟩
        · exact Or.inr ⟨item :: front, other, back, rfl, heq, h.trans _ _ _ hitem hbetter,
            List.forall_mem_cons.mpr ⟨hitem, hfront⟩, hback⟩
      · rw [keepBest, if_neg hbetter]
        rcases ih best with
          ⟨heq, hnone⟩ | ⟨front, other, back, rfl, heq, hbest, hfront, hback⟩
        · exact Or.inl ⟨heq, List.forall_mem_cons.mpr ⟨hbetter, hnone⟩⟩
        · exact Or.inr ⟨item :: front, other, back, rfl, heq, hbest,
            List.forall_mem_cons.mpr ⟨h.of_not_better _ _ _ hbetter hbest, hfront⟩, hback⟩

end

/-! ## The best of the items seen so far -/

section

variable {α κ : Type} {key : α → κ}

def IsBest [LE κ] (key : α → κ) (items : List α) : Option α → Prop
  | none => items = []
  | some best => best ∈ items ∧ ∀ other ∈ items, key best ≤ key other

variable [Preorder κ] {items rest : List α} {item best : α}

theorem isBest_nil : IsBest key [] none := rfl

theorem IsBest.mem {found : Option α} (h : IsBest key items found) (hbest : best ∈ found) :
    best ∈ items := by
  cases found with
  | none => contradiction
  | some other =>
      cases hbest
      exact h.1

theorem IsBest.replace {old : Option α} (h : IsBest key items old)
    (hle : ∀ best ∈ old, key item ≤ key best) :
    IsBest key (items ++ [item]) (some item) := by
  refine ⟨by simp, ?_⟩
  intro other hother
  rw [List.mem_append, List.mem_singleton] at hother
  rcases hother with hother | rfl
  · cases old with
    | none =>
        rw [show items = [] from h] at hother
        contradiction
    | some best => exact le_trans (hle best rfl) (h.2 other hother)
  · exact le_refl _

theorem IsBest.append (h : IsBest key items (some best))
    (hle : ∀ item ∈ rest, key best ≤ key item) :
    IsBest key (items ++ rest) (some best) := by
  refine ⟨List.mem_append_left _ h.1, ?_⟩
  intro other hother
  rcases List.mem_append.mp hother with hother | hother
  · exact h.2 other hother
  · exact hle other hother

end

/-! ## Scans that stop at a key nothing can beat -/

section

variable {α κ : Type} [LinearOrder κ] (fits : α → Prop) [DecidablePred fits] (key : α → κ)
  (bottom : κ)

/-- An item that fits is taken if there is nothing yet, or something with a larger key. -/
def Takes (best : Option α) (item : α) : Prop :=
  fits item ∧ (best = none ∨ ∃ old ∈ best, key item < key old)

instance (best : Option α) (item : α) : Decidable (Takes fits key best item) :=
  match best with
  | none => decidable_of_iff (fits item) (by simp [Takes])
  | some old => decidable_of_iff (fits item ∧ key item < key old) (by simp [Takes])

def scanBest : Option α → List α → Option α
  | best, [] => best
  | best, item :: rest =>
      if Takes fits key best item then
        if key item = bottom then some item else scanBest (some item) rest
      else scanBest best rest

variable {fits key bottom}

theorem IsBest.stop (hbottom : ∀ item, fits item → bottom ≤ key item) (rest : List α)
    {items : List α} {best : α} (h : IsBest key items (some best)) (hkey : key best = bottom) :
    IsBest key (items ++ rest.filter fun item => fits item) (some best) := by
  apply h.append
  intro other hother
  rw [hkey]
  exact hbottom other (by simpa using (List.mem_filter.mp hother).2)

theorem scanBest_isBest (hbottom : ∀ item, fits item → bottom ≤ key item) (rest : List α)
    {items : List α} {best : Option α} (h : IsBest key items best) :
    IsBest key (items ++ rest.filter fun item => fits item)
      (scanBest fits key bottom best rest) := by
  induction rest generalizing items best with
  | nil => simpa [scanBest] using h
  | cons item rest ih =>
      rw [scanBest]
      by_cases htakes : Takes fits key best item
      · have hle : ∀ old ∈ best, key item ≤ key old := by
          rintro old hold
          rcases htakes.2 with rfl | ⟨other, hother, hlt⟩
          · contradiction
          · cases Option.mem_unique hold hother
            exact hlt.le
        have hnew := h.replace hle
        rw [if_pos htakes, List.filter_cons_of_pos (by simpa using htakes.1),
          List.append_cons]
        split
        · rename_i hkey
          exact hnew.stop hbottom rest hkey
        · exact ih hnew
      · rw [if_neg htakes]
        by_cases hfits : fits item
        · cases best with
          | none => exact absurd ⟨hfits, .inl rfl⟩ htakes
          | some old =>
              have hle : key old ≤ key item :=
                not_lt.mp fun hlt => htakes ⟨hfits, .inr ⟨old, rfl, hlt⟩⟩
              rw [List.filter_cons_of_pos (by simpa using hfits), List.append_cons]
              exact ih (h.append (by simpa using hle))
        · rw [List.filter_cons_of_neg (by simpa using hfits)]
          exact ih h

end

end Ece318.Foundation
