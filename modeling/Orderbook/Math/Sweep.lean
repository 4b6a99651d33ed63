/-
# Priority sweeps

A demand is served from a list of items, one item at a time: always from the
first eligible item that is ahead of all other eligible ones. An item whose whole
quantity is taken leaves the list; the last item served may keep a part. The
sweep ends when the demand is met or no eligible item is left.

What an item is, when it is eligible and which items are ahead are parameters.
Items are told apart by a tag that taking a part of the quantity does not change.
-/

import Mathlib.Data.List.Nodup
import Mathlib.Algebra.BigOperators.Group.List.Basic
import Mathlib.Tactic.Ring

namespace Orderbook.Math

universe u v w

/-- The first eligible item that is ahead of every eligible item. -/
def best {α : Type u} (eligible : α → Bool) (ahead : α → α → Bool) (items : List α) : Option α :=
  items.find? fun x => eligible x && items.all fun y => !eligible y || ahead x y

/-- Any description of the items that are eligible and ahead finds the best one. -/
theorem best_eq_find {α : Type u} {eligible : α → Bool} {ahead : α → α → Bool} {items : List α}
    {first : α → Bool}
    (hfirst : ∀ x ∈ items, first x = true ↔
      eligible x = true ∧ ∀ y ∈ items, eligible y = true → ahead x y = true) :
    best eligible ahead items = items.find? first := by
  unfold best
  rw [← List.head?_filter, ← List.head?_filter]
  congr 1
  apply List.filter_congr
  intro x hx
  rw [Bool.eq_iff_iff, hfirst x hx, Bool.and_eq_true, List.all_eq_true]
  apply and_congr Iff.rfl
  apply forall₂_congr
  intro y _
  cases eligible y <;> simp

/-- Without an eligible item there is no best one. -/
theorem best_eq_none {α : Type u} {eligible : α → Bool} {ahead : α → α → Bool} {items : List α}
    (hnone : ∀ x ∈ items, eligible x = false) : best eligible ahead items = none := by
  unfold best
  rw [List.find?_eq_none]
  intro x hx
  simp [hnone x hx]

/-- Among finitely many items, some eligible one is ahead of all eligible ones. -/
theorem exists_ahead {α : Type u} {eligible : α → Bool} {ahead : α → α → Bool} {items : List α}
    (htotal : ∀ x y, ahead x y = true ∨ ahead y x = true)
    (htrans : ∀ x y z, ahead x y = true → ahead y z = true → ahead x z = true)
    (hsome : ∃ x ∈ items, eligible x = true) :
    ∃ x ∈ items, eligible x = true ∧ ∀ y ∈ items, eligible y = true → ahead x y = true := by
  induction items with
  | nil => simp at hsome
  | cons first rest ih =>
      have hself : ahead first first = true := (htotal first first).elim id id
      by_cases hrest : ∃ x ∈ rest, eligible x = true
      · obtain ⟨x, hx, heligible, hahead⟩ := ih hrest
        by_cases hfirst : eligible first = true ∧ ahead first x = true
        · refine ⟨first, List.mem_cons_self, hfirst.1, ?_⟩
          intro y hy hyEligible
          rcases List.mem_cons.mp hy with rfl | hy
          · exact hself
          · exact htrans _ _ _ hfirst.2 (hahead y hy hyEligible)
        · refine ⟨x, List.mem_cons_of_mem _ hx, heligible, ?_⟩
          intro y hy hyEligible
          rcases List.mem_cons.mp hy with rfl | hy
          · exact (htotal x y).resolve_right fun h => hfirst ⟨hyEligible, h⟩
          · exact hahead y hy hyEligible
      · obtain ⟨x, hx, heligible⟩ := hsome
        rcases List.mem_cons.mp hx with rfl | hx
        · refine ⟨x, List.mem_cons_self, heligible, ?_⟩
          intro y hy hyEligible
          rcases List.mem_cons.mp hy with rfl | hy
          · exact hself
          · exact absurd ⟨y, hy, hyEligible⟩ hrest
        · exact absurd ⟨x, hx, heligible⟩ hrest

/-- Without a best item there is no eligible one. -/
theorem not_eligible_of_best_eq_none {α : Type u} {eligible : α → Bool} {ahead : α → α → Bool}
    {items : List α} (htotal : ∀ x y, ahead x y = true ∨ ahead y x = true)
    (htrans : ∀ x y z, ahead x y = true → ahead y z = true → ahead x z = true)
    (hnone : best eligible ahead items = none) : ∀ x ∈ items, eligible x = false := by
  intro x hx
  by_contra heligible
  obtain ⟨y, hy, hyEligible, hahead⟩ :=
    exists_ahead htotal htrans ⟨x, hx, Bool.eq_true_of_not_eq_false heligible⟩
  apply List.find?_eq_none.mp hnone y hy
  rw [Bool.and_eq_true, List.all_eq_true]
  refine ⟨hyEligible, fun z hz => ?_⟩
  cases hzEligible : eligible z with
  | false => rfl
  | true => simp [hahead z hz hzEligible]

/-- The rules of a sweep. -/
structure Rules (α : Type u) (τ : Type v) where
  eligible : α → Bool
  ahead : α → α → Bool
  quantity : α → ℕ
  /-- What is left of an item after a part of its quantity was taken. -/
  reduce : ℕ → α → α
  tag : α → τ

/-- A sweep under way: the items, the open demand and what was taken so far. -/
structure Sweep (α : Type u) where
  items : List α
  demand : ℕ
  fills : List (α × ℕ) := []
  deriving DecidableEq

variable {α : Type u} {τ : Type v} [DecidableEq τ] {rules : Rules α τ}

namespace Rules

/-- Take an item out. -/
def drop (rules : Rules α τ) (x : α) (items : List α) : List α :=
  items.filter fun y => rules.tag y ≠ rules.tag x

/-- Take a part of an item's quantity. -/
def take (rules : Rules α τ) (x : α) (amount : ℕ) (items : List α) : List α :=
  items.map fun y => if rules.tag y = rules.tag x then rules.reduce amount y else y

/-- The item that is served next. -/
def next (rules : Rules α τ) (state : Sweep α) : Option α :=
  if state.demand = 0 then none else best rules.eligible rules.ahead state.items

/-- Serve the demand from one item. -/
def fill (rules : Rules α τ) (x : α) (state : Sweep α) : Sweep α where
  items :=
    if rules.quantity x ≤ state.demand then rules.drop x state.items
    else rules.take x state.demand state.items
  demand := state.demand - rules.quantity x
  fills := state.fills ++ [(x, min state.demand (rules.quantity x))]

omit [DecidableEq τ] in
theorem mem_of_next {state : Sweep α} {x : α} (hnext : rules.next state = some x) :
    x ∈ state.items ∧ rules.eligible x ∧ state.demand ≠ 0 := by
  unfold next at hnext
  split at hnext
  · cases hnext
  · rename_i hdemand
    have hfound := List.find?_some hnext
    rw [Bool.and_eq_true] at hfound
    exact ⟨List.mem_of_find?_eq_some hnext, hfound.1, hdemand⟩

/-- Serving an item leaves less to do. -/
theorem fill_decreases {state : Sweep α} {x : α} (hnext : rules.next state = some x) :
    (rules.fill x state).demand + (rules.fill x state).items.length <
      state.demand + state.items.length := by
  obtain ⟨hmem, _, hdemand⟩ := mem_of_next hnext
  unfold fill
  dsimp only
  split
  · have hlt : (rules.drop x state.items).length < state.items.length := by
      apply List.length_filter_lt_length_iff_exists.mpr
      exact ⟨x, hmem, by simp⟩
    omega
  · simp only [take, List.length_map]
    omega

/-- Serve items until the demand is met or nothing eligible is left. -/
def sweep (rules : Rules α τ) (state : Sweep α) : Sweep α :=
  match _hnext : rules.next state with
  | none => state
  | some x => rules.sweep (rules.fill x state)
termination_by state.demand + state.items.length
decreasing_by exact fill_decreases _hnext

theorem sweep_of_next_eq_none {state : Sweep α} (hnext : rules.next state = none) :
    rules.sweep state = state := by
  rw [sweep]
  split
  · rfl
  · simp_all

theorem sweep_of_next {state : Sweep α} {x : α} (hnext : rules.next state = some x) :
    rules.sweep state = rules.sweep (rules.fill x state) := by
  rw [sweep]
  split
  · simp_all
  · simp_all

/-- What one fill keeps, a sweep keeps. -/
theorem sweep_induction {state : Sweep α} (holds : Sweep α → Prop) (start : holds state)
    (step : ∀ state x, holds state → rules.next state = some x → holds (rules.fill x state)) :
    holds (rules.sweep state) := by
  induction hmeasure : state.demand + state.items.length using Nat.strong_induction_on
    generalizing state with
  | h bound ih =>
      cases hnext : rules.next state with
      | none => rwa [sweep_of_next_eq_none hnext]
      | some x =>
          rw [sweep_of_next hnext]
          exact ih _ (hmeasure ▸ fill_decreases hnext) (step state x start hnext) rfl

/-! ## What becomes of the items

A view is something of an item that taking a part of it does not change. -/

section Views

variable {κ : Type w} {view : α → κ}

/-- Every item that is left was there before, but for the quantity. -/
theorem exists_mem_of_mem_fill (hview : ∀ amount x, view (rules.reduce amount x) = view x)
    {state : Sweep α} {x y : α} (hy : y ∈ (rules.fill x state).items) :
    ∃ z ∈ state.items, view y = view z := by
  unfold fill at hy
  dsimp only at hy
  split at hy
  · exact ⟨y, (List.mem_filter.mp hy).1, rfl⟩
  · obtain ⟨z, hz, rfl⟩ := List.mem_map.mp hy
    refine ⟨z, hz, ?_⟩
    split
    · exact hview _ z
    · rfl

theorem exists_mem_of_mem_sweep (hview : ∀ amount x, view (rules.reduce amount x) = view x)
    {state : Sweep α} {y : α} (hy : y ∈ (rules.sweep state).items) :
    ∃ z ∈ state.items, view y = view z := by
  revert y
  refine sweep_induction
    (fun reached => ∀ {y}, y ∈ reached.items → ∃ z ∈ state.items, view y = view z)
    (fun {y} hy => ⟨y, hy, rfl⟩) ?_
  intro reached x hreached _ y hy
  obtain ⟨z, hz, hyz⟩ := exists_mem_of_mem_fill hview hy
  obtain ⟨start, hstart, hzStart⟩ := hreached hz
  exact ⟨start, hstart, hyz.trans hzStart⟩

/-- Items stay told apart by their tags. -/
theorem nodup_tags_fill (htag : ∀ amount x, rules.tag (rules.reduce amount x) = rules.tag x)
    {state : Sweep α} (hnodup : (state.items.map rules.tag).Nodup) (x : α) :
    ((rules.fill x state).items.map rules.tag).Nodup := by
  unfold fill
  dsimp only
  split
  · exact hnodup.sublist (List.filter_sublist.map _)
  · have hsame : (rules.take x state.demand state.items).map rules.tag =
        state.items.map rules.tag := by
      rw [take, List.map_map]
      apply List.map_congr_left
      intro y _
      simp only [Function.comp_apply]
      split
      · exact htag _ y
      · rfl
    rwa [hsame]

/-- A fill leaves every item in place, or takes the whole of it. -/
theorem mem_or_filled_of_fill (hview : ∀ amount x, view (rules.reduce amount x) = view x)
    {state : Sweep α} (hnodup : (state.items.map rules.tag).Nodup) {x y : α}
    (hx : x ∈ state.items) (hy : y ∈ state.items) :
    (∃ z ∈ (rules.fill x state).items, view z = view y) ∨
      (y, rules.quantity y) ∈ (rules.fill x state).fills := by
  unfold fill
  dsimp only
  by_cases htag : rules.tag y = rules.tag x
  · obtain rfl := List.inj_on_of_nodup_map hnodup hy hx htag
    split
    · rename_i hfilled
      right
      rw [Nat.min_eq_right hfilled]
      simp
    · left
      refine ⟨rules.reduce state.demand y, ?_, hview _ y⟩
      exact List.mem_map.mpr ⟨y, hy, if_pos rfl⟩
  · left
    refine ⟨y, ?_, rfl⟩
    split
    · exact List.mem_filter.mpr ⟨hy, by simpa using htag⟩
    · exact List.mem_map.mpr ⟨y, hy, if_neg htag⟩

/-- A sweep leaves every item in place, or takes what is left of it completely. -/
theorem mem_or_filled_of_sweep (hview : ∀ amount x, view (rules.reduce amount x) = view x)
    (htag : ∀ amount x, rules.tag (rules.reduce amount x) = rules.tag x)
    {state : Sweep α} (hnodup : (state.items.map rules.tag).Nodup) {x : α}
    (hx : x ∈ state.items) :
    (∃ y ∈ (rules.sweep state).items, view y = view x) ∨
      ∃ y, view y = view x ∧ (y, rules.quantity y) ∈ (rules.sweep state).fills := by
  refine (sweep_induction
    (fun reached => (reached.items.map rules.tag).Nodup ∧
      ((∃ y ∈ reached.items, view y = view x) ∨
        ∃ y, view y = view x ∧ (y, rules.quantity y) ∈ reached.fills))
    ⟨hnodup, .inl ⟨x, hx, rfl⟩⟩ ?_).2
  rintro reached served ⟨htags, hreached⟩ hnext
  refine ⟨nodup_tags_fill htag htags served, ?_⟩
  rcases hreached with ⟨y, hy, hview'⟩ | ⟨y, hview', hfilled⟩
  · rcases mem_or_filled_of_fill hview htags (mem_of_next hnext).1 hy with ⟨z, hz, hzy⟩ | hfilled
    · exact .inl ⟨z, hz, hzy.trans hview'⟩
    · exact .inr ⟨y, hview', hfilled⟩
  · exact .inr ⟨y, hview', List.mem_append_left _ hfilled⟩

/-- Fills are taken from items that were there. -/
theorem exists_mem_of_mem_fills (hview : ∀ amount x, view (rules.reduce amount x) = view x)
    {state : Sweep α} (hstart : state.fills = []) {fill : α × ℕ}
    (hfill : fill ∈ (rules.sweep state).fills) :
    ∃ z ∈ state.items, view fill.1 = view z := by
  revert fill
  refine (sweep_induction
    (fun reached => (∀ y ∈ reached.items, ∃ z ∈ state.items, view y = view z) ∧
      ∀ {fill}, fill ∈ reached.fills → ∃ z ∈ state.items, view fill.1 = view z)
    ⟨fun y hy => ⟨y, hy, rfl⟩, by simp [hstart]⟩ ?_).2
  rintro reached served ⟨hitems, hfills⟩ hnext
  refine ⟨fun y hy => ?_, fun {fill} hfill => ?_⟩
  · obtain ⟨z, hz, hyz⟩ := exists_mem_of_mem_fill hview hy
    obtain ⟨start, hstart, hzStart⟩ := hitems z hz
    exact ⟨start, hstart, hyz.trans hzStart⟩
  · rcases List.mem_append.mp hfill with hold | hnew
    · exact hfills hold
    · obtain rfl := List.mem_singleton.mp hnew
      exact hitems served (mem_of_next hnext).1

end Views

/-- A sweep does not add items. -/
theorem length_sweep_le (state : Sweep α) :
    (rules.sweep state).items.length ≤ state.items.length := by
  refine sweep_induction (fun reached => reached.items.length ≤ state.items.length)
    (Nat.le_refl _) ?_
  intro reached x hreached _
  refine Nat.le_trans ?_ hreached
  unfold fill
  dsimp only
  split
  · exact List.length_filter_le _ _
  · exact Nat.le_of_eq (List.length_map _)

theorem demand_sweep_le (state : Sweep α) : (rules.sweep state).demand ≤ state.demand :=
  sweep_induction (fun reached => reached.demand ≤ state.demand) (Nat.le_refl _)
    fun _ _ hreached _ => Nat.le_trans (Nat.sub_le _ _) hreached

/-- A sweep ends with nothing left to do. -/
theorem next_sweep (state : Sweep α) : rules.next (rules.sweep state) = none := by
  induction hmeasure : state.demand + state.items.length using Nat.strong_induction_on
    generalizing state with
  | h bound ih =>
      cases hnext : rules.next state with
      | none => rw [sweep_of_next_eq_none hnext, hnext]
      | some x =>
          rw [sweep_of_next hnext]
          exact ih _ (hmeasure ▸ fill_decreases hnext) _ rfl

end Rules

end Orderbook.Math
