/-
# Loops that may diverge

A source loop is a body applied until it leaves. Whether it leaves at all is
part of what has to be proved, so the loop is a least fixed point in `Option`:
`none` means that the loop runs forever, and a result exists only when some
finite number of passes produced it. No fuel appears in a model that uses this
combinator.

The rules below are the whole interface. A pass either leaves or continues, and
the total rule turns an invariant with a decreasing measure into termination.
-/

import Mathlib.Data.Nat.Basic

namespace Orderbook.Math

universe u v

variable {σ : Type u} {ρ : Type v}

/-- A loop, given by one pass over its state: the pass continues or leaves. -/
structure Loop (σ : Type u) (ρ : Type v) where
  pass : σ → Option (σ ⊕ ρ)

/-- Repeat the pass until it leaves with a result. `none` is divergence, either of
a single pass or of the loop itself. -/
def Loop.run (loop : Loop σ ρ) (state : σ) : Option ρ :=
  match loop.pass state with
  | none => none
  | some (.inl next) => loop |>.run next
  | some (.inr result) => some result
partial_fixpoint

/-- The loop with the given body. -/
def iterate (body : σ → Option (σ ⊕ ρ)) (state : σ) : Option ρ := Loop.run ⟨body⟩ state

theorem iterate_eq (body : σ → Option (σ ⊕ ρ)) (state : σ) :
    iterate body state =
      match body state with
      | none => none
      | some (.inl next) => iterate body next
      | some (.inr result) => some result := by
  rw [iterate, Loop.run]
  rfl

/-- A pass that leaves ends the loop with its result. -/
theorem iterate_of_leave {body : σ → Option (σ ⊕ ρ)} {state : σ} {result : ρ}
    (hleave : body state = some (.inr result)) :
    iterate body state = some result := by
  rw [iterate_eq, hleave]

/-- A pass that continues hands the loop to its new state. -/
theorem iterate_of_continue {body : σ → Option (σ ⊕ ρ)} {state next : σ}
    (hcontinue : body state = some (.inl next)) :
    iterate body state = iterate body next := by
  rw [iterate_eq, hcontinue]

/-- A pass that diverges never lets the loop end. -/
theorem iterate_of_none {body : σ → Option (σ ⊕ ρ)} {state : σ} (hnone : body state = none) :
    iterate body state = none := by
  rw [iterate_eq, hnone]

/-- The total rule: an invariant that every pass keeps while a measure falls,
and that yields the postcondition whenever a pass leaves, makes the loop end. -/
theorem iterate_total {body : σ → Option (σ ⊕ ρ)} (invariant : σ → Prop)
    (post : ρ → Prop) (measure : σ → ℕ)
    (pass : ∀ state, invariant state →
      (∃ next, body state = some (.inl next) ∧ invariant next ∧
        measure next < measure state) ∨
      ∃ result, body state = some (.inr result) ∧ post result)
    (state : σ) (hstate : invariant state) :
    ∃ result, iterate body state = some result ∧ post result := by
  induction hmeasure : measure state using Nat.strong_induction_on generalizing state with
  | h bound ih =>
      rcases pass state hstate with
        ⟨next, hcontinue, hnext, hless⟩ | ⟨result, hleave, hpost⟩
      · rw [iterate_of_continue hcontinue]
        exact ih (measure next) (hmeasure ▸ hless) next hnext rfl
      · exact ⟨result, iterate_of_leave hleave, hpost⟩

/-- A relation between states and results that the passes build up from the last
one holds of every loop that ends. -/
theorem relates_of_iterate {body : σ → Option (σ ⊕ ρ)} (related : σ → ρ → Prop)
    (leave : ∀ state result, body state = some (.inr result) → related state result)
    (pass : ∀ state next result, body state = some (.inl next) → related next result →
      related state result)
    {state : σ} {result : ρ} (hresult : iterate body state = some result) :
    related state result := by
  apply Loop.run.partial_correctness ⟨body⟩ related _ state result hresult
  intro loop hloop state result hpass
  dsimp only at hpass
  cases hbody : body state with
  | none => simp [hbody] at hpass
  | some answer =>
      cases answer with
      | inl next =>
          rw [hbody] at hpass
          exact pass state next result hbody (hloop next result hpass)
      | inr last =>
          rw [hbody] at hpass
          cases hpass
          exact leave state result hbody

/-- The states that a loop passes through. -/
inductive Visits (body : σ → Option (σ ⊕ ρ)) (start : σ) : σ → Prop
  | start : Visits body start start
  | next {state later : σ} (earlier : Visits body start state)
      (hcontinue : body state = some (.inl later)) : Visits body start later

/-- What every pass keeps holds of all states that the loop passes through. -/
theorem Visits.keeps {body : σ → Option (σ ⊕ ρ)} {start state : σ}
    (hvisits : Visits body start state) (invariant : σ → Prop)
    (pass : ∀ state next, invariant state → body state = some (.inl next) → invariant next)
    (hstart : invariant start) : invariant state := by
  induction hvisits with
  | start => exact hstart
  | next _ hcontinue ih => exact pass _ _ ih hcontinue

/-- A loop that ends leaves from a state that it passed through. -/
theorem exists_visits_of_iterate {body : σ → Option (σ ⊕ ρ)} {state : σ} {result : ρ}
    (hresult : iterate body state = some result) :
    ∃ last, Visits body state last ∧ body last = some (.inr result) := by
  have hfrom : ∀ start, Visits body start state →
      ∃ last, Visits body start last ∧ body last = some (.inr result) := by
    refine relates_of_iterate (fun state result => ∀ start, Visits body start state →
      ∃ last, Visits body start last ∧ body last = some (.inr result)) ?_ ?_ hresult
    · intro state result hleave start hvisits
      exact ⟨state, hvisits, hleave⟩
    · intro state next result hcontinue hlater start hvisits
      exact hlater start (hvisits.next hcontinue)
  exact hfrom state .start

/-- A `while` loop: the body runs as long as the test holds, and the loop
returns the state in which the test first failed. -/
def loopWhile (test : σ → Bool) (body : σ → Option σ) (state : σ) : Option σ :=
  iterate (fun current =>
    if test current then (body current).map Sum.inl else some (.inr current)) state

theorem loopWhile_of_false {test : σ → Bool} {body : σ → Option σ} {state : σ}
    (htest : test state = false) : loopWhile test body state = some state := by
  apply iterate_of_leave
  rw [htest, if_neg Bool.false_ne_true]

theorem loopWhile_of_true {test : σ → Bool} {body : σ → Option σ} {state next : σ}
    (htest : test state = true) (hbody : body state = some next) :
    loopWhile test body state = loopWhile test body next := by
  apply iterate_of_continue
  rw [htest, if_pos rfl, hbody, Option.map_some]

/-- The total rule for `while` loops. The result satisfies the invariant and fails
the test. -/
theorem loopWhile_total {test : σ → Bool} {body : σ → Option σ} (invariant : σ → Prop)
    (measure : σ → ℕ)
    (pass : ∀ state, invariant state → test state = true →
      ∃ next, body state = some next ∧ invariant next ∧ measure next < measure state)
    (state : σ) (hstate : invariant state) :
    ∃ result, loopWhile test body state = some result ∧
      invariant result ∧ test result = false := by
  apply iterate_total invariant (fun result => invariant result ∧ test result = false) measure
  · intro current hcurrent
    cases htest : test current with
    | true =>
        obtain ⟨next, hbody, hnext, hless⟩ := pass current hcurrent htest
        exact .inl ⟨next, by simp [hbody], hnext, hless⟩
    | false => exact .inr ⟨current, by simp, hcurrent, htest⟩
  · exact hstate

/-- What every pass keeps holds where a `while` loop ends, and the test fails there. -/
theorem keeps_of_loopWhile {test : σ → Bool} {body : σ → Option σ} (invariant : σ → Prop)
    (pass : ∀ state next, invariant state → test state = true → body state = some next →
      invariant next)
    {start result : σ} (hstart : invariant start)
    (hresult : loopWhile test body start = some result) :
    invariant result ∧ test result = false := by
  obtain ⟨last, hvisits, hleave⟩ := exists_visits_of_iterate hresult
  have hlast : invariant last := by
    refine hvisits.keeps invariant (fun state next hstate hcontinue => ?_) hstart
    split at hcontinue
    case isTrue htest =>
      obtain ⟨other, hbody, hother⟩ := Option.map_eq_some_iff.mp hcontinue
      cases hother
      exact pass state next hstate htest hbody
    case isFalse => cases hcontinue
  split at hleave
  case isTrue =>
    obtain ⟨other, _, hother⟩ := Option.map_eq_some_iff.mp hleave
    cases hother
  case isFalse htest =>
    cases hleave
    exact ⟨hlast, Bool.eq_false_iff.mpr htest⟩

/-- What no pass changes, a `while` loop does not change. -/
theorem eq_of_loopWhile {τ : Type*} {test : σ → Bool} {body : σ → Option σ} (view : σ → τ)
    (pass : ∀ state next, body state = some next → view next = view state)
    {state result : σ} (hresult : loopWhile test body state = some result) :
    view result = view state := by
  refine relates_of_iterate (fun state result => view result = view state) ?_ ?_ hresult
  · intro state result hleave
    split at hleave
    · cases hbody : body state <;> simp [hbody] at hleave
    · cases hleave
      rfl
  · intro state next result hcontinue hnext
    split at hcontinue
    · cases hbody : body state with
      | none => simp [hbody] at hcontinue
      | some other =>
          simp only [hbody, Option.map_some, Option.some.injEq, Sum.inl.injEq] at hcontinue
          exact hnext.trans (pass state next (hcontinue ▸ hbody))
    · cases hcontinue

end Orderbook.Math
