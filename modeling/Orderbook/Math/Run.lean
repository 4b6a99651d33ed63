/-
# Runs of a step that may diverge

A component takes inputs one after another, changes its state and answers each
input. A run over a list of inputs exists when every step ends. The induction
rule establishes that a run exists together with what holds after it: it may use
that the run so far exists, so conditions on the states actually reached can be
taken as hypotheses about runs of prefixes.
-/

import Mathlib.Data.List.Basic
import Mathlib.Data.List.Forall2
import Mathlib.Data.List.Induction

namespace Orderbook.Math

universe u v w

variable {σ : Type u} {ι : Type v} {ο : Type w}

/-- Feed a list of inputs to a step and collect its answers. -/
def runList (step : σ → ι → Option (σ × ο)) : σ → List ι → Option (σ × List ο)
  | state, [] => some (state, [])
  | state, input :: inputs =>
      (step state input).bind fun next =>
        (runList step next.1 inputs).map fun rest => (rest.1, next.2 :: rest.2)

variable {step : σ → ι → Option (σ × ο)}

@[simp]
theorem runList_nil (state : σ) : runList step state [] = some (state, []) := rfl

/-- A run over joined inputs is a run followed by a run. -/
theorem runList_append (state : σ) (past future : List ι) :
    runList step state (past ++ future) =
      (runList step state past).bind fun reached =>
        (runList step reached.1 future).map fun rest =>
          (rest.1, reached.2 ++ rest.2) := by
  induction past generalizing state with
  | nil => simp
  | cons input inputs ih =>
      simp only [List.cons_append, runList]
      cases step state input with
      | none => rfl
      | some next =>
          simp only [Option.bind_some, ih]
          cases runList step next.1 inputs with
          | none => rfl
          | some reached =>
              simp only [Option.bind_some, Option.map_some, Option.map_map]
              congr

/-- One more input is one more step. -/
theorem runList_snoc_of_step {state reached next : σ} {past : List ι} {answers : List ο}
    {input : ι} {answer : ο} (hpast : runList step state past = some (reached, answers))
    (hstep : step reached input = some (next, answer)) :
    runList step state (past ++ [input]) = some (next, answers ++ [answer]) := by
  simp [runList_append, hpast, runList, hstep]

/-- A run that took one more input took it in one step. -/
theorem exists_step_of_runList_snoc {state next : σ} {past : List ι} {answers : List ο}
    {input : ι} (hrun : runList step state (past ++ [input]) = some (next, answers)) :
    ∃ reached earlier answer, runList step state past = some (reached, earlier) ∧
      step reached input = some (next, answer) ∧ answers = earlier ++ [answer] := by
  rw [runList_append] at hrun
  cases hpast : runList step state past with
  | none => simp [hpast] at hrun
  | some reached =>
      cases hstep : step reached.1 input with
      | none => simp [hpast, runList, hstep] at hrun
      | some answered =>
          simp only [hpast, runList, hstep, Option.bind_some, Option.map_some,
            Option.some.injEq, Prod.mk.injEq] at hrun
          exact ⟨reached.1, reached.2, answered.2, rfl, hrun.1 ▸ hstep, hrun.2.symm⟩

/-- A run has one answer for each input. -/
theorem length_of_runList {state reached : σ} {inputs : List ι} {answers : List ο}
    (hrun : runList step state inputs = some (reached, answers)) :
    answers.length = inputs.length := by
  induction inputs using List.reverseRecOn generalizing reached answers with
  | nil =>
      simp only [runList_nil, Option.some.injEq, Prod.mk.injEq] at hrun
      simp [← hrun.2]
  | append_singleton past input ih =>
      obtain ⟨_, earlier, _, hpast, _, rfl⟩ := exists_step_of_runList_snoc hrun
      simp [ih hpast]

/-- What every step keeps holds after a run. -/
theorem keeps_of_runList (invariant : σ → Prop)
    (advance : ∀ state input next answer, invariant state →
      step state input = some (next, answer) → invariant next)
    {state reached : σ} {inputs : List ι} {answers : List ο} (hstart : invariant state)
    (hrun : runList step state inputs = some (reached, answers)) : invariant reached := by
  induction inputs using List.reverseRecOn generalizing reached answers with
  | nil =>
      cases hrun
      exact hstart
  | append_singleton past input ih =>
      obtain ⟨_, _, _, hpast, hstep, _⟩ := exists_step_of_runList_snoc hrun
      exact advance _ _ _ _ (ih hpast) hstep

/-- The induction rule of runs. Every step has to end; what holds after it may
be concluded from the run that contains it. -/
theorem runList_induction {state : σ} {inputs : List ι}
    (holds : List ι → σ → List ο → Prop) (start : holds [] state [])
    (advance : ∀ past input reached answers, past ++ [input] <+: inputs →
      runList step state past = some (reached, answers) → holds past reached answers →
      ∃ next answer, step reached input = some (next, answer) ∧
        (runList step state (past ++ [input]) = some (next, answers ++ [answer]) →
          holds (past ++ [input]) next (answers ++ [answer]))) :
    ∃ reached answers, runList step state inputs = some (reached, answers) ∧
      holds inputs reached answers := by
  suffices hprefix : ∀ past, past <+: inputs →
      ∃ reached answers, runList step state past = some (reached, answers) ∧
        holds past reached answers from hprefix inputs (List.prefix_refl inputs)
  intro past
  induction past using List.reverseRecOn with
  | nil => exact fun _ => ⟨state, [], rfl, start⟩
  | append_singleton past input ih =>
      intro hprefix
      obtain ⟨reached, answers, hrun, hholds⟩ :=
        ih ((List.prefix_append past [input]).trans hprefix)
      obtain ⟨next, answer, hstep, hnext⟩ :=
        advance past input reached answers hprefix hrun hholds
      have hrun' := runList_snoc_of_step hrun hstep
      exact ⟨next, answers ++ [answer], hrun', hnext hrun'⟩

/-- One pass of a loop: the next state, the answers given and whether the loop
ends here. -/
structure Pass (σ : Type u) (ο : Type w) where
  state : σ
  answers : List ο := []
  finished : Bool := false

/-- Take inputs one after another until the loop ends itself or the inputs do. -/
def runUntil (body : σ → ι → Pass σ ο) : σ → List ι → σ × List ο
  | state, [] => (state, [])
  | state, input :: inputs =>
      let pass := body state input
      if pass.finished then (pass.state, pass.answers)
      else
        let rest := runUntil body pass.state inputs
        (rest.1, pass.answers ++ rest.2)

theorem runUntil_of_finished {body : σ → ι → Pass σ ο} {state : σ} {input : ι}
    (hfinished : (body state input).finished = true) (inputs : List ι) :
    runUntil body state (input :: inputs) =
      ((body state input).state, (body state input).answers) :=
  if_pos hfinished

theorem runUntil_of_open {body : σ → ι → Pass σ ο} {state : σ} {input : ι}
    (hopen : (body state input).finished = false) (inputs : List ι) :
    runUntil body state (input :: inputs) =
      ((runUntil body (body state input).state inputs).1,
        (body state input).answers ++ (runUntil body (body state input).state inputs).2) :=
  if_neg (by rw [hopen]; exact Bool.false_ne_true)

theorem runUntil_singleton (body : σ → ι → Pass σ ο) (state : σ) (input : ι) :
    runUntil body state [input] = ((body state input).state, (body state input).answers) := by
  cases hfinished : (body state input).finished with
  | true => exact runUntil_of_finished hfinished []
  | false =>
      rw [runUntil_of_open hfinished, runUntil, List.append_nil]

/-- The answers of the first pass are among those of the loop. -/
theorem answers_subset_runUntil (body : σ → ι → Pass σ ο) (state : σ) (input : ι)
    (inputs : List ι) :
    (body state input).answers ⊆ (runUntil body state (input :: inputs)).2 := by
  cases hfinished : (body state input).finished with
  | true =>
      rw [runUntil_of_finished hfinished]
      exact List.Subset.refl _
  | false =>
      rw [runUntil_of_open hfinished]
      exact List.subset_append_left _ _

/-- What every pass keeps between the inputs taken, the state and the answers
given, the loop keeps. -/
theorem runUntil_invariant {body : σ → ι → Pass σ ο} (kept : List ι → σ → List ο → Prop)
    {state : σ} {inputs : List ι} (hstart : kept [] state [])
    (hstep : ∀ past state answers input, past ++ [input] <+: inputs → kept past state answers →
      kept (past ++ [input]) (body state input).state
        (answers ++ (body state input).answers)) :
    ∃ past, past <+: inputs ∧
      kept past (runUntil body state inputs).1 (runUntil body state inputs).2 := by
  have hfrom : ∀ rest past state answers, past ++ rest = inputs → kept past state answers →
      ∃ past, past <+: inputs ∧ kept past (runUntil body state rest).1
        (answers ++ (runUntil body state rest).2) := by
    intro rest
    induction rest with
    | nil =>
        intro past state answers hinputs hkept
        refine ⟨past, ⟨[], hinputs⟩, ?_⟩
        rwa [runUntil, List.append_nil]
    | cons input rest ih =>
        intro past state answers hinputs hkept
        rw [List.append_cons] at hinputs
        have hpass := hstep past state answers input ⟨rest, hinputs⟩ hkept
        unfold runUntil
        dsimp only
        split
        · exact ⟨past ++ [input], ⟨rest, hinputs⟩, hpass⟩
        · obtain ⟨taken, htaken, hrest⟩ := ih _ _ _ hinputs hpass
          rw [List.append_assoc] at hrest
          exact ⟨taken, htaken, hrest⟩
  exact hfrom inputs [] state [] rfl hstart

/-- What every pass preserves, the rest of the loop preserves. -/
theorem runUntil_prefix {body : σ → ι → Pass σ ο} {related : σ → σ → Prop}
    (hrefl : ∀ state, related state state)
    (htrans : ∀ first second third, related first second → related second third →
      related first third) {past inputs : List ι} (hpast : past <+: inputs)
    (hstep : ∀ state, ∀ input ∈ inputs, related state (body state input).state) (state : σ) :
    related (runUntil body state past).1 (runUntil body state inputs).1 := by
  induction inputs generalizing past state with
  | nil =>
      rw [List.prefix_nil.mp hpast]
      exact hrefl _
  | cons input inputs ih =>
      have hrest : ∀ state, ∀ other ∈ inputs, related state (body state other).state :=
        fun state other hother => hstep state other (List.mem_cons_of_mem _ hother)
      cases past with
      | nil =>
          unfold runUntil
          dsimp only
          split
          · exact hstep state input List.mem_cons_self
          · exact htrans _ _ _ (hstep state input List.mem_cons_self)
              (ih List.nil_prefix hrest _)
      | cons other past =>
          obtain ⟨rfl, htail⟩ := List.cons_prefix_cons.mp hpast
          unfold runUntil
          dsimp only
          split
          · exact hrefl _
          · exact ih htail hrest _

/-- A loop over inputs that are made from others. -/
theorem runUntil_map {κ : Type*} (body : σ → ι → Pass σ ο) (make : κ → ι) (state : σ)
    (inputs : List κ) :
    runUntil body state (inputs.map make) =
      runUntil (fun state input => body state (make input)) state inputs := by
  induction inputs generalizing state with
  | nil => rfl
  | cons input inputs ih =>
      rw [List.map_cons]
      unfold runUntil
      dsimp only
      rw [ih]

/-- The inputs that a loop takes before it ends. -/
def taken (body : σ → ι → Pass σ ο) : σ → List ι → List ι
  | _, [] => []
  | state, input :: inputs =>
      let pass := body state input
      input :: if pass.finished then [] else taken body pass.state inputs

/-- With fewer inputs a loop takes fewer. -/
theorem taken_mono (body : σ → ι → Pass σ ο) (state : σ) {past inputs : List ι}
    (hpast : past <+: inputs) : taken body state past <+: taken body state inputs := by
  induction past generalizing state inputs with
  | nil => exact List.nil_prefix
  | cons input past ih =>
      obtain ⟨future, rfl⟩ := hpast
      rw [List.cons_append]
      unfold taken
      dsimp only
      rw [List.cons_prefix_cons]
      refine ⟨rfl, ?_⟩
      split
      · exact List.prefix_refl _
      · exact ih _ (List.prefix_append past future)

/-- Two loops side by side. The second one does not get some of the inputs of the
first, and those must leave the first where it is; on the others the two must do
the same. -/
theorem runUntil_filterMap {κ : Type*} {σ' : Type*} {ι' : Type*} {ο' : Type*}
    {body : σ → ι → Pass σ ο} {body' : σ' → ι' → Pass σ' ο'} {first : κ → ι}
    {second : κ → Option ι'} (related : σ → σ' → Prop) {answered : ο → ο' → Prop}
    (hskip : ∀ input state state', second input = none → related state state' →
        (body state (first input)).finished = false ∧
          (body state (first input)).answers = [] ∧
          related (body state (first input)).state state')
    (hboth : ∀ input input' state state', second input = some input' →
      related state state' →
        (body state (first input)).finished = (body' state' input').finished ∧
          List.Forall₂ answered (body state (first input)).answers
            (body' state' input').answers ∧
          related (body state (first input)).state (body' state' input').state)
    {state : σ} {state' : σ'} (hrelated : related state state') (inputs : List κ) :
    related (runUntil body state (inputs.map first)).1
        (runUntil body' state' (inputs.filterMap second)).1 ∧
      List.Forall₂ answered (runUntil body state (inputs.map first)).2
        (runUntil body' state' (inputs.filterMap second)).2 := by
  induction inputs generalizing state state' with
  | nil => exact ⟨hrelated, .nil⟩
  | cons input inputs ih =>
      cases hsecond : second input with
      | none =>
          obtain ⟨hopen, hsilent, hnext⟩ := hskip input state state' hsecond hrelated
          rw [List.map_cons, List.filterMap_cons_none hsecond, runUntil_of_open hopen, hsilent]
          exact ih hnext
      | some input' =>
          obtain ⟨hsame, hanswers, hnext⟩ := hboth input input' state state' hsecond hrelated
          rw [List.map_cons, List.filterMap_cons_some hsecond]
          cases hfinished : (body state (first input)).finished with
          | true =>
              rw [runUntil_of_finished hfinished,
                runUntil_of_finished (hsame.symm.trans hfinished)]
              exact ⟨hnext, hanswers⟩
          | false =>
              rw [runUntil_of_open hfinished, runUntil_of_open (hsame.symm.trans hfinished)]
              obtain ⟨hlast, hrest⟩ := ih hnext
              exact ⟨hlast, List.rel_append hanswers hrest⟩

/-- The entries of a list that a mask selects. -/
def select {α : Type u} : List Bool → List α → List α
  | keep :: mask, x :: xs => if keep then x :: select mask xs else select mask xs
  | _, _ => []

theorem select_sublist {α : Type u} (mask : List Bool) (xs : List α) :
    (select mask xs).Sublist xs := by
  induction mask generalizing xs with
  | nil => exact List.nil_sublist _
  | cons keep mask ih =>
      cases xs with
      | nil => exact List.nil_sublist _
      | cons x xs =>
          unfold select
          split
          · exact (ih xs).cons_cons x
          · exact (ih xs).cons x

theorem select_map {α : Type u} {β : Type v} (f : α → β) (mask : List Bool) (xs : List α) :
    select mask (xs.map f) = (select mask xs).map f := by
  induction mask generalizing xs with
  | nil => rfl
  | cons keep mask ih =>
      cases xs with
      | nil => rfl
      | cons x xs =>
          simp only [List.map_cons, select, ih]
          split <;> rfl

/-- Entries related one by one stay related when the same ones are selected. -/
theorem forall₂_select {α : Type u} {β : Type v} {related : α → β → Prop} {xs : List α}
    {ys : List β} (hrelated : List.Forall₂ related xs ys) (mask : List Bool) :
    List.Forall₂ related (select mask xs) (select mask ys) := by
  induction hrelated generalizing mask with
  | nil => cases mask <;> exact .nil
  | cons hhead _ ih =>
      cases mask with
      | nil => exact .nil
      | cons keep mask =>
          unfold select
          split
          · exact .cons hhead (ih mask)
          · exact ih mask

end Orderbook.Math
