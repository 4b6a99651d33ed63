/-
# Labelled arrivals

Items arrive one after another, each with a label, and leave in any order. The
items that share a selection of labels form a queue: the sublist of those still
present, in order of arrival. Every map from labels to queues is a view of the
one list of arrivals.
-/

import Mathlib.Data.List.Basic
import Mathlib.Data.List.Nodup

namespace Orderbook.Math

universe u v

variable {κ : Type u} {ι : Type v}

/-- The items present under the selected labels, in order of arrival. -/
def queueOf (select : κ → Bool) (arrivals : List (κ × ι)) : List ι :=
  (arrivals.filter fun arrival => select arrival.1).map Prod.snd

variable {select other : κ → Bool} {arrivals : List (κ × ι)} {label : κ} {item : ι}

@[simp]
theorem queueOf_nil : queueOf select ([] : List (κ × ι)) = [] := rfl

theorem mem_queueOf :
    item ∈ queueOf select arrivals ↔ ∃ label, (label, item) ∈ arrivals ∧ select label := by
  simp [queueOf]

/-- A queue is empty exactly when no arrival has a selected label. -/
theorem queueOf_eq_nil_iff :
    queueOf select arrivals = [] ↔ ∀ arrival ∈ arrivals, ¬ select arrival.1 := by
  simp [queueOf]

/-- The first item of a queue is the first arrival with a selected label. -/
theorem find?_of_queueOf_eq_cons {rest : List ι}
    (hqueue : queueOf select arrivals = item :: rest) :
    ∃ label, select label ∧
      arrivals.find? (fun arrival => select arrival.1) = some (label, item) := by
  unfold queueOf at hqueue
  rw [← List.head?_filter]
  cases hfilter : arrivals.filter (fun arrival => select arrival.1) with
  | nil => simp [hfilter] at hqueue
  | cons first others =>
      have hfirst : first ∈ arrivals.filter fun arrival => select arrival.1 :=
        hfilter ▸ List.mem_cons_self
      rw [hfilter, List.map_cons] at hqueue
      obtain ⟨rfl, _⟩ := List.cons.inj hqueue
      exact ⟨first.1, (List.mem_filter.mp hfirst).2, rfl⟩

/-- A new arrival goes to the end of the queues of its label. -/
theorem queueOf_snoc_of_selected (hlabel : select label) :
    queueOf select (arrivals ++ [(label, item)]) = queueOf select arrivals ++ [item] := by
  simp [queueOf, hlabel]

theorem queueOf_snoc_of_not_selected (hlabel : ¬ select label) :
    queueOf select (arrivals ++ [(label, item)]) = queueOf select arrivals := by
  simp [queueOf, hlabel]

/-- An item that leaves leaves every queue. -/
theorem queueOf_leave [DecidableEq ι] (select : κ → Bool) (arrivals : List (κ × ι)) (item : ι) :
    queueOf select (arrivals.filter fun arrival => arrival.2 ≠ item) =
      (queueOf select arrivals).filter (· ≠ item) := by
  unfold queueOf
  rw [List.filter_map, List.filter_filter, List.filter_filter]
  congr 2
  funext arrival
  exact Bool.and_comm _ _

/-- Selections that agree on the labels present select the same queue. -/
theorem queueOf_congr (hagree : ∀ arrival ∈ arrivals, select arrival.1 = other arrival.1) :
    queueOf select arrivals = queueOf other arrivals := by
  unfold queueOf
  rw [List.filter_congr hagree]

/-- Queues of distinct items have no duplicates. -/
theorem nodup_queueOf (hnodup : (arrivals.map Prod.snd).Nodup) :
    (queueOf select arrivals).Nodup :=
  hnodup.sublist (List.filter_sublist.map _)

/-- An item that is present once has one label. -/
theorem label_unique {first second : κ} (hnodup : (arrivals.map Prod.snd).Nodup)
    (hfirst : (first, item) ∈ arrivals) (hsecond : (second, item) ∈ arrivals) :
    first = second :=
  congrArg Prod.fst (List.inj_on_of_nodup_map hnodup hfirst hsecond rfl)

/-- An item is not in two queues without a common label. -/
theorem notMem_queueOf_of_disjoint (hnodup : (arrivals.map Prod.snd).Nodup)
    (hdisjoint : ∀ label, select label → ¬ other label)
    (hitem : item ∈ queueOf select arrivals) : item ∉ queueOf other arrivals := by
  intro hother
  obtain ⟨first, hfirst, hselect⟩ := mem_queueOf.mp hitem
  obtain ⟨second, hsecond, hotherSelect⟩ := mem_queueOf.mp hother
  cases label_unique hnodup hfirst hsecond
  exact hdisjoint first hselect hotherSelect

/-- An item that is not in a queue may leave without changing it. -/
theorem queueOf_leave_of_notMem [DecidableEq ι] (hitem : item ∉ queueOf select arrivals) :
    queueOf select (arrivals.filter fun arrival => arrival.2 ≠ item) =
      queueOf select arrivals := by
  rw [queueOf_leave, List.filter_eq_self]
  intro present hpresent
  have hne : present ≠ item := by
    rintro rfl
    exact hitem hpresent
  simpa using hne

/-! ## Queues side by side

A family of selections that share no label splits the arrivals into queues. -/

section Split

variable {family : List (κ → Bool)}

/-- No label is selected twice. -/
def Separate (family : List (κ → Bool)) : Prop :=
  family.Pairwise fun select other => ∀ label, select label = true → other label = false

/-- Side by side, the queues of a separate family hold every covered arrival
once. -/
theorem perm_flatMap_queueOf (hseparate : Separate family)
    (hcover : ∀ arrival ∈ arrivals, ∃ select ∈ family, select arrival.1 = true)
    (hnodup : (arrivals.map Prod.snd).Nodup) :
    (family.flatMap fun select => queueOf select arrivals).Perm (arrivals.map Prod.snd) := by
  rw [List.perm_ext_iff_of_nodup _ hnodup]
  · intro item
    rw [List.mem_flatMap, List.mem_map]
    constructor
    · rintro ⟨select, _, hitem⟩
      obtain ⟨label, hmem, _⟩ := mem_queueOf.mp hitem
      exact ⟨_, hmem, rfl⟩
    · rintro ⟨arrival, hmem, rfl⟩
      obtain ⟨select, hselect, hlabel⟩ := hcover arrival hmem
      exact ⟨select, hselect, mem_queueOf.mpr ⟨arrival.1, hmem, hlabel⟩⟩
  · rw [List.nodup_flatMap]
    refine ⟨fun _ _ => nodup_queueOf hnodup, hseparate.imp ?_⟩
    intro select other hdisjoint item hitem hother
    obtain ⟨label, hmem, hlabel⟩ := mem_queueOf.mp hitem
    obtain ⟨label', hmem', hlabel'⟩ := mem_queueOf.mp hother
    rw [label_unique hnodup hmem hmem'] at hlabel
    rw [hdisjoint label' hlabel] at hlabel'
    cases hlabel'

/-- What of a queue has a given label: the whole queue of the label, or nothing. -/
theorem filter_queueOf [DecidableEq κ] {here : ι → Bool}
    (hhere : ∀ arrival ∈ arrivals, here arrival.2 = decide (arrival.1 = label)) :
    (queueOf select arrivals).filter here =
      if select label then queueOf (fun other => decide (other = label)) arrivals else [] := by
  have hfilter : (queueOf select arrivals).filter here =
      queueOf (fun other => decide (other = label) && select other) arrivals := by
    unfold queueOf
    rw [List.filter_map, List.filter_filter]
    congr 1
    apply List.filter_congr
    intro arrival hmem
    rw [Function.comp_apply, hhere arrival hmem]
  rw [hfilter]
  split
  · rename_i hselect
    apply queueOf_congr
    intro arrival _
    by_cases heq : arrival.1 = label
    · simp [heq, hselect]
    · simp [heq]
  · rename_i hselect
    rw [queueOf_eq_nil_iff]
    intro arrival _ hboth
    rw [Bool.and_eq_true, decide_eq_true_eq] at hboth
    exact hselect (hboth.1 ▸ hboth.2)

/-- At most one member of a separate family selects a label. -/
theorem flatMap_ite_of_separate (hseparate : Separate family) (queue : List ι) :
    (family.flatMap fun select => if select label then queue else []) =
      if family.any fun select => select label then queue else [] := by
  induction family with
  | nil => rfl
  | cons select rest ih =>
      obtain ⟨hfirst, hrest⟩ := List.pairwise_cons.mp hseparate
      rw [List.flatMap_cons, List.any_cons, ih hrest]
      by_cases hselect : select label = true
      · have hnone : (rest.any fun select => select label) = false := by
          rw [List.any_eq_false]
          intro other hother
          rw [hfirst other hother label hselect]
          exact Bool.false_ne_true
        simp [hselect, hnone]
      · simp [hselect]

/-- Side by side, the queues of a separate family keep the order of the arrivals
with one label. -/
theorem filter_flatMap_queueOf [DecidableEq κ] (hseparate : Separate family)
    (hcover : ∀ arrival ∈ arrivals, ∃ select ∈ family, select arrival.1 = true)
    {here : ι → Bool} (hhere : ∀ arrival ∈ arrivals, here arrival.2 = decide (arrival.1 = label)) :
    (family.flatMap fun select => queueOf select arrivals).filter here =
      queueOf (fun other => decide (other = label)) arrivals := by
  rw [List.filter_flatMap]
  simp only [filter_queueOf hhere]
  rw [flatMap_ite_of_separate hseparate]
  split
  · rfl
  · rename_i hselected
    symm
    rw [queueOf_eq_nil_iff]
    intro arrival hmem heq
    obtain ⟨select, hselect, hlabel⟩ := hcover arrival hmem
    rw [of_decide_eq_true heq] at hlabel
    exact hselected (List.any_eq_true.mpr ⟨select, hselect, hlabel⟩)

end Split

end Orderbook.Math
