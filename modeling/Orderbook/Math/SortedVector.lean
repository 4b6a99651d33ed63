/-
# Sorted association vectors

A vector of entries sorted strictly by key is searched for the first entry whose
key is not smaller. The search cuts the vector in two. Every edit at the cut is
an edit between the two halves, so a client works with the halves and never with
positions.
-/

import Mathlib.Data.List.Basic
import Mathlib.Data.List.TakeWhile
import Mathlib.Tactic.Set

namespace Orderbook.Math

universe u v

variable {κ : Type u} {ν : Type v}

section Edits

variable {α : Type u} (front back : List α) (entry : α)

@[simp]
theorem getD_cut (fallback : α) : (front ++ entry :: back).getD front.length fallback = entry := by
  simp

@[simp]
theorem eraseIdx_cut : (front ++ entry :: back).eraseIdx front.length = front ++ back := by
  rw [List.eraseIdx_append_of_length_le (Nat.le_refl _)]
  simp

@[simp]
theorem modify_cut (write : α → α) :
    (front ++ entry :: back).modify front.length write = front ++ write entry :: back := by
  rw [List.modify_eq_take_cons_drop (by simp)]
  simp

@[simp]
theorem insertIdx_cut : (front ++ back).insertIdx front.length entry = front ++ entry :: back := by
  induction front with
  | nil => simp
  | cons first rest ih => simp [ih]

end Edits

section Search

variable [LT κ] [DecidableLT κ]

/-- Strictly ascending keys. -/
def Ascending (entries : List (κ × ν)) : Prop := entries.Pairwise fun x y => x.1 < y.1

/-- The first position whose key is not below `key`. -/
def lowerBound (key : κ) (entries : List (κ × ν)) : ℕ :=
  (entries.takeWhile fun entry => entry.1 < key).length

/-- The halves around a key: everything before the cut is below it and
everything after is above. -/
structure Cut (key : κ) (front back : List (κ × ν)) : Prop where
  below : ∀ entry ∈ front, entry.1 < key
  above : ∀ entry ∈ back, key < entry.1

omit [DecidableLT κ] in
/-- The halves of a sorted vector around one of its entries. -/
theorem Ascending.cut {front back : List (κ × ν)} {key : κ} {value : ν}
    (hsorted : Ascending (front ++ (key, value) :: back)) : Cut key front back := by
  obtain ⟨_, hback, hcross⟩ := List.pairwise_append.mp hsorted
  refine ⟨fun entry hentry => ?_, fun entry hentry => ?_⟩
  · exact hcross entry hentry (key, value) List.mem_cons_self
  · exact (List.pairwise_cons.mp hback).1 entry hentry

omit [DecidableLT κ] in
/-- Dropping the entry at the cut keeps the vector sorted. -/
theorem Ascending.erase {front back : List (κ × ν)} {key : κ} {value : ν}
    (hsorted : Ascending (front ++ (key, value) :: back)) : Ascending (front ++ back) :=
  hsorted.sublist ((List.Sublist.refl front).append (List.sublist_cons_self _ back))

omit [DecidableLT κ] in
/-- Replacing the value at the cut keeps the vector sorted. -/
theorem Ascending.replace {front back : List (κ × ν)} {key : κ} {value value' : ν}
    (hsorted : Ascending (front ++ (key, value) :: back)) :
    Ascending (front ++ (key, value') :: back) := by
  unfold Ascending at *
  simpa [List.pairwise_append] using hsorted

omit [DecidableLT κ] in
/-- Inserting at the cut keeps the vector sorted. -/
theorem Ascending.insert {front back : List (κ × ν)} {key : κ} (value : ν)
    (hsorted : Ascending (front ++ back)) (hcut : Cut key front back) :
    Ascending (front ++ (key, value) :: back) := by
  obtain ⟨hfront, hback, hcross⟩ := List.pairwise_append.mp hsorted
  refine List.pairwise_append.mpr ⟨hfront, List.pairwise_cons.mpr ⟨hcut.above, hback⟩, ?_⟩
  intro x hx y hy
  cases hy with
  | head => exact hcut.below x hx
  | tail _ hy => exact hcross x hx y hy

/-- The search finds the cut of any two halves around the key. -/
theorem lowerBound_eq {front back : List (κ × ν)} {key : κ}
    (hbelow : ∀ entry ∈ front, entry.1 < key) (habove : ∀ entry ∈ back, ¬ entry.1 < key) :
    lowerBound key (front ++ back) = front.length := by
  unfold lowerBound
  rw [List.takeWhile_append_of_pos (by simpa using hbelow), List.length_append]
  cases back with
  | nil => simp
  | cons first rest => simp [habove first List.mem_cons_self]

variable [Std.Trichotomous (α := κ) (· < ·)] [Trans (α := κ) (· < ·) (· < ·) (· < ·)]

/-- A sorted vector holds the key at the position found, or it has a cut there. -/
theorem lowerBound_cases {entries : List (κ × ν)} (hsorted : Ascending entries) (key : κ) :
    (∃ front value back, entries = front ++ (key, value) :: back ∧
      lowerBound key entries = front.length) ∨
    ∃ front back, entries = front ++ back ∧ Cut key front back ∧
      lowerBound key entries = front.length := by
  set front := entries.takeWhile fun entry => entry.1 < key
  have hbelow : ∀ entry ∈ front, entry.1 < key := fun entry hentry => by
    simpa using List.mem_takeWhile_imp hentry
  have hsplit : entries = front ++ entries.dropWhile fun entry => entry.1 < key :=
    List.takeWhile_append_dropWhile.symm
  have hfirst := List.head?_dropWhile_not (fun entry : κ × ν => decide (entry.1 < key)) entries
  cases hback : entries.dropWhile (fun entry => entry.1 < key) with
  | nil =>
      rw [hback] at hsplit
      exact Or.inr ⟨front, [], hsplit, ⟨hbelow, by simp⟩, rfl⟩
  | cons first rest =>
      rw [hback] at hsplit hfirst
      have hnot : ¬ first.1 < key := by simpa using hfirst
      rcases Std.lt_trichotomy key first.1 with hlt | heq | hgt
      · refine Or.inr ⟨front, first :: rest, hsplit, ⟨hbelow, ?_⟩, rfl⟩
        intro entry hentry
        rw [hsplit] at hsorted
        cases hentry with
        | head => exact hlt
        | tail _ hentry =>
            have hrest := (List.pairwise_append.mp hsorted).2.1
            exact Trans.trans hlt ((List.pairwise_cons.mp hrest).1 entry hentry)
      · exact Or.inl ⟨front, first.2, rest, by rw [hsplit, heq], rfl⟩
      · exact absurd hgt hnot

end Search

end Orderbook.Math
