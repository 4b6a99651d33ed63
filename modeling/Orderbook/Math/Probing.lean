/-
# Linear probing

A table of keys on a ring, each key placed at or after its home position. The
table is searchable as long as no free position lies between a key's home and
the key. Deleting a key opens a hole that may break this for later keys, and
Knuth's Algorithm R repairs it by moving some of them back.

`Gap` is what holds while the repair runs: chains may pass through the hole,
and the positions already scanned are known not to need it. The three passes of
the repair loop are the three lemmas about `Gap`. The repair ends whether or not
the table has another free position: a key that is moved comes closer to its home,
and between two moves the scan makes less than a round.
-/

import Mathlib.Algebra.BigOperators.Group.Finset.Basic
import Mathlib.Tactic.Set
import Orderbook.Math.Ring

namespace Orderbook.Math

universe u

variable {K : Type u} {n : ℕ} {home : K → ℕ} {empty : K} {key : ℕ → K}

variable (n home empty) in
/-- A searchable table: no key twice, and no free position between a key's home
and the key. -/
structure Probing (key : ℕ → K) : Prop where
  unique : ∀ i < n, ∀ j < n, key i ≠ empty → key i = key j → i = j
  chain : ∀ i < n, key i ≠ empty → ∀ t < n,
    ringDist n (home (key i)) t < ringDist n (home (key i)) i → key t ≠ empty

variable (n home empty) in
/-- A table with a hole at `hole` that the repair has scanned up to `scan`. -/
structure Gap (key : ℕ → K) (hole scan : ℕ) : Prop where
  hole_lt : hole < n
  scan_lt : scan < n
  hole_empty : key hole = empty
  unique : ∀ i < n, ∀ j < n, key i ≠ empty → key i = key j → i = j
  chain : ∀ i < n, key i ≠ empty → ∀ t < n,
    ringDist n (home (key i)) t < ringDist n (home (key i)) i → key t ≠ empty ∨ t = hole
  scanned : ∀ i < n, key i ≠ empty → ringDist n hole i ≤ ringDist n hole scan →
    ringDist n (home (key i)) i < ringDist n hole i

/-- Filling the free position a search ended at keeps a table searchable. -/
theorem Probing.insert (htable : Probing n home empty key) {new : K} {i : ℕ}
    (hi : i < n) (hfree : key i = empty) (hnew : ∀ t < n, key t ≠ new)
    (hsearch : ∀ t < n, ringDist n (home new) t < ringDist n (home new) i → key t ≠ empty) :
    Probing n home empty (Function.update key i new) := by
  have hsome : new ≠ empty := fun h => hnew i hi (hfree.trans h.symm)
  have hstays : ∀ t, key t ≠ empty → Function.update key i new t ≠ empty := by
    intro t ht
    rw [Function.update_apply]
    split_ifs with heq
    · exact hsome
    · exact ht
  refine ⟨fun a ha b hb hfull hsame => ?_, fun a ha hfull t ht hbefore => ?_⟩
  · rw [Function.update_apply] at hfull hsame
    rw [Function.update_apply] at hsame
    split_ifs at hfull hsame with hai hbi hbi
    · rw [hai, hbi]
    · exact absurd hsame.symm (hnew b hb)
    · exact absurd hsame (hnew a ha)
    · exact htable.unique a ha b hb hfull hsame
  · apply hstays
    rw [Function.update_apply] at hfull hbefore
    split_ifs at hfull hbefore with hai
    · subst hai
      exact hsearch t ht hbefore
    · exact htable.chain a ha hfull t ht hbefore

/-- Clearing a key opens a hole that nothing has been scanned behind. -/
theorem Probing.openGap (htable : Probing n home empty key) {i : ℕ} (hi : i < n) :
    Gap n home empty (Function.update key i empty) i i := by
  have hold : ∀ a, Function.update key i empty a ≠ empty →
      a ≠ i ∧ Function.update key i empty a = key a := by
    intro a ha
    rw [Function.update_apply] at ha ⊢
    split_ifs at ha ⊢ with hai
    · exact absurd rfl ha
    · exact ⟨hai, rfl⟩
  refine ⟨hi, hi, Function.update_self i empty key, ?_, ?_, ?_⟩
  · intro a ha b hb hafull hsame
    obtain ⟨_, hakey⟩ := hold a hafull
    obtain ⟨_, hbkey⟩ := hold b (hsame ▸ hafull)
    rw [hakey] at hafull hsame
    rw [hbkey] at hsame
    exact htable.unique a ha b hb hafull hsame
  · intro a ha hafull t ht hbefore
    obtain ⟨_, hakey⟩ := hold a hafull
    rw [hakey] at hafull hbefore
    by_cases hti : t = i
    · exact Or.inr hti
    · rw [Function.update_of_ne hti]
      exact Or.inl (htable.chain a ha hafull t ht hbefore)
  · intro a ha hafull hle
    obtain ⟨hai, _⟩ := hold a hafull
    rw [ringDist_self] at hle
    exact absurd (ringDist_pos hi hai.symm) (by omega)

variable {hole scan : ℕ}

/-- In front of a full position, the scan is one step short of it. -/
theorem Gap.dist_next (hgap : Gap n home empty key hole scan) (hne : ringNext n scan ≠ hole) :
    ringDist n hole (ringNext n scan) = ringDist n hole scan + 1 :=
  ringDist_next_of_ne hgap.hole_lt hne

theorem Gap.next_ne_hole (hgap : Gap n home empty key hole scan)
    (hfull : key (ringNext n scan) ≠ empty) : ringNext n scan ≠ hole :=
  fun hsame => hfull (hsame ▸ hgap.hole_empty)

/-- The scan reached a free position: no chain needs the hole any more. -/
theorem Gap.close (hgap : Gap n home empty key hole scan) (hhome : ∀ k, home k < n)
    (hfree : key (ringNext n scan) = empty) : Probing n home empty key := by
  refine ⟨hgap.unique, fun i hi hfull t ht hbefore => ?_⟩
  rcases hgap.chain i hi hfull t ht hbefore with hkey | rfl
  · exact hkey
  · have hnext := ringNext_lt hgap.scan_lt
    have hway := ringDist_add (hhome (key i)) ht hi (Nat.le_of_lt hbefore)
    rcases Nat.lt_or_ge (ringDist n t scan) (ringDist n t i) with hbeyond | hscanned
    · have hne : ringNext n scan ≠ t := by
        intro hround
        have := ringDist_of_next_eq ht hround
        have := ringDist_lt ht hi
        omega
      have hdist := hgap.dist_next hne
      have hshort : ringDist n t (ringNext n scan) ≠ ringDist n t i := by
        intro h
        exact hfull (eq_of_ringDist_eq ht hnext hi h ▸ hfree)
      have hlt := ringDist_lt (hhome (key i)) hi
      have hthrough := ringDist_trans (c := ringNext n scan) (hhome (key i)) ht (by omega)
      rcases hgap.chain i hi hfull _ hnext (by omega) with hkey | hsame
      · exact absurd hfree hkey
      · exact absurd hsame hne
    · have := hgap.scanned i hi hfull hscanned
      omega

/-- The key at the scan does not need the hole: leave it where it is. -/
theorem Gap.skip (hgap : Gap n home empty key hole scan)
    (hfull : key (ringNext n scan) ≠ empty)
    (hstays : ringDist n (home (key (ringNext n scan))) (ringNext n scan) <
      ringDist n hole (ringNext n scan)) :
    Gap n home empty key hole (ringNext n scan) := by
  refine { hgap with
    scan_lt := ringNext_lt hgap.scan_lt
    scanned := fun i hi hifull hle => ?_ }
  have hdist := hgap.dist_next (hgap.next_ne_hole hfull)
  rcases Nat.lt_or_ge (ringDist n hole scan) (ringDist n hole i) with hlt | hge
  · have hsame : i = ringNext n scan :=
      eq_of_ringDist_eq hgap.hole_lt hi (ringNext_lt hgap.scan_lt) (by omega)
    exact hsame ▸ hstays
  · exact hgap.scanned i hi hifull hge

/-- The key at the scan may need the hole: move it there, which opens a new hole
where it was. -/
theorem Gap.move (hgap : Gap n home empty key hole scan)
    (hhome : ∀ k, home k < n) (hfull : key (ringNext n scan) ≠ empty)
    (hneeds : ringDist n hole (ringNext n scan) ≤
      ringDist n (home (key (ringNext n scan))) (ringNext n scan)) :
    Gap n home empty
      (Function.update (Function.update key hole (key (ringNext n scan)))
        (ringNext n scan) empty)
      (ringNext n scan) (ringNext n scan) := by
  set next := ringNext n scan with hnextdef
  set moved := Function.update (Function.update key hole (key next)) next empty with hmoved
  have hnext : next < n := ringNext_lt hgap.scan_lt
  have hne : hole ≠ next := (hgap.next_ne_hole hfull).symm
  have hathole : moved hole = key next := by
    rw [hmoved, Function.update_of_ne hne, Function.update_self]
  have hatnext : moved next = empty := by
    rw [hmoved, Function.update_self]
  have hother : ∀ t, t ≠ hole → t ≠ next → moved t = key t := by
    intro t hthole htnext
    rw [hmoved, Function.update_of_ne htnext, Function.update_of_ne hthole]
  refine ⟨hnext, hnext, hatnext, ?_, ?_, ?_⟩
  · intro a ha b hb hafull hsame
    have hanext : a ≠ next := fun h => hafull (h ▸ hatnext)
    have hbnext : b ≠ next := fun h => hafull (hsame.trans (h ▸ hatnext))
    by_cases hahole : a = hole <;> by_cases hbhole : b = hole
    · rw [hahole, hbhole]
    · rw [hahole, hathole, hother b hbhole hbnext] at hsame
      exact absurd (hgap.unique next hnext b hb hfull hsame).symm hbnext
    · rw [hbhole, hathole, hother a hahole hanext] at hsame
      exact absurd (hgap.unique next hnext a ha hfull hsame.symm).symm hanext
    · rw [hother a hahole hanext] at hafull hsame
      rw [hother b hbhole hbnext] at hsame
      exact hgap.unique a ha b hb hafull hsame
  · intro a ha hafull t ht hbefore
    have hanext : a ≠ next := fun h => hafull (h ▸ hatnext)
    by_cases htnext : t = next
    · exact Or.inr htnext
    left
    by_cases hahole : a = hole
    · rw [hahole, hathole] at hbefore
      have hway := ringDist_add_of_le_right (hhome (key next)) hgap.hole_lt hneeds
      have hthole : t ≠ hole := by
        rintro rfl
        exact absurd hbefore (lt_irrefl _)
      rcases hgap.chain next hnext hfull t ht (by omega) with hkey | rfl
      · rwa [hother t hthole htnext]
      · exact absurd rfl hthole
    · rw [hother a hahole hanext] at hafull hbefore
      by_cases hthole : t = hole
      · rwa [hthole, hathole]
      · rcases hgap.chain a ha hafull t ht hbefore with hkey | rfl
        · rwa [hother t hthole htnext]
        · exact absurd rfl hthole
  · intro a ha hafull hle
    have hanext : a ≠ next := fun h => hafull (h ▸ hatnext)
    rw [ringDist_self] at hle
    exact absurd (ringDist_pos hnext hanext.symm) (by omega)

section Ends

variable [DecidableEq K]

variable (n home empty) in
/-- How far the keys of a table are from their homes, taken together. -/
def displacement (key : ℕ → K) : ℕ :=
  ∑ i ∈ Finset.range n, if key i = empty then 0 else ringDist n (home (key i)) i

variable (n home empty) in
/-- What is left of the repair: it falls with every pass. -/
def remaining (key : ℕ → K) (hole scan : ℕ) : ℕ :=
  displacement n home empty key * n + (n - 1 - ringDist n hole scan)

/-- Moving a key back into the hole brings it closer to its home by the way it was moved. -/
theorem Gap.displacement_move (hgap : Gap n home empty key hole scan) (hhome : ∀ k, home k < n)
    (hfull : key (ringNext n scan) ≠ empty)
    (hneeds : ringDist n hole (ringNext n scan) ≤
      ringDist n (home (key (ringNext n scan))) (ringNext n scan)) :
    displacement n home empty (Function.update (Function.update key hole (key (ringNext n scan)))
      (ringNext n scan) empty) + ringDist n hole (ringNext n scan) =
        displacement n home empty key := by
  set next := ringNext n scan
  have hne : next ≠ hole := hgap.next_ne_hole hfull
  have hhole : hole ∈ Finset.range n := Finset.mem_range.mpr hgap.hole_lt
  have hnext : next ∈ (Finset.range n).erase hole :=
    Finset.mem_erase.mpr ⟨hne, Finset.mem_range.mpr (ringNext_lt hgap.scan_lt)⟩
  have hway := ringDist_add_of_le_right (hhome (key next)) hgap.hole_lt hneeds
  have hrest : ∀ i ∈ ((Finset.range n).erase hole).erase next,
      Function.update (Function.update key hole (key next)) next empty i = key i := by
    intro i hi
    obtain ⟨hinext, hi⟩ := Finset.mem_erase.mp hi
    rw [Function.update_of_ne hinext, Function.update_of_ne (Finset.mem_erase.mp hi).1]
  unfold displacement
  rw [← Finset.add_sum_erase _ _ hhole, ← Finset.add_sum_erase _ _ hnext,
    ← Finset.add_sum_erase (Finset.range n) _ hhole, ← Finset.add_sum_erase _ _ hnext,
    Finset.sum_congr rfl fun i hi => by rw [hrest i hi]]
  rw [Function.update_self, if_pos rfl, Function.update_of_ne hne.symm, Function.update_self,
    if_neg hfull, if_pos hgap.hole_empty, if_neg hfull]
  omega

/-- A pass that leaves the key at the scan where it is. -/
theorem Gap.remaining_skip (hgap : Gap n home empty key hole scan)
    (hfull : key (ringNext n scan) ≠ empty) :
    remaining n home empty key hole (ringNext n scan) < remaining n home empty key hole scan := by
  have hdist := hgap.dist_next (hgap.next_ne_hole hfull)
  have hless := ringDist_lt hgap.hole_lt (ringNext_lt hgap.scan_lt)
  unfold remaining
  omega

/-- A pass that moves the key at the scan. -/
theorem Gap.remaining_move (hgap : Gap n home empty key hole scan) (hhome : ∀ k, home k < n)
    (hfull : key (ringNext n scan) ≠ empty)
    (hneeds : ringDist n hole (ringNext n scan) ≤
      ringDist n (home (key (ringNext n scan))) (ringNext n scan)) :
    remaining n home empty (Function.update (Function.update key hole (key (ringNext n scan)))
      (ringNext n scan) empty) (ringNext n scan) (ringNext n scan) <
        remaining n home empty key hole scan := by
  have hmoved := hgap.displacement_move hhome hfull hneeds
  have hpos := ringDist_pos hgap.hole_lt (hgap.next_ne_hole hfull).symm
  have hless := ringDist_lt hgap.hole_lt hgap.scan_lt
  unfold remaining
  rw [ringDist_self, ← hmoved, Nat.add_mul]
  have hround : n ≤ ringDist n hole (ringNext n scan) * n := Nat.le_mul_of_pos_left n hpos
  omega

end Ends

end Orderbook.Math
