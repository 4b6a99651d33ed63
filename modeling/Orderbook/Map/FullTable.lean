/-
# Calls that return

A search for a key that a full table does not hold goes round forever. Whenever an
operation of the map does return, the table was searchable before and is searchable
after, full or not: a key that was found was stored, and an entry that was written was
free or held the key. The deletion of a stored key always returns.
-/

import Orderbook.Map.FiniteMap

namespace Orderbook.FlatHashMap

open Orderbook.Math

variable {K V : Type} [DecidableEq K] [Inhabited V] {policy : HashPolicy K} {bits : ℕ}
  {map map' : FlatHashMap K V} {contents : K → Option V} {key : K}

/-- A search that ends is at a free entry or at the key. -/
theorem probe_sound (hshape : Shape policy bits map) {idx : ℕ}
    (hprobe : map.probe policy key = some idx) :
    idx < 2 ^ bits ∧ (map.keyAt policy idx = policy.empty ∨ map.keyAt policy idx = key) := by
  obtain ⟨hidx, htest⟩ := keeps_of_loopWhile (fun idx => idx < 2 ^ bits)
    (fun idx next hidx _ hnext => by
      cases hnext
      rw [hshape.next hidx]
      exact ringNext_lt hidx) (hshape.hash_lt key) hprobe
  refine ⟨hidx, ?_⟩
  by_contra hneither
  push Not at hneither
  simp [hneither] at htest

/-- In a full table a search that ends has found the key. -/
theorem Represents.probe_full (hrep : Represents policy bits map contents)
    (hfull : ¬ ∃ idx < 2 ^ bits, map.keyAt policy idx = policy.empty) {idx : ℕ}
    (hprobe : map.probe policy key = some idx) :
    idx < 2 ^ bits ∧ map.keyAt policy idx = key ∧ key ≠ policy.empty := by
  obtain ⟨hidx, hend⟩ := probe_sound hrep.shape hprobe
  have hsome : map.keyAt policy idx ≠ policy.empty := fun hempty => hfull ⟨idx, hidx, hempty⟩
  have hkey := hend.resolve_left hsome
  exact ⟨hidx, hkey, hkey ▸ hsome⟩

/-- A search that returns reads the stored function. -/
theorem Represents.find_of_some (hrep : Represents policy bits map contents)
    {answer : Option V} (hfind : map.find policy key = some answer) :
    answer = contents key := by
  by_cases hfree : ∃ idx < 2 ^ bits, map.keyAt policy idx = policy.empty
  · rw [hrep.find hfree] at hfind
    exact (Option.some.inj hfind).symm
  · obtain ⟨idx, hprobe, hanswer⟩ := Option.map_eq_some_iff.mp hfind
    obtain ⟨hidx, hkey, hne⟩ := hrep.probe_full hfree hprobe
    rw [if_neg (hkey ▸ hne)] at hanswer
    rw [← hanswer]
    exact ((hrep.stores key _).mpr ⟨hne, idx, hidx, by rw [← hkey]; rfl⟩).symm

/-- An insertion that returns maps the key to the value. -/
theorem Represents.insert_of_some (hrep : Represents policy bits map contents)
    (hkey : key ≠ policy.empty) {value : V} (hinsert : map.insert policy key value = some map') :
    Represents policy bits map' (Function.update contents key (some value)) := by
  by_cases hfree : ∃ idx < 2 ^ bits, map.keyAt policy idx = policy.empty
  · obtain ⟨other, hother, hrep'⟩ := hrep.insert hfree hkey value
    rw [hother] at hinsert
    cases hinsert
    exact hrep'
  · obtain ⟨idx, hprobe, rfl⟩ := Option.map_eq_some_iff.mp hinsert
    obtain ⟨hidx, hat, _⟩ := hrep.probe_full hfree hprobe
    refine ⟨hrep.shape.setEntry _ _, ?_, ?_⟩
    · rw [keyAt_setEntry (hrep.shape.size ▸ hidx), mask_setEntry,
        Function.update_eq_self_iff.mpr hat.symm]
      exact hrep.probing
    · refine hrep.stores.setEntry hrep.shape hidx value hkey (Or.inr hat) ?_
      intro t ht hne hsame
      exact hne (hrep.probing.unique t ht idx hidx (hsame ▸ hkey) (hsame.trans hat.symm))

/-- An insertion of the reserved key that returns stores nothing. -/
theorem Represents.insert_empty_of_some (hrep : Represents policy bits map contents)
    {value : V} (hinsert : map.insert policy policy.empty value = some map') :
    Represents policy bits map' contents := by
  by_cases hfree : ∃ idx < 2 ^ bits, map.keyAt policy idx = policy.empty
  · obtain ⟨other, hother, hrep'⟩ := hrep.insert_empty hfree value
    rw [hother] at hinsert
    cases hinsert
    exact hrep'
  · obtain ⟨idx, hprobe, _⟩ := Option.map_eq_some_iff.mp hinsert
    exact absurd rfl (hrep.probe_full hfree hprobe).2.2

/-- A deletion that returns forgets the key and nothing else. -/
theorem Represents.erase_of_some (hrep : Represents policy bits map contents)
    (herase : map.erase policy key = some map') :
    Represents policy bits map' (Function.update contents key none) := by
  have hreturns : ∃ other, map.erase policy key = some other ∧
      Represents policy bits other (Function.update contents key none) := by
    by_cases hstored : contents key ≠ none
    · exact hrep.erase_stored hstored
    · by_cases hfree : ∃ idx < 2 ^ bits, map.keyAt policy idx = policy.empty
      · exact hrep.erase hfree key
      · obtain ⟨idx, hprobe, _⟩ := Option.bind_eq_some_iff.mp herase
        obtain ⟨hidx, hat, hkey⟩ := hrep.probe_full hfree hprobe
        exact absurd (hrep.contents_ne_none_iff.mpr ⟨hkey, idx, hidx, hat⟩) hstored
  obtain ⟨other, hother, hrep'⟩ := hreturns
  rw [hother] at herase
  cases herase
  exact hrep'

/-- A deletion that returns leaves a table in which the key is searched without success. -/
theorem Represents.find_of_erase (hrep : Represents policy bits map contents)
    (hstored : contents key ≠ none) (herase : map.erase policy key = some map') :
    map'.find policy key = some none := by
  have hrep' := hrep.erase_of_some herase
  have hfewer : {other | Function.update contents key none other ≠ none} ⊂
      {other | contents other ≠ none} := by
    refine ⟨fun other hother => ?_, fun hsame => ?_⟩
    · by_cases heq : other = key
      · rw [heq]
        exact hstored
      · rwa [Set.mem_ofPred_eq, Function.update_of_ne heq] at hother
    · exact hsame hstored (Function.update_self ..)
  have hcount : map'.count policy < 2 ^ bits := by
    calc map'.count policy
      _ < map.count policy := by
          rw [hrep'.count_eq, hrep.count_eq]
          exact Set.ncard_lt_ncard hfewer hrep.finite
      _ ≤ 2 ^ bits := by
          rw [← hrep.shape.size, ← Finset.card_range map.table.size]
          exact Finset.card_filter_le _ _
  rw [hrep'.find (exists_free_of_count_lt hrep'.shape hcount), Function.update_self]

end Orderbook.FlatHashMap
