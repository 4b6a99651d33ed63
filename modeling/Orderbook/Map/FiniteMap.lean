/-
# The order map is a finite map

`Represents` ties a table to the partial function it stores: the table is
searchable and its occupied entries are exactly the pairs of the function. Each
operation ends as long as one entry is free or its key is stored, and does to the
function what its name says. The reserved key is never stored, whatever is done
with it.
-/

import Orderbook.Map.FlatHashMap
import Orderbook.Math.Probing
import Orderbook.Math.Run
import Mathlib.Data.Set.Card

namespace Orderbook.FlatHashMap

open Orderbook.Math

variable {K V : Type} {policy : HashPolicy K} {bits : ℕ} {map : FlatHashMap K V}
  {contents : K → Option V}

@[simp]
theorem size_setEntry (idx : ℕ) (entry : MapEntry K V) :
    (map.setEntry idx entry).table.size = map.table.size := by
  simp [setEntry]

@[simp]
theorem size_clearKey (idx : ℕ) : (map.clearKey policy idx).table.size = map.table.size := by
  simp [clearKey]

@[simp]
theorem mask_setEntry (idx : ℕ) (entry : MapEntry K V) :
    (map.setEntry idx entry).mask = map.mask := rfl

@[simp]
theorem mask_clearKey (idx : ℕ) : (map.clearKey policy idx).mask = map.mask := rfl

section Reading

variable [Inhabited V]

theorem entryAt_setEntry {idx : ℕ} (hidx : idx < map.table.size) (entry : MapEntry K V) :
    (map.setEntry idx entry).entryAt policy =
      Function.update (map.entryAt policy) idx entry := by
  funext other
  by_cases heq : other = idx
  · subst heq
    simp [entryAt, setEntry, hidx, Array.getElem_modify_self]
  · rw [Function.update_of_ne heq]
    simp [entryAt, setEntry, Array.getElem?_modify, Ne.symm heq]

theorem keyAt_setEntry {idx : ℕ} (hidx : idx < map.table.size) (entry : MapEntry K V) :
    (map.setEntry idx entry).keyAt policy =
      Function.update (map.keyAt policy) idx entry.key := by
  funext other
  rw [keyAt, entryAt_setEntry hidx, Function.update_apply, Function.update_apply]
  split_ifs <;> rfl

theorem clearKey_eq_setEntry {idx : ℕ} (hidx : idx < map.table.size) :
    map.clearKey policy idx =
      map.setEntry idx { map.entryAt policy idx with key := policy.empty } := by
  simp only [clearKey, setEntry, FlatHashMap.mk.injEq, true_and]
  apply Array.ext
  · simp
  · intro i hi _
    simp only [Array.size_modify] at hi
    simp only [Array.getElem_modify, entryAt]
    split_ifs with heq
    · subst heq
      simp [hidx]
    · rfl

theorem keyAt_clearKey {idx : ℕ} (hidx : idx < map.table.size) :
    (map.clearKey policy idx).keyAt policy =
      Function.update (map.keyAt policy) idx policy.empty := by
  rw [clearKey_eq_setEntry hidx, keyAt_setEntry hidx]

end Reading

variable (policy bits) in
/-- The table has `2 ^ bits` entries and its mask and hash fit it. -/
structure Shape (map : FlatHashMap K V) : Prop where
  bits_le : bits ≤ 64
  mask : map.mask = 2 ^ bits - 1
  size : map.table.size = 2 ^ bits
  hash_lt : ∀ key, policy.hash map.mask key < 2 ^ bits

theorem Shape.setEntry (hshape : Shape policy bits map) (idx : ℕ) (entry : MapEntry K V) :
    Shape policy bits (map.setEntry idx entry) :=
  ⟨hshape.bits_le, hshape.mask, (size_setEntry idx entry).trans hshape.size, hshape.hash_lt⟩

theorem Shape.clearKey (hshape : Shape policy bits map) (idx : ℕ) :
    Shape policy bits (map.clearKey policy idx) :=
  ⟨hshape.bits_le, hshape.mask, (size_clearKey idx).trans hshape.size, hshape.hash_lt⟩

theorem Shape.next (hshape : Shape policy bits map) {idx : ℕ} (hidx : idx < 2 ^ bits) :
    (idx + 1) &&& map.mask = ringNext (2 ^ bits) idx := by
  rw [hshape.mask, succ_and_mask hidx]

theorem Shape.dist (hshape : Shape policy bits map) {i j : ℕ} (hi : i < 2 ^ bits)
    (hj : j < 2 ^ bits) : sizeSub j i &&& map.mask = ringDist (2 ^ bits) i j := by
  rw [hshape.mask, sizeSub, sub_and_mask hshape.bits_le hi hj]

section Contents

variable [Inhabited V]

variable (policy bits) in
/-- The occupied entries are exactly the pairs of `contents`. -/
def Stores (map : FlatHashMap K V) (contents : K → Option V) : Prop :=
  ∀ key value, contents key = some value ↔
    key ≠ policy.empty ∧ ∃ idx < 2 ^ bits, map.entryAt policy idx = ⟨key, value⟩

variable (policy bits) in
/-- A searchable table that stores `contents`. -/
structure Represents (map : FlatHashMap K V) (contents : K → Option V) : Prop where
  shape : Shape policy bits map
  probing : Probing (2 ^ bits) (policy.hash map.mask) policy.empty (map.keyAt policy)
  stores : Stores policy bits map contents

/-- A key is stored exactly when some entry holds it. -/
theorem Represents.contents_ne_none_iff (hrep : Represents policy bits map contents)
    {key : K} : contents key ≠ none ↔
      key ≠ policy.empty ∧ ∃ idx < 2 ^ bits, map.keyAt policy idx = key := by
  rw [Option.ne_none_iff_exists']
  constructor
  · rintro ⟨value, hvalue⟩
    obtain ⟨hne, idx, hidx, hentry⟩ := (hrep.stores key value).mp hvalue
    exact ⟨hne, idx, hidx, congrArg MapEntry.key hentry⟩
  · rintro ⟨hne, idx, hidx, rfl⟩
    exact ⟨(map.entryAt policy idx).value, (hrep.stores _ _).mpr ⟨hne, idx, hidx, rfl⟩⟩

/-- The reserved key is never stored. -/
theorem Represents.contents_empty (hrep : Represents policy bits map contents) :
    contents policy.empty = none := by
  by_contra hne
  exact (hrep.contents_ne_none_iff.mp hne).1 rfl

theorem Represents.finite (hrep : Represents policy bits map contents) :
    Set.Finite {key | contents key ≠ none} := by
  apply ((Finset.range (2 ^ bits)).finite_toSet.image (map.keyAt policy)).subset
  intro key hkey
  obtain ⟨_, idx, hidx, hentry⟩ := hrep.contents_ne_none_iff.mp hkey
  exact ⟨idx, by simpa using hidx, hentry⟩

/-- A fresh table stores nothing. -/
theorem represents_create (hbits : bits ≤ 64)
    (hhash : ∀ key, policy.hash (2 ^ bits - 1) key < 2 ^ bits) :
    Represents policy bits (create policy (2 ^ bits) : FlatHashMap K V) fun _ => none := by
  have hkey : ∀ idx, (create policy (2 ^ bits) : FlatHashMap K V).keyAt policy idx =
      policy.empty := by
    intro idx
    simp only [keyAt, entryAt, create, Array.getElem?_replicate]
    split_ifs <;> rfl
  refine ⟨⟨hbits, rfl, by simp [create], hhash⟩, ⟨?_, ?_⟩, ?_⟩
  · exact fun i _ _ _ hfull => absurd (hkey i) hfull
  · exact fun i _ hfull => absurd (hkey i) hfull
  · intro key value
    refine iff_of_false (by simp) ?_
    rintro ⟨hne, idx, _, hentry⟩
    exact hne ((congrArg MapEntry.key hentry).symm.trans (hkey idx))

/-- Moving an entry into a free one changes where a pair is, not which pairs are
stored. -/
theorem Stores.moveEntry (hstores : Stores policy bits map contents)
    (hshape : Shape policy bits map) {hole next : ℕ} (hhole : hole < 2 ^ bits)
    (hnext : next < 2 ^ bits) (hne : hole ≠ next)
    (hfree : map.keyAt policy hole = policy.empty) :
    Stores policy bits
      ((map.setEntry hole (map.entryAt policy next)).clearKey policy next) contents := by
  have hsize : next < (map.setEntry hole (map.entryAt policy next)).table.size := by
    rw [size_setEntry, hshape.size]
    exact hnext
  intro key stored
  rw [hstores key stored, clearKey_eq_setEntry hsize, entryAt_setEntry hsize,
    entryAt_setEntry (hshape.size ▸ hhole)]
  refine and_congr_right fun hkey => ?_
  constructor
  · rintro ⟨t, ht, hentry⟩
    have htholes : t ≠ hole := by
      rintro rfl
      exact hkey ((congrArg MapEntry.key hentry).symm.trans hfree)
    by_cases htnext : t = next
    · refine ⟨hole, hhole, ?_⟩
      rw [Function.update_of_ne hne, Function.update_self, ← htnext, hentry]
    · refine ⟨t, ht, ?_⟩
      rw [Function.update_of_ne htnext, Function.update_of_ne htholes, hentry]
  · rintro ⟨t, ht, hentry⟩
    by_cases htnext : t = next
    · rw [htnext, Function.update_self] at hentry
      exact absurd (congrArg MapEntry.key hentry).symm hkey
    · rw [Function.update_of_ne htnext] at hentry
      by_cases hthole : t = hole
      · rw [hthole, Function.update_self] at hentry
        exact ⟨next, hnext, hentry⟩
      · rw [Function.update_of_ne hthole] at hentry
        exact ⟨t, ht, hentry⟩

/-- The keys after an entry has been moved into the hole. -/
theorem keyAt_move (hshape : Shape policy bits map) {hole next : ℕ} (hhole : hole < 2 ^ bits)
    (hnext : next < 2 ^ bits) :
    ((map.setEntry hole (map.entryAt policy next)).clearKey policy next).keyAt policy =
      Function.update (Function.update (map.keyAt policy) hole (map.keyAt policy next)) next
        policy.empty := by
  rw [keyAt_clearKey (by simpa [hshape.size] using hnext),
    keyAt_setEntry (hshape.size ▸ hhole)]
  rfl

end Contents

variable [DecidableEq K] [Inhabited V]

/-- Occupied entries are counted by the keys they hold. -/
theorem Represents.count_eq (hrep : Represents policy bits map contents) :
    map.count policy = Set.ncard {key | contents key ≠ none} := by
  have himage : {key | contents key ≠ none} = Set.image (map.keyAt policy)
      ((Finset.range map.table.size).filter fun idx =>
        map.keyAt policy idx ≠ policy.empty) := by
    ext key
    simp only [Set.mem_ofPred_eq, hrep.contents_ne_none_iff, Set.mem_image, Finset.coe_filter,
      Finset.mem_range, hrep.shape.size]
    constructor
    · rintro ⟨hne, idx, hidx, rfl⟩
      exact ⟨idx, ⟨hidx, hne⟩, rfl⟩
    · rintro ⟨idx, ⟨hidx, hne⟩, rfl⟩
      exact ⟨hne, idx, hidx, rfl⟩
  rw [himage, Set.InjOn.ncard_image, Set.ncard_coe_finset]
  · rfl
  · intro i hi j hj hsame
    simp only [Finset.coe_filter, Finset.mem_range, Set.mem_ofPred_eq, hrep.shape.size] at hi hj
    exact hrep.probing.unique i hi.1 j hj.1 hi.2 hsame

/-- A table that is not full has a free entry. -/
theorem exists_free_of_count_lt (hshape : Shape policy bits map)
    (hcount : map.count policy < 2 ^ bits) :
    ∃ idx < 2 ^ bits, map.keyAt policy idx = policy.empty := by
  by_contra hnone
  push Not at hnone
  have hall : (Finset.range map.table.size).filter
      (fun idx => map.keyAt policy idx ≠ policy.empty) = Finset.range map.table.size := by
    apply Finset.filter_true_of_mem
    intro idx hidx
    exact hnone idx (hshape.size ▸ Finset.mem_range.mp hidx)
  rw [count, hall, Finset.card_range, hshape.size] at hcount
  exact absurd hcount (lt_irrefl _)

/-- With a free entry or the key in the table, the probe ends at the first entry from the
key's home that is free or holds the key. -/
theorem probe_spec (hshape : Shape policy bits map) (key : K)
    (hends : ∃ idx < 2 ^ bits, map.keyAt policy idx = policy.empty ∨ map.keyAt policy idx = key) :
    ∃ idx, map.probe policy key = some idx ∧ idx < 2 ^ bits ∧
      (map.keyAt policy idx = policy.empty ∨ map.keyAt policy idx = key) ∧
      ∀ t < 2 ^ bits, ringDist (2 ^ bits) (policy.hash map.mask key) t <
        ringDist (2 ^ bits) (policy.hash map.mask key) idx →
        map.keyAt policy t ≠ policy.empty ∧ map.keyAt policy t ≠ key := by
  obtain ⟨stop, hstop, hstopEnds⟩ := hends
  set home := policy.hash map.mask key with hhomedef
  have hhome : home < 2 ^ bits := hshape.hash_lt key
  let visited : ℕ → Prop := fun idx => idx < 2 ^ bits ∧
    ∀ t < 2 ^ bits, ringDist (2 ^ bits) home t < ringDist (2 ^ bits) home idx →
      map.keyAt policy t ≠ policy.empty ∧ map.keyAt policy t ≠ key
  suffices hresult : ∃ idx, map.probe policy key = some idx ∧ visited idx ∧
      (map.keyAt policy idx = policy.empty ∨ map.keyAt policy idx = key) by
    obtain ⟨idx, hprobe, ⟨hidx, hbehind⟩, hend⟩ := hresult
    exact ⟨idx, hprobe, hidx, hend, hbehind⟩
  refine iterate_total visited
    (fun idx => visited idx ∧
      (map.keyAt policy idx = policy.empty ∨ map.keyAt policy idx = key))
    (fun idx => ringDist (2 ^ bits) idx stop) ?_ home ?_
  · rintro idx ⟨hidx, hbehind⟩
    by_cases hcontinue : map.keyAt policy idx ≠ policy.empty ∧ map.keyAt policy idx ≠ key
    · left
      have hne : idx ≠ stop := by
        rintro rfl
        exact hstopEnds.elim hcontinue.1 hcontinue.2
      have hahead : ringDist (2 ^ bits) home idx < ringDist (2 ^ bits) home stop := by
        rcases Nat.lt_trichotomy (ringDist (2 ^ bits) home idx)
          (ringDist (2 ^ bits) home stop) with hlt | heq | hgt
        · exact hlt
        · exact absurd (eq_of_ringDist_eq hhome hidx hstop heq) hne
        · have hpassed := hbehind stop hstop hgt
          exact (hstopEnds.elim hpassed.1 hpassed.2).elim
      have hnext := ringDist_next (b := idx) hhome hstop hahead
      refine ⟨ringNext (2 ^ bits) idx, ?_, ⟨ringNext_lt hidx, ?_⟩, ?_⟩
      · simp [hcontinue, hshape.next hidx]
      · intro t ht hbefore
        rcases Nat.lt_or_ge (ringDist (2 ^ bits) home t) (ringDist (2 ^ bits) home idx)
          with hlt | hge
        · exact hbehind t ht hlt
        · rw [eq_of_ringDist_eq hhome ht hidx (by omega)]
          exact hcontinue
      · have := ringDist_next_left hidx hstop hne
        omega
    · right
      refine ⟨idx, ?_, ⟨hidx, hbehind⟩, ?_⟩
      · rw [if_neg (by simpa using hcontinue)]
      · tauto
  · exact ⟨hhome, fun t _ hbefore => by simp at hbefore⟩

/-- The probe for a stored key ends at its entry, also in a full table. -/
theorem Represents.probe_stored (hrep : Represents policy bits map contents) {key : K} {value : V}
    (hstored : contents key = some value) :
    ∃ idx < 2 ^ bits, map.probe policy key = some idx ∧
      map.entryAt policy idx = ⟨key, value⟩ := by
  obtain ⟨hne, slot, hslot, hentry⟩ := (hrep.stores key value).mp hstored
  have hkey : map.keyAt policy slot = key := congrArg MapEntry.key hentry
  obtain ⟨idx, hprobe, hidx, hend, hbehind⟩ :=
    probe_spec hrep.shape key ⟨slot, hslot, Or.inr hkey⟩
  refine ⟨idx, hidx, hprobe, ?_⟩
  have hhome := hrep.shape.hash_lt key
  have hfull : map.keyAt policy slot ≠ policy.empty := hkey ▸ hne
  have hidxKey : map.keyAt policy idx = key := by
    rcases hend with hempty | hfound
    · rcases Nat.lt_trichotomy (ringDist (2 ^ bits) (policy.hash map.mask key) idx)
        (ringDist (2 ^ bits) (policy.hash map.mask key) slot) with hlt | heq | hgt
      · have := hrep.probing.chain slot hslot hfull idx hidx (by rwa [hkey])
        exact absurd hempty this
      · rw [eq_of_ringDist_eq hhome hidx hslot heq, hkey]
      · exact absurd hkey (hbehind slot hslot hgt).2
    · exact hfound
  rw [hrep.probing.unique idx hidx slot hslot (hidxKey ▸ hne) (hidxKey.trans hkey.symm)]
  exact hentry

/-- The probe for a key that is not stored ends at a free entry. -/
theorem Represents.probe_absent (hrep : Represents policy bits map contents)
    (hfree : ∃ idx < 2 ^ bits, map.keyAt policy idx = policy.empty) {key : K}
    (habsent : contents key = none) :
    ∃ idx < 2 ^ bits, map.probe policy key = some idx ∧
      map.keyAt policy idx = policy.empty ∧
      ∀ t < 2 ^ bits, ringDist (2 ^ bits) (policy.hash map.mask key) t <
        ringDist (2 ^ bits) (policy.hash map.mask key) idx →
        map.keyAt policy t ≠ policy.empty := by
  obtain ⟨stop, hstop, hstopEmpty⟩ := hfree
  obtain ⟨idx, hprobe, hidx, hend, hbehind⟩ :=
    probe_spec hrep.shape key ⟨stop, hstop, Or.inl hstopEmpty⟩
  refine ⟨idx, hidx, hprobe, ?_, fun t ht hbefore => (hbehind t ht hbefore).1⟩
  rcases hend with hempty | hfound
  · exact hempty
  · by_contra hne
    exact hrep.contents_ne_none_iff.mpr ⟨hfound ▸ hne, idx, hidx, hfound⟩ habsent

/-! ## Operations -/

/-- `find` finds a stored key, also in a full table. -/
theorem Represents.find_stored (hrep : Represents policy bits map contents) {key : K} {value : V}
    (hstored : contents key = some value) : map.find policy key = some (some value) := by
  obtain ⟨idx, _, hprobe, hentry⟩ := hrep.probe_stored hstored
  have hne : map.keyAt policy idx ≠ policy.empty := by
    rw [keyAt, hentry]
    exact ((hrep.stores key value).mp hstored).1
  rw [FlatHashMap.find, hprobe, Option.map_some, if_neg hne, hentry]

/-- `find` reads the stored function. -/
theorem Represents.find (hrep : Represents policy bits map contents)
    (hfree : ∃ idx < 2 ^ bits, map.keyAt policy idx = policy.empty) (key : K) :
    map.find policy key = some (contents key) := by
  cases hcontents : contents key with
  | none =>
      obtain ⟨idx, _, hprobe, hempty, _⟩ := hrep.probe_absent hfree hcontents
      rw [FlatHashMap.find, hprobe, Option.map_some, if_pos hempty]
  | some value => exact hrep.find_stored hcontents

/-- Writing a pair into an entry that is free or already holds the key. -/
theorem Stores.setEntry (hstores : Stores policy bits map contents)
    (hshape : Shape policy bits map) {idx : ℕ} (hidx : idx < 2 ^ bits) {key : K} (value : V)
    (hkey : key ≠ policy.empty)
    (hat : map.keyAt policy idx = policy.empty ∨ map.keyAt policy idx = key)
    (hother : ∀ t < 2 ^ bits, t ≠ idx → map.keyAt policy t ≠ key) :
    Stores policy bits (map.setEntry idx ⟨key, value⟩)
      (Function.update contents key (some value)) := by
  intro other stored
  rw [entryAt_setEntry (hshape.size ▸ hidx)]
  by_cases heq : other = key
  · subst heq
    rw [Function.update_self, Option.some.injEq]
    constructor
    · rintro rfl
      exact ⟨hkey, idx, hidx, Function.update_self ..⟩
    · rintro ⟨_, t, ht, hentry⟩
      by_cases htidx : t = idx
      · rw [htidx, Function.update_self] at hentry
        exact congrArg MapEntry.value hentry
      · rw [Function.update_of_ne htidx] at hentry
        exact absurd (congrArg MapEntry.key hentry) (hother t ht htidx)
  · rw [Function.update_of_ne heq, hstores other stored]
    refine and_congr_right fun hne => exists_congr fun t => and_congr_right fun ht => ?_
    by_cases htidx : t = idx
    · subst htidx
      rw [Function.update_self]
      constructor
      · intro hentry
        have hkeyAt : map.keyAt policy t = other := congrArg MapEntry.key hentry
        rcases hat with hfree | hsame
        · exact absurd (hkeyAt.symm.trans hfree) hne
        · exact absurd (hkeyAt.symm.trans hsame) heq
      · intro hentry
        exact absurd (congrArg MapEntry.key hentry).symm heq
    · rw [Function.update_of_ne htidx]

/-- `insert` maps the key to the value, whether or not it was stored before. -/
theorem Represents.insert (hrep : Represents policy bits map contents)
    (hfree : ∃ idx < 2 ^ bits, map.keyAt policy idx = policy.empty) {key : K}
    (hkey : key ≠ policy.empty) (value : V) :
    ∃ map', map.insert policy key value = some map' ∧
      Represents policy bits map' (Function.update contents key (some value)) := by
  cases hcontents : contents key with
  | none =>
      obtain ⟨idx, hidx, hprobe, hempty, hbehind⟩ := hrep.probe_absent hfree hcontents
      have hnew : ∀ t < 2 ^ bits, map.keyAt policy t ≠ key := fun t ht h =>
        hrep.contents_ne_none_iff.mpr ⟨hkey, t, ht, h⟩ hcontents
      refine ⟨map.setEntry idx ⟨key, value⟩, by simp [FlatHashMap.insert, hprobe],
        hrep.shape.setEntry _ _, ?_, ?_⟩
      · rw [keyAt_setEntry (hrep.shape.size ▸ hidx)]
        exact hrep.probing.insert hidx hempty hnew hbehind
      · exact hrep.stores.setEntry hrep.shape hidx value hkey (Or.inl hempty)
          fun t ht _ => hnew t ht
  | some old =>
      obtain ⟨idx, hidx, hprobe, hentry⟩ := hrep.probe_stored hcontents
      have hat : map.keyAt policy idx = key := congrArg MapEntry.key hentry
      refine ⟨map.setEntry idx ⟨key, value⟩, by simp [FlatHashMap.insert, hprobe],
        hrep.shape.setEntry _ _, ?_, ?_⟩
      · rw [keyAt_setEntry (hrep.shape.size ▸ hidx), mask_setEntry,
          Function.update_eq_self_iff.mpr hat.symm]
        exact hrep.probing
      · refine hrep.stores.setEntry hrep.shape hidx value hkey (Or.inr hat) ?_
        intro t ht hne hsame
        exact hne (hrep.probing.unique t ht idx hidx (hsame ▸ hkey) (hsame.trans hat.symm))

/-- Inserting the reserved key stores nothing. -/
theorem Represents.insert_empty (hrep : Represents policy bits map contents)
    (hfree : ∃ idx < 2 ^ bits, map.keyAt policy idx = policy.empty) (value : V) :
    ∃ map', map.insert policy policy.empty value = some map' ∧
      Represents policy bits map' contents := by
  obtain ⟨idx, hidx, hprobe, hempty, _⟩ :=
    hrep.probe_absent hfree hrep.contents_empty
  have hsize : idx < map.table.size := hrep.shape.size ▸ hidx
  refine ⟨map.setEntry idx ⟨policy.empty, value⟩, by simp [FlatHashMap.insert, hprobe],
    hrep.shape.setEntry _ _, ?_, ?_⟩
  · rw [keyAt_setEntry hsize, mask_setEntry, Function.update_eq_self_iff.mpr hempty.symm]
    exact hrep.probing
  · intro key stored
    rw [hrep.stores key stored, entryAt_setEntry hsize]
    refine and_congr_right fun hne => exists_congr fun t => and_congr_right fun _ => ?_
    by_cases heq : t = idx
    · subst heq
      rw [Function.update_self]
      constructor <;> intro hentry
      · exact absurd ((congrArg MapEntry.key hentry).symm.trans hempty) hne
      · exact absurd (congrArg MapEntry.key hentry).symm hne
    · rw [Function.update_of_ne heq]

/-- Clearing the entry of a key removes the key. -/
theorem Represents.stores_clearKey (hrep : Represents policy bits map contents) {idx : ℕ}
    (hidx : idx < 2 ^ bits) {key : K} (hkey : key ≠ policy.empty)
    (hat : map.keyAt policy idx = key) :
    Stores policy bits (map.clearKey policy idx) (Function.update contents key none) := by
  have hsize : idx < map.table.size := hrep.shape.size ▸ hidx
  intro other stored
  rw [clearKey_eq_setEntry hsize, entryAt_setEntry hsize]
  by_cases heq : other = key
  · subst heq
    rw [Function.update_self]
    refine iff_of_false (by simp) ?_
    rintro ⟨_, t, ht, hentry⟩
    by_cases htidx : t = idx
    · rw [htidx, Function.update_self] at hentry
      exact hkey (congrArg MapEntry.key hentry).symm
    · rw [Function.update_of_ne htidx] at hentry
      have hkeyAt : map.keyAt policy t = other := congrArg MapEntry.key hentry
      exact htidx (hrep.probing.unique t ht idx hidx (hkeyAt ▸ hkey) (hkeyAt.trans hat.symm))
  · rw [Function.update_of_ne heq, hrep.stores other stored]
    refine and_congr_right fun hne => exists_congr fun t => and_congr_right fun _ => ?_
    by_cases htidx : t = idx
    · subst htidx
      rw [Function.update_self]
      constructor <;> intro hentry
      · exact absurd ((congrArg MapEntry.key hentry).symm.trans hat) heq
      · exact absurd (congrArg MapEntry.key hentry).symm hne
    · rw [Function.update_of_ne htidx]

/-! The three outcomes of a pass of the deletion loop, in terms of positions on the ring. -/

section Passes

variable {hole scan : ℕ}

theorem shiftPass_of_free (hshape : Shape policy bits map) (hscan : scan < 2 ^ bits)
    (hfree : map.keyAt policy (ringNext (2 ^ bits) scan) = policy.empty) :
    shiftPass policy (map, hole, scan) = .inr map := by
  simp only [shiftPass, hshape.next hscan]
  rw [if_pos hfree]

theorem shiftPass_of_full (hshape : Shape policy bits map) (hhole : hole < 2 ^ bits)
    (hscan : scan < 2 ^ bits)
    (hfull : map.keyAt policy (ringNext (2 ^ bits) scan) ≠ policy.empty) :
    shiftPass policy (map, hole, scan) =
      if ringDist (2 ^ bits) hole (ringNext (2 ^ bits) scan) ≤
          ringDist (2 ^ bits) (policy.hash map.mask (map.keyAt policy (ringNext (2 ^ bits) scan)))
            (ringNext (2 ^ bits) scan) then
        .inl ((map.setEntry hole (map.entryAt policy (ringNext (2 ^ bits) scan))).clearKey policy
          (ringNext (2 ^ bits) scan), ringNext (2 ^ bits) scan, ringNext (2 ^ bits) scan)
      else .inl (map, hole, ringNext (2 ^ bits) scan) := by
  have hnext : ringNext (2 ^ bits) scan < 2 ^ bits := ringNext_lt hscan
  simp only [shiftPass, hshape.next hscan, hshape.dist hhole hnext,
    hshape.dist (hshape.hash_lt _) hnext]
  rw [if_neg hfull]

end Passes

/-- The deletion loop closes the hole and keeps the stored pairs. -/
theorem shift_spec (hshape : Shape policy bits map) {i : ℕ}
    (hgap : Gap (2 ^ bits) (policy.hash map.mask) policy.empty (map.keyAt policy) i i)
    (hstores : Stores policy bits map contents) :
    ∃ map', iterate (fun state => some (shiftPass policy state)) (map, i, i) = some map' ∧
      Represents policy bits map' contents := by
  refine iterate_total
    (fun state : FlatHashMap K V × ℕ × ℕ => Shape policy bits state.1 ∧
      Gap (2 ^ bits) (policy.hash state.1.mask) policy.empty (state.1.keyAt policy)
        state.2.1 state.2.2 ∧
      Stores policy bits state.1 contents)
    (fun map' => Represents policy bits map' contents)
    (fun state => remaining (2 ^ bits) (policy.hash state.1.mask) policy.empty
      (state.1.keyAt policy) state.2.1 state.2.2) ?_ (map, i, i)
    ⟨hshape, hgap, hstores⟩
  rintro ⟨map, hole, scan⟩ ⟨hshape, hgap, hstores⟩
  have hnext : ringNext (2 ^ bits) scan < 2 ^ bits := ringNext_lt hgap.scan_lt
  by_cases hfree : map.keyAt policy (ringNext (2 ^ bits) scan) = policy.empty
  · right
    exact ⟨map, by rw [shiftPass_of_free hshape hgap.scan_lt hfree], hshape,
      hgap.close hshape.hash_lt hfree, hstores⟩
  left
  rw [shiftPass_of_full hshape hgap.hole_lt hgap.scan_lt hfree]
  split
  case isTrue hneeds =>
    refine ⟨_, rfl, ⟨(hshape.setEntry _ _).clearKey _, ?_, ?_⟩, ?_⟩
    · rw [mask_clearKey, mask_setEntry, keyAt_move hshape hgap.hole_lt hnext]
      exact hgap.move hshape.hash_lt hfree hneeds
    · exact hstores.moveEntry hshape hgap.hole_lt hnext (hgap.next_ne_hole hfree).symm
        hgap.hole_empty
    · dsimp only
      rw [mask_clearKey, mask_setEntry, keyAt_move hshape hgap.hole_lt hnext]
      exact hgap.remaining_move hshape.hash_lt hfree hneeds
  case isFalse hstays =>
    exact ⟨_, rfl, ⟨hshape, hgap.skip hfree (Nat.lt_of_not_le hstays), hstores⟩,
      hgap.remaining_skip hfree⟩

/-- `erase` of a stored key forgets the key and nothing else, also in a full table. -/
theorem Represents.erase_stored (hrep : Represents policy bits map contents) {key : K}
    (hstored : contents key ≠ none) :
    ∃ map', map.erase policy key = some map' ∧
      Represents policy bits map' (Function.update contents key none) := by
  obtain ⟨value, hvalue⟩ := Option.ne_none_iff_exists'.mp hstored
  obtain ⟨idx, hidx, hprobe, hentry⟩ := hrep.probe_stored hvalue
  have hkey : key ≠ policy.empty := ((hrep.stores key value).mp hvalue).1
  have hat : map.keyAt policy idx = key := congrArg MapEntry.key hentry
  have hfull : map.keyAt policy idx ≠ policy.empty := hat ▸ hkey
  have hgap := hrep.probing.openGap hidx
  rw [← keyAt_clearKey (hrep.shape.size ▸ hidx)] at hgap
  obtain ⟨map', hloop, hrep'⟩ := shift_spec (hrep.shape.clearKey idx) hgap
    (hrep.stores_clearKey hidx hkey hat)
  exact ⟨map', by simp [FlatHashMap.erase, hprobe, hfull, hloop], hrep'⟩

/-- `erase` forgets the key and nothing else. -/
theorem Represents.erase (hrep : Represents policy bits map contents)
    (hfree : ∃ idx < 2 ^ bits, map.keyAt policy idx = policy.empty) (key : K) :
    ∃ map', map.erase policy key = some map' ∧
      Represents policy bits map' (Function.update contents key none) := by
  by_cases hcontents : contents key = none
  · obtain ⟨idx, _, hprobe, hempty, _⟩ := hrep.probe_absent hfree hcontents
    refine ⟨map, by simp [FlatHashMap.erase, hprobe, hempty], ?_⟩
    rwa [Function.update_eq_self_iff.mpr hcontents.symm]
  · exact hrep.erase_stored hcontents

end Orderbook.FlatHashMap
