/-
# Histories of map calls

A client of the map sees a sequence of calls and the answers to its searches.
The specification is read off the history alone: the value of a key is that of
the most recent insertion not followed by a deletion. The map answers so for
every power-of-two capacity and every hash into the table, as long as the live
keys leave one entry free.
-/

import Orderbook.Map.FiniteMap

namespace Orderbook

open Orderbook.Math

variable {K V : Type} [DecidableEq K] [Inhabited V]

/-- A call of the map's interface. -/
inductive MapCall (K V : Type)
  | insert (key : K) (value : V)
  | erase (key : K)
  | find (key : K)
  deriving DecidableEq, Repr

namespace MapCall

/-- The key a call is about. -/
def key : MapCall K V → K
  | insert key _ => key
  | erase key => key
  | find key => key

/-- What a call does to the value of one key. -/
def effect (call : MapCall K V) (key : K) (value : Option V) : Option V :=
  match call with
  | insert target new => if target = key then some new else value
  | erase target => if target = key then none else value
  | find _ => value

/-- The value of the most recent insertion of `key` that no deletion followed. -/
def latest (history : List (MapCall K V)) (key : K) : Option V :=
  history.foldl (fun value call => call.effect key value) none

/-- Make a call. Only searches have an answer. -/
def perform (policy : HashPolicy K) (map : FlatHashMap K V) :
    MapCall K V → Option (FlatHashMap K V × Option V)
  | insert key value => (map.insert policy key value).map fun map => (map, none)
  | erase key => (map.erase policy key).map fun map => (map, none)
  | find key => (map.find policy key).map fun found => (map, found)

omit [Inhabited V] in
@[simp]
theorem latest_snoc (history : List (MapCall K V)) (call : MapCall K V) (key : K) :
    latest (history ++ [call]) key = call.effect key (latest history key) := by
  simp [latest]

omit [Inhabited V] in
/-- A key is live only if some call was about it. -/
theorem mem_of_latest_ne_none {history : List (MapCall K V)} {key : K}
    (hlive : latest history key ≠ none) : key ∈ history.map MapCall.key := by
  induction history using List.reverseRecOn with
  | nil => exact absurd rfl hlive
  | append_singleton history call ih =>
      rw [latest_snoc] at hlive
      rw [List.map_append, List.mem_append]
      by_cases hcall : call.key = key
      · exact Or.inr (by simp [hcall])
      · refine Or.inl (ih ?_)
        cases call <;> simp_all [effect, MapCall.key]

omit [Inhabited V] in
/-- There are at most as many live keys as calls. -/
theorem ncard_live_le (history : List (MapCall K V)) :
    Set.ncard {key | latest history key ≠ none} ≤ history.length := by
  have hsubset : {key | latest history key ≠ none} ⊆
      ((history.map MapCall.key).toFinset : Set K) := by
    intro key hkey
    simpa using mem_of_latest_ne_none hkey
  calc
    Set.ncard {key | latest history key ≠ none} ≤
        Set.ncard ((history.map MapCall.key).toFinset : Set K) :=
      Set.ncard_le_ncard hsubset (Finset.finite_toSet _)
    _ = (history.map MapCall.key).toFinset.card := Set.ncard_coe_finset _
    _ ≤ (history.map MapCall.key).length := List.toFinset_card_le _
    _ = history.length := List.length_map _

/-- One call on a table with a free entry: it ends, does its effect and gives
its answer. -/
theorem perform_spec {policy : HashPolicy K} {bits : ℕ} {map : FlatHashMap K V}
    {contents : K → Option V} (hrep : map.Represents policy bits contents)
    (hfree : ∃ idx < 2 ^ bits, map.keyAt policy idx = policy.empty)
    (call : MapCall K V) (hkey : call.key ≠ policy.empty) :
    ∃ map' answer, call.perform policy map = some (map', answer) ∧
      map'.Represents policy bits (fun key => call.effect key (contents key)) ∧
      ∀ key, call = find key → answer = contents key := by
  cases call with
  | insert target value =>
      change target ≠ policy.empty at hkey
      obtain ⟨map', hinsert, hrep'⟩ := hrep.insert hfree hkey value
      refine ⟨map', none, by simp [perform, hinsert], ?_, by simp⟩
      convert hrep' using 1
      funext key
      simp [effect, Function.update_apply, eq_comm]
  | erase target =>
      obtain ⟨map', herase, hrep'⟩ := hrep.erase hfree target
      refine ⟨map', none, by simp [perform, herase], ?_, by simp⟩
      convert hrep' using 1
      funext key
      simp [effect, Function.update_apply, eq_comm]
  | find target =>
      refine ⟨map, contents target, by simp [perform, hrep.find hfree], hrep, ?_⟩
      rintro key ⟨⟩
      rfl

end MapCall

/-- A hash that stays inside a table of `2 ^ bits` entries. -/
def HashPolicy.InRange (policy : HashPolicy K) (bits : ℕ) : Prop :=
  ∀ key, policy.hash (2 ^ bits - 1) key < 2 ^ bits

omit [DecidableEq K] in
/-- A hash that is cut by the mask of the table stays inside it. -/
theorem HashPolicy.inRange_of_mask {policy : HashPolicy K} (mixed : K → ℕ)
    (hmask : ∀ mask key, policy.hash mask key = mixed key &&& mask) (bits : ℕ) :
    policy.InRange bits := by
  intro key
  rw [hmask, Nat.and_two_pow_sub_one_eq_mod]
  exact Nat.mod_lt _ (Nat.two_pow_pos bits)

theorem HashPolicy.identity_inRange (bits : ℕ) : HashPolicy.identity.InRange bits :=
  inRange_of_mask (fun key => key.toNat) (fun _ _ => rfl) bits

theorem HashPolicy.multiplicative_inRange (bits : ℕ) : HashPolicy.multiplicative.InRange bits :=
  inRange_of_mask (fun key => (key * 11400714819323198485).toNat) (fun _ _ => rfl) bits

/-- Every history of calls during which the live keys leave an entry free runs to
its end; afterwards each live key is in exactly one entry, every search in the
history was answered with the latest value at its time, and every further search
would be. -/
theorem mapCalls_faithful (policy : HashPolicy K) {bits : ℕ} (hbits : bits < 64)
    (hhash : policy.InRange bits) (history : List (MapCall K V))
    (hkeys : ∀ call ∈ history, call.key ≠ policy.empty)
    (hlive : ∀ past, past <+: history →
      Set.ncard {key | MapCall.latest past key ≠ none} ≤ 2 ^ bits - 1) :
    ∃ map answers,
      runList (MapCall.perform policy) (FlatHashMap.create policy (2 ^ bits)) history =
        some (map, answers) ∧
      (∀ key, MapCall.latest history key ≠ none →
        ∃! idx, idx < 2 ^ bits ∧ map.keyAt policy idx = key) ∧
      (∀ past key future, history = past ++ .find key :: future →
        answers[past.length]? = some (MapCall.latest past key)) ∧
      ∀ key, key ≠ policy.empty → map.find policy key = some (MapCall.latest history key) := by
  have hroom : ∀ (past : List (MapCall K V)) (map : FlatHashMap K V), past <+: history →
      map.Represents policy bits (MapCall.latest past) →
      ∃ idx < 2 ^ bits, map.keyAt policy idx = policy.empty := by
    intro past map hpast hrep
    apply FlatHashMap.exists_free_of_count_lt hrep.shape
    have := hlive past hpast
    have := Nat.two_pow_pos bits
    rw [hrep.count_eq]
    omega
  have hresult : ∃ map answers,
      runList (MapCall.perform policy) (FlatHashMap.create policy (2 ^ bits)) history =
        some (map, answers) ∧
      map.Represents policy bits (MapCall.latest history) ∧
      ∀ past key future, history = past ++ .find key :: future →
        answers[past.length]? = some (MapCall.latest past key) := by
    refine runList_induction
      (fun past (map : FlatHashMap K V) answers =>
        map.Represents policy bits (MapCall.latest past) ∧
        ∀ before key after, past = before ++ .find key :: after →
          answers[before.length]? = some (MapCall.latest before key))
      ⟨FlatHashMap.represents_create hbits.le hhash, by simp⟩ ?_
    rintro past call map answers hprefix hrun ⟨hrep, hanswers⟩
    have hmem : call ∈ history := hprefix.subset (by simp)
    have hpast := (List.prefix_append past [call]).trans hprefix
    obtain ⟨map', answer, hperform, hrep', hanswer⟩ :=
      MapCall.perform_spec hrep (hroom past map hpast hrep) call (hkeys call hmem)
    refine ⟨map', answer, hperform, fun _ => ⟨?_, ?_⟩⟩
    · have hlatest : MapCall.latest (past ++ [call]) =
          fun key => call.effect key (MapCall.latest past key) :=
        funext (MapCall.latest_snoc past call)
      rwa [hlatest]
    · intro before key after hsplit
      have hlength := length_of_runList hrun
      rcases List.eq_nil_or_concat after with rfl | ⟨init, last, rfl⟩
      · obtain ⟨rfl, hcall⟩ := List.append_inj' hsplit rfl
        rw [← hlength, List.getElem?_concat_length, hanswer key (by simpa using hcall)]
      · rw [List.concat_eq_append, ← List.cons_append, ← List.append_assoc] at hsplit
        obtain ⟨rfl, _⟩ := List.append_inj' hsplit rfl
        rw [List.getElem?_append_left, hanswers before key init rfl]
        simp [hlength]
  obtain ⟨map, answers, hrun, hrep, hanswers⟩ := hresult
  refine ⟨map, answers, hrun, ?_, hanswers, fun key _ => ?_⟩
  · intro key hkey
    obtain ⟨hne, idx, hidx, hat⟩ := hrep.contents_ne_none_iff.mp hkey
    refine ⟨idx, ⟨hidx, hat⟩, ?_⟩
    rintro other ⟨hother, hotherAt⟩
    exact hrep.probing.unique other hother idx hidx (hotherAt ▸ hne)
      (hotherAt.trans hat.symm)
  · exact hrep.find (hroom history map (List.prefix_refl history) hrep) key

/-- A deletion in a chain that wraps around the end of an eight-entry table. -/
theorem mapCalls_faithful_wrapAround :
    ∃ map answers,
      runList (MapCall.perform .identity)
        (FlatHashMap.create .identity (2 ^ 3) : FlatHashMap UInt64 UInt16)
        [.insert 7 70, .insert 0 0, .insert 1 10, .insert 2 20, .insert 15 150, .erase 0] =
          some (map, answers) ∧
      map.find .identity 15 = some (some 150) := by
  obtain ⟨map, answers, hrun, _, _, hfind⟩ := mapCalls_faithful (V := UInt16) .identity
    (show 3 < 64 by decide) (HashPolicy.identity_inRange 3)
    [.insert 7 70, .insert 0 0, .insert 1 10, .insert 2 20, .insert 15 150, .erase 0]
    (by decide)
    (fun past hpast => (MapCall.ncard_live_le past).trans
      (hpast.length_le.trans (by decide)))
  exact ⟨map, answers, hrun, hfind 15 (by decide)⟩

end Orderbook
