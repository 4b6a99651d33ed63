/-
# The open-addressed order map

Linear probing over a power-of-two table, with `EMPTY` marking free entries.
Deletion closes the hole it leaves by moving later entries back, cyclically over
the end of the table. The probe loops stop only at an empty entry or at the key,
so on a full table they need not stop at all: every operation is a loop that may
diverge.

Indices are `size_t`; the one place where the arithmetic wraps is the cyclic
distance in the deletion, which subtracts before it masks.
-/

import Orderbook.Math.Iterate
import Mathlib.Algebra.Group.Nat.Defs
import Mathlib.Data.Finset.Card

namespace Orderbook

open Orderbook.Math

/-- The template parameters of the map: the key that marks a free entry and the
hash of a key under the table's mask. -/
structure HashPolicy (K : Type) where
  empty : K
  hash : ℕ → K → ℕ

/-- The policy of the order map: identity hashing of 64-bit keys, with the
largest key marking a free entry. -/
def HashPolicy.identity : HashPolicy UInt64 where
  empty := 0xFFFFFFFFFFFFFFFF
  hash mask key := key.toNat &&& mask

/-- The policy of general keys: a Fibonacci multiply before the mask. -/
def HashPolicy.multiplicative : HashPolicy UInt64 where
  empty := 0xFFFFFFFFFFFFFFFF
  hash mask key := (key * 11400714819323198485).toNat &&& mask

/-- A table entry. -/
structure MapEntry (K V : Type) where
  key : K
  value : V
  deriving DecidableEq, Repr

/-- The table and its index mask. -/
structure FlatHashMap (K V : Type) where
  mask : ℕ
  table : Array (MapEntry K V)
  deriving DecidableEq, Repr

/-- `size_t` subtraction. -/
def sizeSub (a b : ℕ) : ℕ := (a + 2 ^ 64 - b) % 2 ^ 64

namespace FlatHashMap

variable {K V : Type} [DecidableEq K] [Inhabited V] (policy : HashPolicy K)

/-- The constructor: a table of `capacity` free entries. -/
def create (capacity : ℕ) : FlatHashMap K V where
  mask := capacity - 1
  table := Array.replicate capacity ⟨policy.empty, default⟩

/-- `table[idx]`. -/
def entryAt (map : FlatHashMap K V) (idx : ℕ) : MapEntry K V :=
  (map.table[idx]?).getD ⟨policy.empty, default⟩

/-- `table[idx].key`. -/
def keyAt (map : FlatHashMap K V) (idx : ℕ) : K := (map.entryAt policy idx).key

/-- Write `table[idx]`. -/
def setEntry (map : FlatHashMap K V) (idx : ℕ) (entry : MapEntry K V) : FlatHashMap K V :=
  { map with table := map.table.modify idx fun _ => entry }

/-- Write `table[idx].key = EMPTY`. -/
def clearKey (map : FlatHashMap K V) (idx : ℕ) : FlatHashMap K V :=
  { map with table := map.table.modify idx fun entry => { entry with key := policy.empty } }

/-- The probe loop that every operation starts with: from the key's home slot to
the first entry that is free or holds the key. -/
def probe (map : FlatHashMap K V) (key : K) : Option ℕ :=
  loopWhile
    (fun idx => map.keyAt policy idx ≠ policy.empty && map.keyAt policy idx ≠ key)
    (fun idx => some ((idx + 1) &&& map.mask))
    (policy.hash map.mask key)

def insert (map : FlatHashMap K V) (key : K) (value : V) : Option (FlatHashMap K V) :=
  (map.probe policy key).map fun idx => map.setEntry idx ⟨key, value⟩

/-- `find`: a null pointer is the inner `none`. -/
def find (map : FlatHashMap K V) (key : K) : Option (Option V) :=
  (map.probe policy key).map fun idx =>
    if map.keyAt policy idx = policy.empty then none
    else some (map.entryAt policy idx).value

/-- One pass of the deletion loop over the table, the hole `i` and the scan
position `j`: stop at a free entry, move the entry at `j` into the hole when its
home is not cyclically in `(i, j]`, and go on scanning. -/
def shiftPass (state : FlatHashMap K V × ℕ × ℕ) :
    (FlatHashMap K V × ℕ × ℕ) ⊕ FlatHashMap K V :=
  let (map, i, j) := state
  let j := (j + 1) &&& map.mask
  if map.keyAt policy j = policy.empty then .inr map
  else
    let home := policy.hash map.mask (map.keyAt policy j)
    if sizeSub j home &&& map.mask ≥ sizeSub j i &&& map.mask then
      .inl ((map.setEntry i (map.entryAt policy j)).clearKey policy j, j, j)
    else .inl (map, i, j)

def erase (map : FlatHashMap K V) (key : K) : Option (FlatHashMap K V) :=
  (map.probe policy key).bind fun i =>
    if map.keyAt policy i = policy.empty then some map
    else iterate (fun state => some (shiftPass policy state)) (map.clearKey policy i, i, i)

/-- The number of entries in use. -/
def count (map : FlatHashMap K V) : ℕ :=
  ((Finset.range map.table.size).filter fun idx => map.keyAt policy idx ≠ policy.empty).card

end FlatHashMap

end Orderbook
