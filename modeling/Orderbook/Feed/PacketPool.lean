/-
# The packet pool

A fixed array of buffers. The free ones are chained through their links, head
first. Acquiring takes the head and releasing makes a slot the new head; both are
one step here, the exchange of the head that succeeds.
-/

import Orderbook.Feed.Consumer
import Orderbook.Math.Segment

namespace Orderbook

open Orderbook.Math

/-- The slots with their links, and the head of the free list. The packet in a slot
and its link are kept apart. -/
structure PacketPool where
  slots : UInt32 → BufferSlot
  nextFree : UInt32 → UInt32
  freeHead : UInt32

namespace PacketPool

/-- The indices of the slots. -/
def indices (numSlots : ℕ) : List UInt32 := (List.range numSlots).map UInt32.ofNat

/-- The constructor links all slots in order. -/
def create (numSlots : ℕ) : PacketPool where
  slots _ := { data := fun _ => 0, length := 0 }
  nextFree idx :=
    if idx.toNat + 1 < numSlots then UInt32.ofNat (idx.toNat + 1) else kPoolInvalid
  freeHead := 0

def acquire (pool : PacketPool) : UInt32 × PacketPool :=
  if pool.freeHead ≠ kPoolInvalid then
    (pool.freeHead, { pool with freeHead := pool.nextFree pool.freeHead })
  else (kPoolInvalid, pool)

def release (pool : PacketPool) (idx : UInt32) : PacketPool :=
  { pool with
    nextFree := fun other => if other = idx then pool.freeHead else pool.nextFree other
    freeHead := idx }

/-- Write to a slot through the reference that `operator[]` gives. -/
def modify (pool : PacketPool) (idx : UInt32) (write : BufferSlot → BufferSlot) : PacketPool :=
  { pool with
    slots := fun other => if other = idx then write (pool.slots idx) else pool.slots other }

@[simp]
theorem slots_release (pool : PacketPool) (idx : UInt32) :
    (pool.release idx).slots = pool.slots := rfl

@[simp]
theorem slots_acquire (pool : PacketPool) : pool.acquire.2.slots = pool.slots := by
  unfold acquire
  split <;> rfl

theorem slots_modify_of_ne {idx other : UInt32} (hne : other ≠ idx) (pool : PacketPool)
    (write : BufferSlot → BufferSlot) :
    (pool.modify idx write).slots other = pool.slots other :=
  if_neg hne

@[simp]
theorem slots_modify_self (pool : PacketPool) (idx : UInt32) (write : BufferSlot → BufferSlot) :
    (pool.modify idx write).slots idx = write (pool.slots idx) :=
  if_pos rfl

/-- The free list visits exactly `free`, head first. -/
structure FreeList (pool : PacketPool) (free : List UInt32) : Prop where
  head : pool.freeHead = free.head?.getD kPoolInvalid
  path : Path pool.nextFree free kPoolInvalid

theorem FreeList.modify {pool : PacketPool} {free : List UInt32} (hfree : pool.FreeList free)
    (idx : UInt32) (write : BufferSlot → BufferSlot) : (pool.modify idx write).FreeList free :=
  ⟨hfree.head, hfree.path⟩

/-- Releasing a slot puts it in front. -/
theorem FreeList.release {pool : PacketPool} {free : List UInt32} {idx : UInt32}
    (hfree : pool.FreeList free) (hfresh : idx ∉ free) :
    (pool.release idx).FreeList (idx :: free) := by
  refine ⟨rfl, (if_pos rfl).trans hfree.head, hfree.path.congr ?_⟩
  intro other hother
  have hne : other ≠ idx := fun hsame => hfresh (hsame ▸ hother)
  exact if_neg hne

/-- Acquiring takes the slot in front. -/
theorem FreeList.acquire {pool : PacketPool} {free : List UInt32} {idx : UInt32}
    (hfree : pool.FreeList (idx :: free)) (hvalid : idx ≠ kPoolInvalid) :
    pool.acquire.1 = idx ∧ pool.acquire.2.FreeList free := by
  have hhead : pool.freeHead = idx := hfree.head
  unfold PacketPool.acquire
  rw [hhead, if_pos hvalid]
  exact ⟨rfl, hfree.path.1, hfree.path.2⟩

/-- An empty pool has nothing to give and stays as it is. -/
theorem FreeList.acquire_nil {pool : PacketPool} (hfree : pool.FreeList []) :
    pool.acquire = (kPoolInvalid, pool) :=
  if_neg fun hvalid => hvalid hfree.head

theorem mem_indices {numSlots : ℕ} (hslots : numSlots < 2 ^ 32) {idx : UInt32} :
    idx ∈ indices numSlots ↔ idx.toNat < numSlots := by
  rw [indices, List.mem_map]
  constructor
  · rintro ⟨i, hi, rfl⟩
    rw [List.mem_range] at hi
    rwa [UInt32.toNat_ofNat_of_lt' (by change i < 2 ^ 32; omega)]
  · intro hless
    exact ⟨idx.toNat, List.mem_range.mpr hless, UInt32.ofNat_toNat⟩

theorem ne_kPoolInvalid_of_mem {numSlots : ℕ} (hslots : numSlots < 2 ^ 32) {idx : UInt32}
    (hidx : idx ∈ indices numSlots) : idx ≠ kPoolInvalid := by
  rw [mem_indices hslots] at hidx
  intro hsame
  have hinvalid : kPoolInvalid.toNat = 2 ^ 32 - 1 := by decide
  rw [hsame, hinvalid] at hidx
  omega

theorem nodup_indices {numSlots : ℕ} (hslots : numSlots < 2 ^ 32) : (indices numSlots).Nodup := by
  refine List.Nodup.map_on ?_ List.nodup_range
  intro i hi j hj hsame
  rw [List.mem_range] at hi hj
  have hnat := congrArg UInt32.toNat hsame
  rwa [UInt32.toNat_ofNat_of_lt' (by change i < 2 ^ 32; omega),
    UInt32.toNat_ofNat_of_lt' (by change j < 2 ^ 32; omega)] at hnat

/-- A new pool has all its slots in the free list. -/
theorem freeList_create {numSlots : ℕ} (hsome : 0 < numSlots) (hslots : numSlots < 2 ^ 32) :
    (create numSlots).FreeList (indices numSlots) := by
  have hpath : ∀ count first, first + count = numSlots →
      Path (create numSlots).nextFree ((List.range' first count).map UInt32.ofNat)
        kPoolInvalid := by
    intro count
    induction count with
    | zero => exact fun _ _ => path_nil _ _
    | succ count ih =>
        intro first hlast
        rw [List.range'_succ, List.map_cons, path_cons]
        refine ⟨?_, ih (first + 1) (by omega)⟩
        have hfirst : (UInt32.ofNat first).toNat = first :=
          UInt32.toNat_ofNat_of_lt' (by change first < 2 ^ 32; omega)
        change (if (UInt32.ofNat first).toNat + 1 < numSlots then
          UInt32.ofNat ((UInt32.ofNat first).toNat + 1) else kPoolInvalid) = _
        rw [hfirst]
        cases count with
        | zero => rw [if_neg (by omega)]; rfl
        | succ count => rw [if_pos (by omega)]; rfl
  have hall := hpath numSlots 0 (by omega)
  rw [← List.range_eq_range'] at hall
  refine ⟨?_, hall⟩
  obtain ⟨count, rfl⟩ : ∃ count, numSlots = count + 1 := ⟨numSlots - 1, by omega⟩
  rw [indices, List.range_succ_eq_map]
  rfl

end PacketPool

end Orderbook
