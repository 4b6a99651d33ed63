/-
# Histories of the order arena

A client of the arena allocates slots, frees slots that it holds and writes to them
whatever it likes, their links included. The links of free slots are the free list, so
the arena is safe only because a client does not write to a slot that it has freed.

Then every slot of the arena is either held or free. An allocation never hands out a
slot that is held, and the arena grows only when every slot is held: its size is the
largest number of slots that were ever held at once.
-/

import Orderbook.Book.OrderPool

namespace Orderbook

open Orderbook.Math

/-- A call of a client. A write may change every field of the node. -/
inductive PoolCall
  | allocate (order : Order)
  | free (idx : UInt32)
  | write (idx : UInt32) (edit : PoolNode → PoolNode)

/-- The arena, the slots that its client holds, and the largest number of slots held at
once so far. -/
structure PoolClient where
  pool : OrderPool := {}
  allocated : List UInt32 := []
  peak : ℕ := 0

namespace PoolClient

/-- Only held slots are freed or written, and fewer than `2 ^ 32 - 1` are held at once. -/
def Allowed (client : PoolClient) : PoolCall → Prop
  | .allocate _ => client.allocated.length + 1 < 2 ^ 32 - 1
  | .free idx => idx ∈ client.allocated
  | .write idx _ => idx ∈ client.allocated

/-- Make a call. -/
def perform (client : PoolClient) : PoolCall → PoolClient
  | .allocate order =>
      { pool := (client.pool.allocate order).2
        allocated := (client.pool.allocate order).1 :: client.allocated
        peak := max client.peak (client.allocated.length + 1) }
  | .free idx =>
      { client with pool := client.pool.free idx, allocated := client.allocated.erase idx }
  | .write idx edit => { client with pool := client.pool.modify idx edit }

/-- What a client reaches from an empty arena by allowed calls. -/
inductive Reached : PoolClient → Prop
  | start : Reached {}
  | call {client : PoolClient} (call : PoolCall) (earlier : Reached client)
      (hallowed : client.Allowed call) : Reached (client.perform call)

/-- Every slot of the arena is held or free. -/
structure Partitioned (client : PoolClient) (free : List UInt32) : Prop where
  freeList : client.pool.FreeList free
  nodup : (free ++ client.allocated).Nodup
  mem : ∀ idx, idx ∈ free ++ client.allocated ↔ idx.toNat < client.pool.nodes.size
  length : (free ++ client.allocated).length = client.pool.nodes.size
  size : client.pool.nodes.size = client.peak
  bound : client.pool.nodes.size < 2 ^ 32 - 1

namespace Partitioned

variable {client : PoolClient} {free : List UInt32}

theorem initial : Partitioned {} [] where
  freeList := ⟨rfl, trivial⟩
  nodup := List.nodup_nil
  mem idx := iff_of_false List.not_mem_nil (Nat.not_lt_zero _)
  length := rfl
  size := rfl
  bound := by decide

/-- No slot of the arena has the null index. -/
theorem ne_invalid (hpart : Partitioned client free) {idx : UInt32}
    (hidx : idx.toNat < client.pool.nodes.size) : idx ≠ INVALID_INDEX := by
  intro hinvalid
  have hbound := hpart.bound
  have hlast : idx.toNat = 2 ^ 32 - 1 := by
    rw [hinvalid]
    rfl
  omega

/-- What an allocation does when it is allowed. -/
theorem allocate (hpart : Partitioned client free) (order : Order)
    (hallowed : client.Allowed (.allocate order)) :
    ∃ free', client.pool.Allocated order free (client.pool.allocate order).1
        (client.pool.allocate order).2 free' ∧
      (client.pool.allocate order).1 ≠ INVALID_INDEX ∧
      (client.pool.allocate order).1 ∉ client.allocated := by
  cases free with
  | nil =>
      have hsize : client.allocated.length = client.pool.nodes.size := hpart.length
      have hbound : client.allocated.length + 1 < 2 ^ 32 - 1 := hallowed
      obtain ⟨hidx, hallocated⟩ := OrderPool.allocate_of_grow order hpart.freeList (by omega)
      have hnat : (UInt32.ofNat client.pool.nodes.size).toNat = client.pool.nodes.size :=
        UInt32.toNat_ofNat_of_lt' (by change _ < 2 ^ 32; omega)
      rw [hidx]
      refine ⟨[], hallocated, fun hinvalid => ?_, fun hmem => ?_⟩
      · have hlast : client.pool.nodes.size = 2 ^ 32 - 1 := by
          rw [← hnat, hinvalid]
          rfl
        omega
      · have hless := (hpart.mem _).mp hmem
        rw [hnat] at hless
        exact Nat.lt_irrefl _ hless
  | cons idx rest =>
      have hless : idx.toNat < client.pool.nodes.size := (hpart.mem idx).mp List.mem_cons_self
      have hnodup := hpart.nodup
      rw [List.cons_append, List.nodup_cons, List.mem_append, not_or] at hnodup
      obtain ⟨hfresh, _⟩ := hnodup
      obtain ⟨hidx, hallocated⟩ := OrderPool.allocate_of_free order hpart.freeList
        (hpart.ne_invalid hless) hfresh.1 hless
      rw [hidx]
      exact ⟨rest, hallocated, hpart.ne_invalid hless, hfresh.2⟩

/-- An allocation moves a slot from the free ones to the held ones, or adds a held one. -/
theorem perform_allocate (hpart : Partitioned client free) (order : Order)
    (hallowed : client.Allowed (.allocate order)) :
    ∃ free', Partitioned (client.perform (.allocate order)) free' := by
  obtain ⟨free', hallocated, _, hfresh⟩ := hpart.allocate order hallowed
  have hlength := hpart.length
  have hsize := hpart.size
  have hbound := hpart.bound
  have hroom : client.allocated.length + 1 < 2 ^ 32 - 1 := hallowed
  rw [List.length_append] at hlength
  rcases hallocated.source with ⟨rfl, hsame⟩ | ⟨rfl, rfl, hnew, hgrown⟩
  · have hperm : (free' ++ (client.pool.allocate order).1 :: client.allocated).Perm
        ((client.pool.allocate order).1 :: free' ++ client.allocated) := List.perm_middle
    refine ⟨free', hallocated.freeList, hperm.nodup_iff.mpr hpart.nodup, fun idx => ?_, ?_, ?_, ?_⟩
    · exact hperm.mem_iff.trans ((hpart.mem idx).trans (by rw [← hsame]; rfl))
    · exact hperm.length_eq.trans (hpart.length.trans hsame.symm)
    · change (client.pool.allocate order).2.nodes.size =
        max client.peak (client.allocated.length + 1)
      rw [List.length_cons] at hlength
      omega
    · exact hsame ▸ hbound
  · have hheld : client.allocated.length = client.pool.nodes.size := by simpa using hlength
    refine ⟨[], hallocated.freeList, List.nodup_cons.mpr ⟨hfresh, hpart.nodup⟩, fun idx => ?_, ?_,
      ?_, ?_⟩
    · change idx ∈ _ :: client.allocated ↔ idx.toNat < (client.pool.allocate order).2.nodes.size
      have hmem : idx ∈ client.allocated ↔ _ := hpart.mem idx
      rw [List.mem_cons, hmem, hgrown, ← UInt32.toNat_inj, hnew]
      omega
    · exact (congrArg (· + 1) hheld).trans hgrown.symm
    · change (client.pool.allocate order).2.nodes.size =
        max client.peak (client.allocated.length + 1)
      omega
    · change (client.pool.allocate order).2.nodes.size < 2 ^ 32 - 1
      omega

/-- Freeing moves a slot from the held ones to the free ones. -/
theorem perform_free (hpart : Partitioned client free) {idx : UInt32}
    (hheld : idx ∈ client.allocated) :
    Partitioned (client.perform (.free idx)) (idx :: free) := by
  have hless := (hpart.mem idx).mp (List.mem_append_right free hheld)
  have hfresh : idx ∉ free := fun hmem =>
    (List.nodup_append.mp hpart.nodup).2.2 idx hmem idx hheld rfl
  have hperm : (idx :: free ++ client.allocated.erase idx).Perm (free ++ client.allocated) :=
    List.perm_middle.symm.trans ((List.perm_cons_erase hheld).symm.append_left free)
  have hsize := client.pool.size_free idx
  refine ⟨hpart.freeList.push hless hfresh, hperm.nodup_iff.mpr hpart.nodup, fun other => ?_, ?_,
    ?_, ?_⟩
  · exact hperm.mem_iff.trans ((hpart.mem other).trans (by rw [← hsize]; rfl))
  · exact hperm.length_eq.trans (hpart.length.trans hsize.symm)
  · exact hsize.trans hpart.size
  · exact hsize ▸ hpart.bound

/-- A write to a held slot does not touch the free list. -/
theorem perform_write (hpart : Partitioned client free) {idx : UInt32}
    (hheld : idx ∈ client.allocated) (edit : PoolNode → PoolNode) :
    Partitioned (client.perform (.write idx edit)) free := by
  have hsize := client.pool.size_modify idx edit
  refine ⟨hpart.freeList.congr rfl fun other hother => ?_, hpart.nodup, fun other => ?_, ?_, ?_, ?_⟩
  · have hne : other ≠ idx := (List.nodup_append.mp hpart.nodup).2.2 other hother idx hheld
    exact congrArg PoolNode.next (OrderPool.node_modify_of_ne hne edit)
  · exact (hpart.mem other).trans (by rw [← hsize]; rfl)
  · exact hpart.length.trans hsize.symm
  · exact hsize.trans hpart.size
  · exact hsize ▸ hpart.bound

end Partitioned

/-- In every history the slots are partitioned. -/
theorem Reached.partitioned {client : PoolClient} (hreached : Reached client) :
    ∃ free, Partitioned client free := by
  induction hreached with
  | start => exact ⟨[], .initial⟩
  | call call _ hallowed ih =>
      obtain ⟨free, hpart⟩ := ih
      cases call with
      | allocate order => exact hpart.perform_allocate order hallowed
      | free idx => exact ⟨idx :: free, hpart.perform_free hallowed⟩
      | write idx edit => exact ⟨free, hpart.perform_write hallowed edit⟩

/-- After every history of allowed calls the free list is acyclic and holds exactly the
slots of the arena that are not held, the size of the arena is the largest number of
slots held at once, and an allocation returns a slot that is not held and leaves the
held ones alone. -/
theorem orderPool_sound {client : PoolClient} (hreached : Reached client) :
    (∃ free, client.pool.FreeList free ∧ free.Nodup ∧
      ∀ idx, idx ∈ free ↔ idx.toNat < client.pool.nodes.size ∧ idx ∉ client.allocated) ∧
    client.allocated.Nodup ∧
    client.pool.nodes.size = client.peak ∧
    ∀ order, client.Allowed (.allocate order) →
      (client.pool.allocate order).1 ∉ client.allocated ∧
      (client.pool.allocate order).1 ≠ INVALID_INDEX ∧
      ∀ other ∈ client.allocated,
        (client.pool.allocate order).2.node other = client.pool.node other := by
  obtain ⟨free, hpart⟩ := hreached.partitioned
  obtain ⟨hfree, hheld, hdisjoint⟩ := List.nodup_append.mp hpart.nodup
  refine ⟨⟨free, hpart.freeList, hfree, fun idx => ?_⟩, hheld, hpart.size, fun order hallowed => ?_⟩
  · constructor
    · intro hmem
      exact ⟨(hpart.mem idx).mp (List.mem_append_left _ hmem),
        fun hother => hdisjoint idx hmem idx hother rfl⟩
    · rintro ⟨hless, hnot⟩
      exact (List.mem_append.mp ((hpart.mem idx).mpr hless)).resolve_right hnot
  · obtain ⟨_, hallocated, hvalid, hfresh⟩ := hpart.allocate order hallowed
    refine ⟨hfresh, hvalid, fun other hother => hallocated.node_of_ne other ?_⟩
    rintro rfl
    exact hfresh hother

/-- Two slots are held, one is freed with its links overwritten before, and one is held
again. -/
def reusedSlot : PoolClient :=
  ((((PoolClient.perform {} (.allocate ⟨0, 7, 5, 100, buyByte⟩)).perform
    (.allocate ⟨0, 8, 6, 100, buyByte⟩)).perform
      (.write 0 fun node => { node with next := 1, prev := 1 })).perform
        (.free 0)).perform (.allocate ⟨0, 9, 7, 100, buyByte⟩)

theorem reached_reusedSlot : Reached reusedSlot := by
  unfold reusedSlot
  apply Reached.call
  · apply Reached.call
    · apply Reached.call
      · apply Reached.call
        · exact .call _ .start (show 1 < 2 ^ 32 - 1 by decide)
        · exact show 2 < 2 ^ 32 - 1 by decide
      · exact List.mem_cons_of_mem _ List.mem_cons_self
    · exact List.mem_cons_of_mem _ List.mem_cons_self
  · exact show 2 < 2 ^ 32 - 1 by decide

theorem orderPool_sound_reusedSlot :
    reusedSlot.allocated = [0, 1] ∧ reusedSlot.pool.nodes.size = 2 ∧
      (reusedSlot.pool.allocate ⟨0, 10, 1, 100, buyByte⟩).1 ∉ reusedSlot.allocated := by
  obtain ⟨_, _, hsize, hallocate⟩ := orderPool_sound reached_reusedSlot
  exact ⟨by decide, hsize.trans (by decide),
    (hallocate _ (show 3 < 2 ^ 32 - 1 by decide)).1⟩

end PoolClient

end Orderbook
