/-
# The shared order arena

One growing vector of nodes holds every resting order of every book. A slot is
either linked into a price level through `next` and `prev`, or chained into the
free list through `next` alone. Indices are 32-bit and the largest one is the
null index, so the arena can address one slot fewer than its index type has
values.
-/

import Orderbook.Itch.Parser
import Orderbook.Math.Segment

namespace Orderbook

open Orderbook.Math

/-- The null pointer in index form. -/
def INVALID_INDEX : UInt32 := 0xFFFFFFFF

/-- A resting order with its intrusive list links. -/
structure PoolNode where
  order : Order
  next : UInt32
  prev : UInt32
  deriving DecidableEq, Repr, Inhabited

/-- The flat arena and the head of its free list. -/
structure OrderPool where
  nodes : Array PoolNode := #[]
  freeHead : UInt32 := INVALID_INDEX
  deriving DecidableEq, Repr

namespace OrderPool

/-- `operator[]` for reading. -/
def node (pool : OrderPool) (idx : UInt32) : PoolNode :=
  (pool.nodes[idx.toNat]?).getD default

/-- `operator[]` for writing through the returned reference. -/
def modify (pool : OrderPool) (idx : UInt32) (write : PoolNode → PoolNode) : OrderPool :=
  { pool with nodes := pool.nodes.modify idx.toNat write }

/-- Store `order` in a slot and return its index: a freed slot if there is one,
otherwise a new slot at the end of the arena. The new index is the arena's size
truncated to 32 bits. -/
def allocate (pool : OrderPool) (order : Order) : UInt32 × OrderPool :=
  let (idx, pool) :=
    if pool.freeHead ≠ INVALID_INDEX then
      (pool.freeHead, { pool with freeHead := (pool.node pool.freeHead).next })
    else
      (UInt32.ofNat pool.nodes.size, { pool with nodes := pool.nodes.push default })
  (idx, pool.modify idx fun _ => { order, next := INVALID_INDEX, prev := INVALID_INDEX })

/-- Return a slot to the free list. -/
def free (pool : OrderPool) (idx : UInt32) : OrderPool :=
  { pool.modify idx (fun node => { node with next := pool.freeHead }) with freeHead := idx }

@[simp]
theorem size_modify (pool : OrderPool) (idx : UInt32) (write : PoolNode → PoolNode) :
    (pool.modify idx write).nodes.size = pool.nodes.size := by
  simp [modify]

@[simp]
theorem freeHead_modify (pool : OrderPool) (idx : UInt32) (write : PoolNode → PoolNode) :
    (pool.modify idx write).freeHead = pool.freeHead := rfl

/-- A write to a slot of the arena is seen at that slot and nowhere else. -/
theorem node_modify {pool : OrderPool} {idx : UInt32} (hidx : idx.toNat < pool.nodes.size)
    (write : PoolNode → PoolNode) (other : UInt32) :
    (pool.modify idx write).node other =
      if other = idx then write (pool.node idx) else pool.node other := by
  by_cases heq : other = idx
  · subst heq
    simp [node, modify, hidx, Array.getElem_modify_self]
  · have hne : idx.toNat ≠ other.toNat := fun h => heq (UInt32.toNat_inj.mp h).symm
    simp [node, modify, Array.getElem?_modify, hne, heq]

@[simp]
theorem node_modify_self {pool : OrderPool} {idx : UInt32}
    (hidx : idx.toNat < pool.nodes.size) (write : PoolNode → PoolNode) :
    (pool.modify idx write).node idx = write (pool.node idx) := by
  rw [node_modify hidx, if_pos rfl]

/-- Writing one slot leaves every other slot alone, wherever the write goes. -/
theorem node_modify_of_ne {pool : OrderPool} {idx other : UInt32} (hne : other ≠ idx)
    (write : PoolNode → PoolNode) : (pool.modify idx write).node other = pool.node other := by
  have hne' : idx.toNat ≠ other.toNat := fun h => hne (UInt32.toNat_inj.mp h).symm
  simp [node, modify, Array.getElem?_modify, hne']

@[simp]
theorem size_free (pool : OrderPool) (idx : UInt32) :
    (pool.free idx).nodes.size = pool.nodes.size := by
  simp [free]

@[simp]
theorem freeHead_free (pool : OrderPool) (idx : UInt32) : (pool.free idx).freeHead = idx := rfl

theorem node_free_self {pool : OrderPool} {idx : UInt32} (hidx : idx.toNat < pool.nodes.size) :
    (pool.free idx).node idx = { pool.node idx with next := pool.freeHead } :=
  node_modify_self hidx _

theorem node_free_of_ne {pool : OrderPool} {idx other : UInt32} (hne : other ≠ idx) :
    (pool.free idx).node other = pool.node other :=
  node_modify_of_ne hne _

/-- The free list visits exactly `slots`, head first. -/
structure FreeList (pool : OrderPool) (slots : List UInt32) : Prop where
  head : pool.freeHead = slots.head?.getD INVALID_INDEX
  path : Path (fun idx => (pool.node idx).next) slots INVALID_INDEX

/-- Only the links of free slots matter to the free list. -/
theorem FreeList.congr {pool pool' : OrderPool} {slots : List UInt32}
    (hfree : pool.FreeList slots) (hhead : pool'.freeHead = pool.freeHead)
    (hsame : ∀ idx ∈ slots, (pool'.node idx).next = (pool.node idx).next) :
    pool'.FreeList slots :=
  ⟨hhead.trans hfree.head, hfree.path.congr hsame⟩

/-- Freeing a slot pushes it onto the free list. -/
theorem FreeList.push {pool : OrderPool} {slots : List UInt32} {idx : UInt32}
    (hfree : pool.FreeList slots) (hidx : idx.toNat < pool.nodes.size)
    (hfresh : idx ∉ slots) : (pool.free idx).FreeList (idx :: slots) := by
  refine ⟨rfl, ?_, hfree.path.congr ?_⟩
  · exact (congrArg PoolNode.next (node_free_self hidx)).trans hfree.head
  · intro other hother
    have hne : other ≠ idx := fun h => hfresh (h ▸ hother)
    rw [node_free_of_ne hne]

/-- The effect of an allocation: where the order goes and what becomes of the
arena and its free list. -/
structure Allocated (pool : OrderPool) (order : Order) (slots : List UInt32)
    (idx : UInt32) (pool' : OrderPool) (slots' : List UInt32) : Prop where
  node_self : pool'.node idx =
    { order, next := INVALID_INDEX, prev := INVALID_INDEX }
  node_of_ne : ∀ other, other ≠ idx → pool'.node other = pool.node other
  freeList : pool'.FreeList slots'
  source : (slots = idx :: slots' ∧ pool'.nodes.size = pool.nodes.size) ∨
    (slots = [] ∧ slots' = [] ∧ idx.toNat = pool.nodes.size ∧
      pool'.nodes.size = pool.nodes.size + 1)

/-- The slot after an allocation when the free list is not empty. -/
theorem allocate_of_free {pool : OrderPool} (order : Order) {idx : UInt32}
    {slots : List UInt32} (hfree : pool.FreeList (idx :: slots))
    (hvalid : idx ≠ INVALID_INDEX) (hfresh : idx ∉ slots)
    (hidx : idx.toNat < pool.nodes.size) :
    (pool.allocate order).1 = idx ∧
      pool.Allocated order (idx :: slots) idx (pool.allocate order).2 slots := by
  have hhead : pool.freeHead = idx := hfree.head
  obtain ⟨hnext, hpath⟩ := hfree.path
  have hallocate : pool.allocate order =
      (idx, { pool with freeHead := (pool.node idx).next }.modify idx fun _ =>
        { order, next := INVALID_INDEX, prev := INVALID_INDEX }) := by
    simp [allocate, hhead, hvalid]
  rw [hallocate]
  refine ⟨rfl, ?_, ?_, ⟨?_, hpath.congr ?_⟩, Or.inl ⟨rfl, size_modify _ _ _⟩⟩
  · exact node_modify_self hidx _
  · intro other hother
    exact node_modify_of_ne hother _
  · exact hnext
  · intro other hother
    have hne : other ≠ idx := fun h => hfresh (h ▸ hother)
    rw [node_modify_of_ne hne]
    rfl

/-- The slot after an allocation when the arena has to grow, as long as the
arena still fits its index type. -/
theorem allocate_of_grow {pool : OrderPool} (order : Order) (hfree : pool.FreeList [])
    (hsize : pool.nodes.size < 2 ^ 32) :
    (pool.allocate order).1 = UInt32.ofNat pool.nodes.size ∧
      pool.Allocated order [] (UInt32.ofNat pool.nodes.size) (pool.allocate order).2 [] := by
  have hhead : pool.freeHead = INVALID_INDEX := hfree.head
  have htoNat : (UInt32.ofNat pool.nodes.size).toNat = pool.nodes.size :=
    UInt32.toNat_ofNat_of_lt' hsize
  have hallocate : pool.allocate order =
      (UInt32.ofNat pool.nodes.size,
        { pool with nodes := pool.nodes.push default }.modify
          (UInt32.ofNat pool.nodes.size) fun _ =>
            { order, next := INVALID_INDEX, prev := INVALID_INDEX }) := by
    simp [allocate, hhead]
  rw [hallocate]
  refine ⟨rfl, ?_, ?_, ⟨hhead, trivial⟩, Or.inr ⟨rfl, rfl, htoNat, ?_⟩⟩
  · apply node_modify_self
    simp [htoNat]
  · intro other hother
    rw [node_modify_of_ne hother]
    have hne : other.toNat ≠ pool.nodes.size := fun h =>
      hother (UInt32.toNat_inj.mp (h.trans htoNat.symm))
    simp [node, Array.getElem?_push, hne]
  · simp

/-- However the new index comes out, an allocation never shrinks the arena. -/
theorem size_allocate (pool : OrderPool) (order : Order) :
    (pool.allocate order).2.nodes.size =
      if pool.freeHead ≠ INVALID_INDEX then pool.nodes.size else pool.nodes.size + 1 := by
  unfold allocate
  by_cases hhead : pool.freeHead = INVALID_INDEX <;> simp [hhead]

end OrderPool

end Orderbook
