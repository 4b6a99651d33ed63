/-
# Price levels as queues

A level stores the two ends of a chain of pool slots. `Level.Chain` says which
list of slots that is, and that the list is fit to be one: no slot twice, no
null index and no slot outside the arena. Appending and unlinking are then
operations on the list.

Both operations write links only. `OrderPool.Relinked` is that frame: the orders
stay where they are and the nodes outside the touched slots are not written.
-/

import Orderbook.Book.LadderSide
import Mathlib.Data.List.Perm.Subperm

namespace Orderbook

open Orderbook.Math

/-- The two pools differ at most in the links of the `touched` slots. -/
structure OrderPool.Relinked (pool pool' : OrderPool) (touched : List UInt32) : Prop where
  size : pool'.nodes.size = pool.nodes.size
  freeHead : pool'.freeHead = pool.freeHead
  order : ∀ idx, (pool'.node idx).order = (pool.node idx).order
  node : ∀ idx, idx ∉ touched → pool'.node idx = pool.node idx

namespace OrderPool

theorem Relinked.refl (pool : OrderPool) (touched : List UInt32) :
    pool.Relinked pool touched :=
  ⟨rfl, rfl, fun _ => rfl, fun _ _ => rfl⟩

theorem Relinked.trans {pool pool' pool'' : OrderPool} {touched : List UInt32}
    (hfirst : pool.Relinked pool' touched) (hsecond : pool'.Relinked pool'' touched) :
    pool.Relinked pool'' touched where
  size := hsecond.size.trans hfirst.size
  freeHead := hsecond.freeHead.trans hfirst.freeHead
  order idx := (hsecond.order idx).trans (hfirst.order idx)
  node idx hidx := (hsecond.node idx hidx).trans (hfirst.node idx hidx)

/-- A frame may be stated more generously than necessary. -/
theorem Relinked.mono {pool pool' : OrderPool} {touched more : List UInt32}
    (hpool : pool.Relinked pool' touched) (hsubset : touched ⊆ more) :
    pool.Relinked pool' more where
  size := hpool.size
  freeHead := hpool.freeHead
  order := hpool.order
  node idx hidx := hpool.node idx fun hmem => hidx (hsubset hmem)

/-- A write that keeps a field of the node it is applied to keeps that field of
every node. -/
theorem field_modify {α : Type} (field : PoolNode → α) (pool : OrderPool) (idx other : UInt32)
    {write : PoolNode → PoolNode} (hwrite : ∀ node, field (write node) = field node) :
    field ((pool.modify idx write).node other) = field (pool.node other) := by
  unfold node modify
  rw [Array.getElem?_modify]
  split
  · cases pool.nodes[other.toNat]? with
    | none => rfl
    | some node => exact hwrite node
  · rfl

/-- Writing the links of one touched slot stays within the frame. -/
theorem relinked_modify (pool : OrderPool) {idx : UInt32} {touched : List UInt32}
    (hidx : idx ∈ touched) {write : PoolNode → PoolNode}
    (hwrite : ∀ node, (write node).order = node.order) :
    pool.Relinked (pool.modify idx write) touched where
  size := size_modify pool idx write
  freeHead := rfl
  order other := field_modify PoolNode.order pool idx other hwrite
  node other hother := by
    apply node_modify_of_ne
    intro heq
    exact hother (heq ▸ hidx)

end OrderPool

/-- The level is the queue `slots`, first in first. -/
structure Level.Chain (level : Level) (pool : OrderPool) (slots : List UInt32) : Prop where
  head : level.head = slots.head?.getD INVALID_INDEX
  tail : level.tail = slots.getLast?.getD INVALID_INDEX
  links : Segment (fun idx => (pool.node idx).next) (fun idx => (pool.node idx).prev)
    INVALID_INDEX slots INVALID_INDEX
  nodup : slots.Nodup
  valid : ∀ idx ∈ slots, idx ≠ INVALID_INDEX ∧ idx.toNat < pool.nodes.size

namespace Level.Chain

variable {pool pool' : OrderPool} {level : Level} {slots : List UInt32} {idx : UInt32}

/-- The empty level is the empty queue in every pool. -/
theorem empty (pool : OrderPool) : ({} : Level).Chain pool [] :=
  ⟨rfl, rfl, trivial, List.nodup_nil, by simp⟩

/-- A chain depends on the links of its own slots and on the arena not
shrinking. -/
theorem congr (hchain : level.Chain pool slots)
    (hnode : ∀ idx ∈ slots, (pool'.node idx).next = (pool.node idx).next ∧
      (pool'.node idx).prev = (pool.node idx).prev)
    (hsize : pool.nodes.size ≤ pool'.nodes.size) : level.Chain pool' slots where
  head := hchain.head
  tail := hchain.tail
  links := by
    apply hchain.links.congr
    · intro cell hcell
      exact (hnode cell hcell).1
    · intro cell hcell
      exact (hnode cell hcell).2
  nodup := hchain.nodup
  valid idx hidx := ⟨(hchain.valid idx hidx).1, Nat.lt_of_lt_of_le (hchain.valid idx hidx).2 hsize⟩

/-- Relinking other slots leaves a chain alone. -/
theorem relinked {touched : List UInt32} (hchain : level.Chain pool slots)
    (hpool : pool.Relinked pool' touched) (hdisjoint : ∀ idx ∈ slots, idx ∉ touched) :
    level.Chain pool' slots := by
  apply hchain.congr
  · intro idx hidx
    rw [hpool.node idx (hdisjoint idx hidx)]
    exact ⟨rfl, rfl⟩
  · exact Nat.le_of_eq hpool.size.symm

/-- The head of a level is the null index exactly when its queue is empty. -/
theorem head_eq_invalid_iff (hchain : level.Chain pool slots) :
    level.head = INVALID_INDEX ↔ slots = [] := by
  rw [hchain.head]
  cases slots with
  | nil => simp
  | cons idx rest => simpa using (hchain.valid idx List.mem_cons_self).1

/-- The tail of a level is the null index exactly when its queue is empty. -/
theorem tail_eq_invalid_iff (hchain : level.Chain pool slots) :
    level.tail = INVALID_INDEX ↔ slots = [] := by
  rw [hchain.tail]
  rcases List.eq_nil_or_concat slots with rfl | ⟨init, last, rfl⟩
  · simp
  · simpa using (hchain.valid last (by simp)).1

end Level.Chain

/-- Follow the forward links from a slot to the null index. -/
def OrderPool.walk (pool : OrderPool) : ℕ → UInt32 → List UInt32
  | 0, _ => []
  | fuel + 1, idx =>
      if idx = INVALID_INDEX then [] else idx :: pool.walk fuel (pool.node idx).next

/-- The slots of a level. No chain is longer than the arena. -/
def Level.slots (pool : OrderPool) (level : Level) : List UInt32 :=
  pool.walk pool.nodes.size level.head

/-- The slots of the free list. -/
def OrderPool.freeSlots (pool : OrderPool) : List UInt32 :=
  pool.walk pool.nodes.size pool.freeHead

namespace OrderPool

variable {pool : OrderPool} {slots : List UInt32}

/-- A walk with enough fuel visits exactly the cells of a path. -/
theorem walk_of_path (hpath : Path (fun idx => (pool.node idx).next) slots INVALID_INDEX)
    (hvalid : ∀ idx ∈ slots, idx ≠ INVALID_INDEX) {fuel : ℕ} (hfuel : slots.length ≤ fuel) :
    pool.walk fuel (slots.head?.getD INVALID_INDEX) = slots := by
  induction slots generalizing fuel with
  | nil => cases fuel <;> simp [walk]
  | cons idx rest ih =>
      cases fuel with
      | zero => simp at hfuel
      | succ fuel =>
          obtain ⟨hnext, hrest⟩ := hpath
          change (pool.node idx).next = _ at hnext
          have hne := hvalid idx List.mem_cons_self
          rw [List.head?_cons, Option.getD_some, walk, if_neg hne, hnext]
          congr 1
          apply ih hrest
          · exact fun other hother => hvalid other (List.mem_cons_of_mem idx hother)
          · simpa using hfuel

/-- Distinct slots of the arena are not more than the arena has. -/
theorem length_le_size (hnodup : slots.Nodup)
    (hrange : ∀ idx ∈ slots, idx.toNat < pool.nodes.size) :
    slots.length ≤ pool.nodes.size := by
  have hsubset : slots.map UInt32.toNat ⊆ List.range pool.nodes.size := by
    intro pos hpos
    obtain ⟨idx, hidx, rfl⟩ := List.mem_map.mp hpos
    exact List.mem_range.mpr (hrange idx hidx)
  have hinjective : Function.Injective UInt32.toNat := fun _ _ => UInt32.toNat_inj.mp
  have hle := (List.subperm_of_subset (hnodup.map hinjective) hsubset).length_le
  simpa using hle

/-- No walk visits the null index. -/
theorem invalid_notMem_walk (pool : OrderPool) (fuel : ℕ) (idx : UInt32) :
    INVALID_INDEX ∉ pool.walk fuel idx := by
  induction fuel generalizing idx with
  | zero => simp [walk]
  | succ fuel ih =>
      rw [walk]
      split
      · simp
      · rename_i hne
        rw [List.mem_cons, not_or]
        exact ⟨Ne.symm hne, ih _⟩

end OrderPool

namespace Level.Chain

variable {pool pool' : OrderPool} {level : Level} {slots : List UInt32} {idx : UInt32}

/-- Walking a level visits its queue. -/
theorem slots_eq (hchain : level.Chain pool slots) : level.slots pool = slots := by
  rw [Level.slots, hchain.head]
  apply OrderPool.walk_of_path hchain.links.path
  · exact fun idx hidx => (hchain.valid idx hidx).1
  · exact OrderPool.length_le_size hchain.nodup fun idx hidx => (hchain.valid idx hidx).2

theorem relinked_linkAtTail (hchain : level.Chain pool slots) (idx : UInt32) :
    pool.Relinked (Orderbook.linkAtTail pool level idx).1 (idx :: slots) := by
  have hself : pool.Relinked (pool.modify idx fun node =>
      { node with prev := level.tail, next := INVALID_INDEX }) (idx :: slots) :=
    pool.relinked_modify List.mem_cons_self fun _ => rfl
  by_cases htail : level.tail = INVALID_INDEX
  · simpa [Orderbook.linkAtTail, htail] using hself
  · have hlast : level.tail ∈ slots := by
      rcases List.eq_nil_or_concat slots with rfl | ⟨init, last, rfl⟩
      · exact absurd hchain.tail htail
      · simp [hchain.tail]
    simp only [Orderbook.linkAtTail, ne_eq, htail, not_false_eq_true, if_true]
    exact hself.trans (OrderPool.relinked_modify _ (List.mem_cons_of_mem idx hlast) fun _ => rfl)

/-- Appending a slot that is not in the queue puts it last. -/
theorem linkAtTail (hchain : level.Chain pool slots) (hfresh : idx ∉ slots)
    (hvalid : idx ≠ INVALID_INDEX) (hidx : idx.toNat < pool.nodes.size) :
    (Orderbook.linkAtTail pool level idx).2.Chain (Orderbook.linkAtTail pool level idx).1
      (slots ++ [idx]) := by
  have hpool := hchain.relinked_linkAtTail idx
  have hnodup : (slots ++ [idx]).Nodup := by
    rw [← List.concat_eq_append, List.nodup_concat]
    exact ⟨hfresh, hchain.nodup⟩
  have hvalid' : ∀ other ∈ slots ++ [idx], other ≠ INVALID_INDEX ∧
      other.toNat < (Orderbook.linkAtTail pool level idx).1.nodes.size := by
    intro other hother
    rw [hpool.size]
    rcases List.mem_append.mp hother with hold | hnew
    · exact hchain.valid other hold
    · rw [List.mem_singleton.mp hnew]
      exact ⟨hvalid, hidx⟩
  rcases List.eq_nil_or_concat slots with rfl | ⟨init, last, hslots⟩
  · have htail : level.tail = INVALID_INDEX := hchain.tail
    have hlink : Orderbook.linkAtTail pool level idx =
        (pool.modify idx fun node =>
          { node with prev := INVALID_INDEX, next := INVALID_INDEX }, ⟨idx, idx⟩) := by
      simp [Orderbook.linkAtTail, htail]
    rw [hlink] at hvalid' ⊢
    refine ⟨rfl, rfl, ?_, hnodup, hvalid'⟩
    simp [hidx]
  · rw [List.concat_eq_append] at hslots
    have htail : level.tail = last := by simp [hchain.tail, hslots]
    have hmem : last ∈ slots := by simp [hslots]
    obtain ⟨hlast, hrange⟩ := hchain.valid last hmem
    have hne : last ≠ idx := fun h => hfresh (h ▸ hmem)
    have hlink : Orderbook.linkAtTail pool level idx =
        ((pool.modify idx fun node =>
          { node with prev := last, next := INVALID_INDEX }).modify last fun node =>
            { node with next := idx }, ⟨level.head, idx⟩) := by
      simp [Orderbook.linkAtTail, htail, hlast]
    rw [hlink] at hvalid' ⊢
    have hidxNode : ∀ write, (((pool.modify idx write).modify last fun node =>
        { node with next := idx }).node idx) = write (pool.node idx) := by
      intro write
      rw [OrderPool.node_modify_of_ne hne.symm, OrderPool.node_modify_self hidx]
    refine ⟨?_, by simp, ?_, hnodup, hvalid'⟩
    · rw [hchain.head, hslots]
      cases init <;> simp
    · rw [segment_append]
      refine ⟨?_, ?_⟩
      · apply hchain.links.retarget hchain.nodup
        · intro cell hcell
          have hcellNe : cell ≠ idx := fun h => hfresh (h ▸ hcell)
          by_cases hcellLast : cell = last
          · subst hcellLast
            simp [hrange, OrderPool.node_modify_of_ne hcellNe]
          · rw [OrderPool.node_modify_of_ne hcellLast, OrderPool.node_modify_of_ne hcellNe]
        · intro cell hcell hnotLast
          have hcellNe : cell ≠ idx := fun h => hfresh (h ▸ hcell)
          have hcellLast : cell ≠ last := by
            intro heq
            simp [hslots, heq] at hnotLast
          rw [OrderPool.node_modify_of_ne hcellLast, OrderPool.node_modify_of_ne hcellNe]
        · intro cell hcell
          have hcellLast : cell = last := by simpa [hslots, eq_comm] using hcell
          subst hcellLast
          simp [hrange]
      · simp [hidxNode, hslots]

/-- Write the forward link of a slot, unless it is the null index. -/
def setNext (pool : OrderPool) (cell target : UInt32) : OrderPool :=
  if cell ≠ INVALID_INDEX then pool.modify cell fun node => { node with next := target }
  else pool

/-- Write the backward link of a slot, unless it is the null index. -/
def setPrev (pool : OrderPool) (cell target : UInt32) : OrderPool :=
  if cell ≠ INVALID_INDEX then pool.modify cell fun node => { node with prev := target }
  else pool

/-- Link two neighbours to each other, where they exist. -/
def joined (pool : OrderPool) (before after : UInt32) : OrderPool :=
  setPrev (setNext pool before after) after before

theorem relinked_setNext (pool : OrderPool) {cell : UInt32} (target : UInt32)
    {touched : List UInt32} (hcell : cell ≠ INVALID_INDEX → cell ∈ touched) :
    pool.Relinked (setNext pool cell target) touched := by
  unfold setNext
  split
  · exact pool.relinked_modify (hcell ‹_›) fun _ => rfl
  · exact .refl pool touched

theorem relinked_setPrev (pool : OrderPool) {cell : UInt32} (target : UInt32)
    {touched : List UInt32} (hcell : cell ≠ INVALID_INDEX → cell ∈ touched) :
    pool.Relinked (setPrev pool cell target) touched := by
  unfold setPrev
  split
  · exact pool.relinked_modify (hcell ‹_›) fun _ => rfl
  · exact .refl pool touched

theorem node_setNext_of_ne {cell other : UInt32} (hne : other ≠ cell) (target : UInt32) :
    (setNext pool cell target).node other = pool.node other := by
  have hpool : pool.Relinked (setNext pool cell target) [cell] :=
    relinked_setNext pool target fun _ => List.mem_singleton_self cell
  exact hpool.node other (by simpa using hne)

theorem node_setPrev_of_ne {cell other : UInt32} (hne : other ≠ cell) (target : UInt32) :
    (setPrev pool cell target).node other = pool.node other := by
  have hpool : pool.Relinked (setPrev pool cell target) [cell] :=
    relinked_setPrev pool target fun _ => List.mem_singleton_self cell
  exact hpool.node other (by simpa using hne)

theorem size_setNext (pool : OrderPool) (cell target : UInt32) :
    (setNext pool cell target).nodes.size = pool.nodes.size := by
  have hpool : pool.Relinked (setNext pool cell target) [cell] :=
    relinked_setNext pool target fun _ => List.mem_singleton_self cell
  exact hpool.size

theorem prev_setNext (pool : OrderPool) (cell target other : UInt32) :
    ((setNext pool cell target).node other).prev = (pool.node other).prev := by
  unfold setNext
  split
  · exact OrderPool.field_modify PoolNode.prev pool cell other fun _ => rfl
  · rfl

theorem next_setPrev (pool : OrderPool) (cell target other : UInt32) :
    ((setPrev pool cell target).node other).next = (pool.node other).next := by
  unfold setPrev
  split
  · exact OrderPool.field_modify PoolNode.next pool cell other fun _ => rfl
  · rfl

theorem node_setNext_self {cell : UInt32} (hcell : cell ≠ INVALID_INDEX)
    (hrange : cell.toNat < pool.nodes.size) (target : UInt32) :
    (setNext pool cell target).node cell = { pool.node cell with next := target } := by
  simp [setNext, hcell, hrange]

theorem node_setPrev_self {cell : UInt32} (hcell : cell ≠ INVALID_INDEX)
    (hrange : cell.toNat < pool.nodes.size) (target : UInt32) :
    (setPrev pool cell target).node cell = { pool.node cell with prev := target } := by
  simp [setPrev, hcell, hrange]

/-- Unlinking joins the two neighbours and moves the ends of the level. The
second read of the node sees what the first one saw, because a slot is not its
own neighbour. -/
theorem unlink_eq (level : Level) {before after : UInt32}
    (hprev : (pool.node idx).prev = before) (hnext : (pool.node idx).next = after)
    (hself : before ≠ idx) :
    unlink pool level idx =
      (joined pool before after,
        { head := if before ≠ INVALID_INDEX then level.head else after
          tail := if after ≠ INVALID_INDEX then level.tail else before }) := by
  have hread : ∀ write, (pool.modify before write).node idx = pool.node idx := fun write =>
    OrderPool.node_modify_of_ne hself.symm write
  by_cases hbefore : before = INVALID_INDEX
  · by_cases hafter : after = INVALID_INDEX <;>
      simp [unlink, joined, setNext, setPrev, hprev, hnext, hbefore, hafter]
  · by_cases hafter : after = INVALID_INDEX <;>
      simp [unlink, joined, setNext, setPrev, hprev, hnext, hbefore, hafter, hread]

/-- A member of a queue's front half is not its back half's first slot. -/
theorem ne_of_mem_halves {front back : List UInt32} (hnodup : (front ++ idx :: back).Nodup)
    {cell other : UInt32} (hcell : cell ∈ front) (hother : other ∈ back) : cell ≠ other :=
  (List.nodup_append.mp hnodup).2.2 cell hcell other (List.mem_cons_of_mem idx hother)

/-- Joining the neighbours of a slot closes the gap it leaves. -/
theorem links_joined {front back : List UInt32}
    (hchain : level.Chain pool (front ++ idx :: back)) :
    Segment
      (fun cell => ((joined pool (front.getLast?.getD INVALID_INDEX)
        (back.head?.getD INVALID_INDEX)).node cell).next)
      (fun cell => ((joined pool (front.getLast?.getD INVALID_INDEX)
        (back.head?.getD INVALID_INDEX)).node cell).prev)
      INVALID_INDEX (front ++ back) INVALID_INDEX := by
  unfold joined
  have hlinks := segment_append.mp hchain.links
  obtain ⟨hfrontNodup, hidxBack, _⟩ := List.nodup_append.mp hchain.nodup
  have hbackNodup := (List.nodup_cons.mp hidxBack).2
  rw [segment_append]
  constructor
  · apply hlinks.1.retarget hfrontNodup
    · intro cell hcell
      cases back with
      | nil => simp [setPrev, prev_setNext]
      | cons first rest =>
          have hne : cell ≠ first := ne_of_mem_halves hchain.nodup hcell List.mem_cons_self
          simp [node_setPrev_of_ne hne, prev_setNext]
    · intro cell hcell hnotLast
      have hne : cell ≠ front.getLast?.getD INVALID_INDEX := by
        cases hlast : front.getLast? with
        | none => exact (hchain.valid cell (List.mem_append_left _ hcell)).1
        | some last =>
            rintro rfl
            exact hnotLast hlast
      rw [next_setPrev, node_setNext_of_ne hne]
    · intro cell hlast
      obtain ⟨hcell, hrange⟩ := hchain.valid cell
        (List.mem_append_left _ (List.mem_of_getLast? hlast))
      simp [next_setPrev, hlast, node_setNext_self hcell hrange]
  · apply hlinks.2.2.2.reroot hbackNodup
    · intro cell hcell
      rw [next_setPrev]
      rcases List.eq_nil_or_concat front with rfl | ⟨init, last, rfl⟩
      · simp [setNext]
      · have hne : cell ≠ last :=
          (ne_of_mem_halves hchain.nodup (by simp) hcell).symm
        simp [node_setNext_of_ne hne]
    · intro cell hcell hnotFirst
      have hne : cell ≠ back.head?.getD INVALID_INDEX := by
        cases hfirst : back.head? with
        | none =>
            exact (hchain.valid cell
              (List.mem_append_right _ (List.mem_cons_of_mem idx hcell))).1
        | some first =>
            rintro rfl
            exact hnotFirst hfirst
      rw [node_setPrev_of_ne hne, prev_setNext]
    · intro cell hfirst
      obtain ⟨hcell, hrange⟩ := hchain.valid cell
        (List.mem_append_right _ (List.mem_cons_of_mem idx (List.mem_of_head? hfirst)))
      simp [hfirst, node_setPrev_self hcell ((size_setNext pool _ _).symm ▸ hrange)]

/-- What unlinking does to the pool and to the queue. -/
theorem unlink_split {front back : List UInt32}
    (hchain : level.Chain pool (front ++ idx :: back)) :
    pool.Relinked (unlink pool level idx).1 (front ++ back) ∧
      (unlink pool level idx).2.Chain (unlink pool level idx).1 (front ++ back) := by
  obtain ⟨hprev, hnext⟩ := hchain.links.links
  have hvalid : ∀ other ∈ front ++ back, other ≠ INVALID_INDEX ∧
      other.toNat < pool.nodes.size := by
    intro other hother
    apply hchain.valid
    simp only [List.mem_append, List.mem_cons] at hother ⊢
    tauto
  have hbefore : front.getLast?.getD INVALID_INDEX ≠ INVALID_INDEX →
      front.getLast?.getD INVALID_INDEX ∈ front := by
    intro hne
    cases hlast : front.getLast? with
    | none => simp [hlast] at hne
    | some last => exact List.mem_of_getLast? hlast
  have hafter : back.head?.getD INVALID_INDEX ≠ INVALID_INDEX →
      back.head?.getD INVALID_INDEX ∈ back := by
    intro hne
    cases hfirst : back.head? with
    | none => simp [hfirst] at hne
    | some first => exact List.mem_of_head? hfirst
  have hself : front.getLast?.getD INVALID_INDEX ≠ idx := by
    intro heq
    have hne := hbefore (heq ▸ (hchain.valid idx (by simp)).1)
    exact (List.nodup_append.mp hchain.nodup).2.2 _ hne idx List.mem_cons_self heq
  have hlinks := hchain.links_joined
  rw [unlink_eq level hprev hnext hself]
  have hpool : pool.Relinked
      (joined pool (front.getLast?.getD INVALID_INDEX) (back.head?.getD INVALID_INDEX))
      (front ++ back) := by
    apply OrderPool.Relinked.trans (relinked_setNext pool _ ?_) (relinked_setPrev _ _ ?_)
    · exact fun hne => List.mem_append_left _ (hbefore hne)
    · exact fun hne => List.mem_append_right _ (hafter hne)
  refine ⟨hpool, ⟨?_, ?_, hlinks, ?_, ?_⟩⟩
  · rcases List.eq_nil_or_concat front with rfl | ⟨init, last, rfl⟩
    · simp
    · have hne : last ≠ INVALID_INDEX := (hvalid last (by simp)).1
      cases init <;> simp [hne, hchain.head, List.getLast?_cons]
  · cases back with
    | nil => simp
    | cons first rest =>
        have hne : first ≠ INVALID_INDEX := (hvalid first (by simp)).1
        simp [hne, hchain.tail, List.getLast?_append, List.getLast?_cons]
  · apply List.Nodup.sublist _ hchain.nodup
    exact (List.Sublist.refl front).append (List.sublist_cons_self idx back)
  · intro other hother
    rw [hpool.size]
    exact hvalid other hother

/-- Unlinking a slot of a queue takes it out and keeps the order of the rest. -/
theorem unlink (hchain : level.Chain pool slots) (hidx : idx ∈ slots) :
    pool.Relinked (Orderbook.unlink pool level idx).1 slots ∧
      (Orderbook.unlink pool level idx).2.Chain (Orderbook.unlink pool level idx).1
        (slots.filter (· ≠ idx)) := by
  obtain ⟨front, back, rfl⟩ := List.append_of_mem hidx
  obtain ⟨hpool, hchain'⟩ := hchain.unlink_split
  have hfilter : (front ++ idx :: back).filter (· ≠ idx) = front ++ back := by
    obtain ⟨_, hidxBack, hdisjoint⟩ := List.nodup_append.mp hchain.nodup
    have hfront : front.filter (· ≠ idx) = front := by
      rw [List.filter_eq_self]
      intro cell hcell
      simpa using hdisjoint cell hcell idx List.mem_cons_self
    have hback : back.filter (· ≠ idx) = back := by
      rw [List.filter_eq_self]
      intro cell hcell
      have hne : cell ≠ idx := by
        rintro rfl
        exact (List.nodup_cons.mp hidxBack).1 hcell
      simpa using hne
    rw [List.filter_append, List.filter_cons_of_neg (by simp), hfront, hback]
  rw [hfilter]
  refine ⟨hpool.mono ?_, hchain'⟩
  exact ((List.Sublist.refl front).append (List.sublist_cons_self idx back)).subset

end Level.Chain

end Orderbook
