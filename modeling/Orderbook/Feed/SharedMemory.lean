/-
# The memory that the two threads share

The network thread and the matching thread share the packet pool, the slots and the ring. A
slot is nobody's own by type: the network thread takes it from the free list, writes a packet
into it and pushes its index, the matching thread pops the index, reads the packet and puts the
slot back. Whether the memory of a slot is used by one thread at a time follows from what the
ring and the free list carry.

Here the two are put into one memory, with the orders that the source gives to the accesses.
The hands say which slot a thread is about to use. They are not in the source: the guards of a
turn are what the two loops keep to, and which loop it is does not matter yet.
-/

import Orderbook.Feed.Ownership
import Orderbook.Feed.WeakPool
import Orderbook.Feed.WeakRing

namespace Orderbook

open Orderbook.Math

inductive UdpThread
  | network
  | matching
  deriving DecidableEq, Repr

/-- The atomic locations. -/
inductive UdpAtomic
  | head
  | tail
  | freeHead
  deriving DecidableEq, Repr

/-- The plain memory: the cells of the ring and the parts of the slots. -/
inductive UdpCell
  | ring (i : ℕ)
  | slot (part : SlotPart) (idx : UInt32)
  deriving DecidableEq, Repr

def udpRing : RingPlace UdpThread UdpAtomic UdpCell where
  producer := .network
  consumer := .matching
  head := .head
  tail := .tail
  cell := .ring
  threads_ne := UdpThread.noConfusion
  locations_ne := UdpAtomic.noConfusion
  cell_injective _ _ heq := by cases heq; rfl

def udpPool : PoolPlace UdpThread UdpAtomic UdpCell where
  acquirer := .network
  freeHead := .freeHead
  cell := .slot
  cell_injective _ _ _ _ heq := by cases heq; exact ⟨rfl, rfl⟩

/-- What the threads share, and the slot in the hand of each. -/
structure UdpMemory where
  clocks : Clocks UdpThread UdpAtomic UdpCell := .initial
  ring : WeakRing PacketRef
  pool : WeakPool UdpThread
  slots : UInt32 → BufferSlot
  hand : UdpThread → Option UInt32 := fun _ => none

/-- Whose turn it is and what the thread does. A reference is pushed if the network thread is
between calls. -/
inductive UdpTurn
  | acquire (age : ℕ) (spurious : Bool)
  | fill (write : BufferSlot → BufferSlot)
  | push (ref : PacketRef) (age : ℕ)
  | release (thread : UdpThread) (age : ℕ) (spurious : Bool)
  | pop (age : ℕ)
  | read

/-- How far the load of a turn looks back. -/
def UdpTurn.age : UdpTurn → ℕ
  | .acquire age _ | .push _ age | .release _ age _ | .pop age => age
  | .fill _ | .read => 0

/-- What a call answers when it returns, and what is read from a slot. A push is recorded with
the packet that its slot holds. -/
inductive UdpEvent
  | acquired (idx : UInt32)
  | exhausted
  | released (thread : UdpThread) (idx : UInt32)
  | pushed (ref : PacketRef) (packet : BufferSlot)
  | refused (ref : PacketRef)
  | popped (ref : PacketRef)
  | empty
  | read (packet : BufferSlot)

/-- The ring is built from empty references. -/
instance : Inhabited PacketRef := ⟨⟨0, 0⟩⟩

namespace UdpMemory

def initial (numSlots capacity : ℕ) : UdpMemory where
  ring := .initial capacity
  pool := .create numSlots
  slots := (PacketPool.create numSlots).slots

def setHand (memory : UdpMemory) (thread : UdpThread) (slot : Option UInt32) : UdpMemory :=
  { memory with hand := Function.update memory.hand thread slot }

@[simp]
theorem hand_setHand_self (memory : UdpMemory) (thread : UdpThread) (slot : Option UInt32) :
    (memory.setHand thread slot).hand thread = slot :=
  Function.update_self ..

theorem hand_setHand_of_ne {thread other : UdpThread} (hne : other ≠ thread)
    (memory : UdpMemory) (slot : Option UInt32) :
    (memory.setHand thread slot).hand other = memory.hand other :=
  Function.update_of_ne hne ..

@[simp]
theorem hand_setHand_network_matching (memory : UdpMemory) (slot : Option UInt32) :
    (memory.setHand .network slot).hand .matching = memory.hand .matching :=
  hand_setHand_of_ne UdpThread.noConfusion memory slot

@[simp]
theorem hand_setHand_matching_network (memory : UdpMemory) (slot : Option UInt32) :
    (memory.setHand .matching slot).hand .network = memory.hand .network :=
  hand_setHand_of_ne UdpThread.noConfusion memory slot

/-- What an access to the pool leaves in the hand of its thread. -/
def afterPool (memory : UdpMemory) (thread : UdpThread)
    (result : Clocks UdpThread UdpAtomic UdpCell × WeakPool UdpThread × Option PoolEvent) :
    UdpMemory × Option UdpEvent :=
  let memory := { memory with clocks := result.1, pool := result.2.1 }
  match result.2.2 with
  | none => (memory, none)
  | some (.acquired idx) => (memory.setHand thread (some idx), some (.acquired idx))
  | some .exhausted => (memory, some .exhausted)
  | some (.released idx) => (memory.setHand thread none, some (.released thread idx))

/-- What an access to the ring leaves in the hands. -/
def afterRing (memory : UdpMemory)
    (result : Clocks UdpThread UdpAtomic UdpCell × WeakRing PacketRef ×
      Option (QueueEvent PacketRef)) : UdpMemory × Option UdpEvent :=
  let memory := { memory with clocks := result.1, ring := result.2.1 }
  match result.2.2 with
  | none => (memory, none)
  | some (.pushed ref) =>
      (memory.setHand .network none, some (.pushed ref (memory.slots ref.poolIdx)))
  | some (.refused ref) => (memory, some (.refused ref))
  | some (.popped ref) => (memory.setHand .matching ref.slot, some (.popped ref))
  | some .empty => (memory, some .empty)

/-- One access. A thread begins a call only when it is between calls; it acquires and pops
with an empty hand, writes, reads and releases the slot in its hand, and pushes that slot or,
with an empty hand, the sentinel. -/
def step (memory : UdpMemory) : UdpTurn → Option (UdpMemory × Option UdpEvent)
  | .acquire age spurious =>
      if memory.hand .network = none ∧ memory.ring.pusher = .idle then
        (memory.pool.acquire udpPool memory.clocks age spurious).map (memory.afterPool .network)
      else none
  | .fill write =>
      (memory.hand .network).bind fun idx =>
        if memory.ring.pusher = .idle ∧ memory.pool.pc .network = .idle then
          some ({ memory with
            clocks := memory.clocks.access .network (.slot .packet idx) .write
            slots := Function.update memory.slots idx (write (memory.slots idx)) }, none)
        else none
  | .push ref age =>
      if memory.ring.pusher = .idle →
          ref.slot = memory.hand .network ∧ memory.pool.pc .network = .idle then
        some (memory.afterRing (memory.ring.push udpRing memory.clocks ref age))
      else none
  | .release thread age spurious =>
      (memory.hand thread).bind fun idx =>
        if thread = .network → memory.ring.pusher = .idle then
          (memory.pool.release udpPool memory.clocks thread idx age spurious).map
            (memory.afterPool thread)
        else none
  | .pop age =>
      if memory.hand .matching = none then
        some (memory.afterRing (memory.ring.pop udpRing memory.clocks age))
      else none
  | .read =>
      (memory.hand .matching).bind fun idx =>
        if memory.pool.pc .matching = .idle then
          some ({ memory with
            clocks := memory.clocks.access .matching (.slot .packet idx) .read },
            some (.read (memory.slots idx)))
        else none

/-- The memory without what the threads know of each other. -/
def forget (memory : UdpMemory) : UdpMemory := { memory with clocks := memory.clocks.forget }

theorem afterPool_forget (memory : UdpMemory) (thread : UdpThread)
    (result : Clocks UdpThread UdpAtomic UdpCell × WeakPool UdpThread × Option PoolEvent) :
    Prod.map forget id (memory.afterPool thread result) =
      memory.forget.afterPool thread (Prod.map Clocks.forget id result) := by
  obtain ⟨clocks, pool, event⟩ := result
  cases event with
  | none => rfl
  | some event => cases event <;> rfl

theorem afterRing_forget (memory : UdpMemory)
    (result : Clocks UdpThread UdpAtomic UdpCell × WeakRing PacketRef ×
      Option (QueueEvent PacketRef)) :
    Prod.map forget id (memory.afterRing result) =
      memory.forget.afterRing (Prod.map Clocks.forget id result) := by
  obtain ⟨clocks, ring, event⟩ := result
  cases event with
  | none => rfl
  | some event => cases event <;> rfl

/-- A turn that loads what was stored last goes as it does where nothing is known. -/
theorem step_forget {memory : UdpMemory} (hsound : memory.clocks.Sound) {turn : UdpTurn}
    (hage : turn.age = 0) :
    (memory.forget.step turn).map (Prod.map forget id) =
      (memory.step turn).map (Prod.map forget id) := by
  have hpool : ∀ {thread : UdpThread}
      {first second : Option (Clocks UdpThread UdpAtomic UdpCell × WeakPool UdpThread ×
        Option PoolEvent)},
      first.map (Prod.map Clocks.forget id) = second.map (Prod.map Clocks.forget id) →
        (first.map (memory.forget.afterPool thread)).map (Prod.map forget id) =
          (second.map (memory.afterPool thread)).map (Prod.map forget id) := by
    intro thread first second hsame
    have hboth := congrArg (Option.map (memory.forget.afterPool thread)) hsame
    rw [Option.map_map, Option.map_map] at hboth ⊢
    simp only [Function.comp_def, afterPool_forget]
    exact hboth
  have hring : ∀ {first second : Clocks UdpThread UdpAtomic UdpCell × WeakRing PacketRef ×
        Option (QueueEvent PacketRef)},
      Prod.map Clocks.forget id first = Prod.map Clocks.forget id second →
        Prod.map forget id (memory.forget.afterRing first) =
          Prod.map forget id (memory.afterRing second) := by
    intro first second hsame
    rw [afterRing_forget, afterRing_forget, hsame]
    rfl
  obtain ⟨clocks, ring, pool, slots, hand⟩ := memory
  cases turn with
  | acquire age spurious =>
      obtain rfl : age = 0 := hage
      by_cases hguard : hand .network = none ∧ ring.pusher = .idle
      · dsimp only [step, forget] at hpool ⊢
        rw [if_pos hguard, if_pos hguard]
        exact hpool (WeakPool.acquire_forget hsound spurious)
      · dsimp only [step, forget]
        rw [if_neg hguard, if_neg hguard]
  | fill write =>
      dsimp only [step, forget]
      cases hand .network with
      | none => rfl
      | some idx =>
          by_cases hguard : ring.pusher = .idle ∧ pool.pc .network = .idle
          · rw [Option.bind_some, Option.bind_some, if_pos hguard, if_pos hguard]
            rfl
          · rw [Option.bind_some, Option.bind_some, if_neg hguard, if_neg hguard]
  | push ref age =>
      obtain rfl : age = 0 := hage
      by_cases hguard : ring.pusher = .idle → ref.slot = hand .network ∧ pool.pc .network = .idle
      · dsimp only [step, forget] at hring ⊢
        rw [if_pos hguard, if_pos hguard]
        exact congrArg some (hring (WeakRing.push_forget hsound ref))
      · dsimp only [step, forget]
        rw [if_neg hguard, if_neg hguard]
  | release thread age spurious =>
      obtain rfl : age = 0 := hage
      dsimp only [step, forget] at hpool ⊢
      cases hand thread with
      | none => rfl
      | some idx =>
          by_cases hguard : thread = .network → ring.pusher = .idle
          · rw [Option.bind_some, Option.bind_some, if_pos hguard, if_pos hguard]
            exact hpool (WeakPool.release_forget hsound thread idx spurious)
          · rw [Option.bind_some, Option.bind_some, if_neg hguard, if_neg hguard]
  | pop age =>
      obtain rfl : age = 0 := hage
      by_cases hguard : hand .matching = none
      · dsimp only [step, forget] at hring ⊢
        rw [if_pos hguard, if_pos hguard]
        exact congrArg some (hring (WeakRing.pop_forget hsound))
      · dsimp only [step, forget]
        rw [if_neg hguard, if_neg hguard]
  | read =>
      dsimp only [step, forget]
      cases hand .matching with
      | none => rfl
      | some idx =>
          by_cases hguard : pool.pc .matching = .idle
          · rw [Option.bind_some, Option.bind_some, if_pos hguard, if_pos hguard]
            rfl
          · rw [Option.bind_some, Option.bind_some, if_neg hguard, if_neg hguard]
end UdpMemory

/-- The memory that some order of turns leads to, and what was answered. -/
inductive UdpReached (numSlots capacity : ℕ) : UdpMemory → List UdpEvent → Prop
  | start : UdpReached numSlots capacity (.initial numSlots capacity) []
  | step {memory next : UdpMemory} {events : List UdpEvent} {event : Option UdpEvent}
      (turn : UdpTurn) (earlier : UdpReached numSlots capacity memory events)
      (here : memory.step turn = some (next, event)) :
      UdpReached numSlots capacity next (events ++ event.toList)

theorem PacketRef.slot_eq_some_iff {ref : PacketRef} {idx : UInt32} :
    ref.slot = some idx ↔ ref.poolIdx ≠ kPoolInvalid ∧ ref.poolIdx = idx := by
  unfold PacketRef.slot
  split
  · rename_i hinvalid
    simp [hinvalid]
  · rename_i hvalid
    simp [hvalid]

/-- What was pushed, with the packets. -/
def UdpEvent.sent : UdpEvent → Option (PacketRef × BufferSlot)
  | pushed ref packet => some (ref, packet)
  | _ => none

/-- What was popped. -/
def UdpEvent.taken : UdpEvent → Option PacketRef
  | popped ref => some ref
  | _ => none

def sentPackets (events : List UdpEvent) : List (PacketRef × BufferSlot) :=
  events.filterMap UdpEvent.sent

def takenRefs (events : List UdpEvent) : List PacketRef := events.filterMap UdpEvent.taken

/-- What one more answer adds. -/
theorem sentPackets_append (events : List UdpEvent) (event : Option UdpEvent) :
    sentPackets (events ++ event.toList) =
      sentPackets events ++ (event.bind UdpEvent.sent).toList := by
  unfold sentPackets
  rw [List.filterMap_append]
  cases event with
  | none => rfl
  | some event => cases event <;> rfl

theorem takenRefs_append (events : List UdpEvent) (event : Option UdpEvent) :
    takenRefs (events ++ event.toList) =
      takenRefs events ++ (event.bind UdpEvent.taken).toList := by
  unfold takenRefs
  rw [List.filterMap_append]
  cases event with
  | none => rfl
  | some event => cases event <;> rfl

namespace UdpMemory

/-- Where the slots are, when the free list is `free` and `sent` was pushed. -/
def custody (memory : UdpMemory) (sent : List (PacketRef × BufferSlot)) (free : List UInt32) :
    Custody UInt32 where
  store := free
  sender := memory.hand .network
  queue := ((sent.map Prod.fst).drop (memory.clocks.last .head)).filterMap PacketRef.slot
  receiver := memory.hand .matching

/-- The packets that were pushed are in the ring, the slots are in one place each, and who may
use a slot knows all that was done to it. -/
structure Keeps (bits numSlots : ℕ) (memory : UdpMemory) (sent : List (PacketRef × BufferSlot))
    (free : List UInt32) : Prop where
  channel : Channel udpRing bits memory.clocks memory.ring (sent.map Prod.fst)
  stack : FreeStack udpPool memory.clocks memory.pool free
  all : (memory.custody sent free).tokens.Perm (PacketPool.indices numSlots)
  hands : ∀ thread idx, memory.hand thread = some idx →
    SlotKnown udpPool memory.clocks (memory.clocks.view thread) idx
  held : ∀ m ref packet, memory.clocks.last .head ≤ m → sent[m]? = some (ref, packet) →
    ref.poolIdx ≠ kPoolInvalid →
      SlotKnown udpPool memory.clocks (memory.clocks.attached .tail (m + 1)) ref.poolIdx ∧
        memory.slots ref.poolIdx = packet
  received : ∀ idx, memory.hand .matching = some idx →
    ∃ m ref, memory.clocks.last .head = m + 1 ∧ sent[m]? = some (ref, memory.slots idx) ∧
      ref.poolIdx = idx
  pushing : ∀ ref, memory.ring.pusher.value = some ref →
    ref.slot = memory.hand .network ∧ memory.pool.pc .network = .idle
  returning : ∀ thread, ∀ idx ∈ (memory.pool.pc thread).slot, memory.hand thread = some idx

namespace Keeps

variable {bits numSlots : ℕ} {memory : UdpMemory} {sent : List (PacketRef × BufferSlot)}
  {free : List UInt32}

theorem nodup (hkeeps : memory.Keeps bits numSlots sent free) (hslots : numSlots < 2 ^ 32) :
    (memory.custody sent free).tokens.Nodup :=
  hkeeps.all.nodup_iff.mpr (PacketPool.nodup_indices hslots)

theorem valid (hkeeps : memory.Keeps bits numSlots sent free) (hslots : numSlots < 2 ^ 32)
    {idx : UInt32} (hidx : idx ∈ (memory.custody sent free).tokens) : idx ≠ kPoolInvalid :=
  PacketPool.ne_kPoolInvalid_of_mem hslots (hkeeps.all.mem_iff.mp hidx)

/-- A slot in a hand is nowhere else. -/
theorem hand_apart (hkeeps : memory.Keeps bits numSlots sent free) (hslots : numSlots < 2 ^ 32)
    {thread : UdpThread} {idx : UInt32} (hhand : memory.hand thread = some idx) :
    idx ∉ free ∧ ∀ other, other ≠ thread → memory.hand other ≠ some idx := by
  cases thread with
  | network =>
      obtain ⟨hstore, _, hreceiver⟩ := Custody.sender_of_nodup (hkeeps.nodup hslots) hhand
      refine ⟨hstore, fun other hother => ?_⟩
      cases other with
      | network => exact (hother rfl).elim
      | matching => exact hreceiver
  | matching =>
      obtain ⟨hstore, _, hsender⟩ := Custody.receiver_of_nodup (hkeeps.nodup hslots) hhand
      refine ⟨hstore, fun other hother => ?_⟩
      cases other with
      | network => exact hsender
      | matching => exact (hother rfl).elim

/-- A slot in the ring is nowhere else. -/
theorem held_apart (hkeeps : memory.Keeps bits numSlots sent free) (hslots : numSlots < 2 ^ 32)
    {m : ℕ} {ref : PacketRef} {packet : BufferSlot} (hm : memory.clocks.last .head ≤ m)
    (hsent : sent[m]? = some (ref, packet)) (hvalid : ref.poolIdx ≠ kPoolInvalid) :
    ref.poolIdx ∉ free ∧ ∀ thread, memory.hand thread ≠ some ref.poolIdx := by
  have hqueue : ref.poolIdx ∈ (memory.custody sent free).queue := by
    refine List.mem_filterMap.mpr ⟨ref, ?_, if_neg hvalid⟩
    rw [List.mem_iff_getElem?]
    refine ⟨m - memory.clocks.last .head, ?_⟩
    rw [List.getElem?_drop, Nat.add_sub_cancel' hm, List.getElem?_map, hsent]
    rfl
  obtain ⟨hstore, hsender, hreceiver⟩ := Custody.queue_of_nodup (hkeeps.nodup hslots) hqueue
  refine ⟨hstore, fun thread => ?_⟩
  cases thread with
  | network => exact hsender
  | matching => exact hreceiver

/-- An access to the pool or to a slot: the thread uses the head of the free list, slots that
are free and the slot in its hand. -/
theorem useSlots (hkeeps : memory.Keeps bits numSlots sent free) (hslots : numSlots < 2 ^ 32)
    {thread : UdpThread} {locations : UdpAtomic → Prop} {cells : UdpCell → Prop} {next : UdpMemory}
    {free' : List UInt32} (hact : Clocks.Act thread locations cells memory.clocks next.clocks)
    (hlocations : ∀ location, locations location → location = .freeHead)
    (hcells : ∀ cell, cells cell →
      ∃ part idx, cell = .slot part idx ∧ (idx ∈ free ∨ memory.hand thread = some idx))
    (hring : next.ring = memory.ring)
    (hslot : ∀ idx, memory.hand .network ≠ some idx → next.slots idx = memory.slots idx)
    (hstack : FreeStack udpPool next.clocks next.pool free')
    (hall : (Custody.mk free' (next.hand .network) (memory.custody sent free).queue
      (next.hand .matching)).tokens.Perm (memory.custody sent free).tokens)
    (hhands : ∀ thread idx, next.hand thread = some idx → memory.hand thread = some idx ∨
      SlotKnown udpPool next.clocks (next.clocks.view thread) idx)
    (hmatching : ∀ idx, next.hand .matching = some idx → memory.hand .matching = some idx)
    (hnetwork : memory.ring.pusher ≠ .idle →
      next.hand .network = memory.hand .network ∧ next.pool.pc .network = memory.pool.pc .network)
    (hreturning : ∀ thread, ∀ idx ∈ (next.pool.pc thread).slot, next.hand thread = some idx) :
    next.Keeps bits numSlots sent free' := by
  have hhead : next.clocks.last .head = memory.clocks.last .head :=
    hact.last_eq fun hlocation => nomatch hlocations _ hlocation
  have htail : next.clocks.last .tail = memory.clocks.last .tail :=
    hact.last_eq fun hlocation => nomatch hlocations _ hlocation
  have hapart : ∀ idx part, idx ∉ free → memory.hand thread ≠ some idx →
      ¬ cells (.slot part idx) := by
    intro idx part hfree hhand hcell
    obtain ⟨_, other, heq, hother⟩ := hcells _ hcell
    cases heq
    exact hother.elim hfree hhand
  constructor
  · rw [hring]
    refine hkeeps.channel.frame hact.evolves (hact.sound hkeeps.channel.sound) hhead htail ?_
    intro i
    refine hact.accessed_eq fun hcell => ?_
    obtain ⟨_, _, heq, _⟩ := hcells _ hcell
    cases heq
  · exact hstack
  · rw [custody, hhead]
    exact hall.trans hkeeps.all
  · intro other idx hhand
    rcases hhands other idx hhand with hold | hnew
    · by_cases hself : other = thread
      · subst hself
        exact (hkeeps.hands other idx hold).own_act hact
      · obtain ⟨hfree, hothers⟩ := hkeeps.hand_apart hslots hold
        have hkept := (hkeeps.hands other idx hold).act hact
          fun part => hapart idx part hfree (hothers thread (Ne.symm hself))
        exact hkept.mono (hact.evolves.view other)
    · exact hnew
  · intro m ref packet hm hsent hvalid
    rw [hhead] at hm
    obtain ⟨hknown, hpacket⟩ := hkeeps.held m ref packet hm hsent hvalid
    obtain ⟨hfree, hhand⟩ := hkeeps.held_apart hslots hm hsent hvalid
    have hentered : (sent.map Prod.fst)[m]? = some ref := by
      rw [List.getElem?_map, hsent]
      rfl
    have hle : m + 1 ≤ memory.clocks.last .tail := hkeeps.channel.lt_of_getElem? hentered
    rw [hact.evolves.attached _ _ hle, hslot _ (hhand .network)]
    exact ⟨hknown.act hact fun part => hapart _ part hfree (hhand thread), hpacket⟩
  · intro idx hhand
    have hold := hmatching idx hhand
    obtain ⟨m, ref, hm, hsent, hidx⟩ := hkeeps.received idx hold
    have hother := (hkeeps.hand_apart hslots hold).2 .network UdpThread.noConfusion
    rw [hhead, hslot idx hother]
    exact ⟨m, ref, hm, hsent, hidx⟩
  · intro ref hvalue
    rw [hring] at hvalue
    have hbusy : memory.ring.pusher ≠ .idle := by
      intro hidle
      rw [hidle] at hvalue
      cases hvalue
    rw [(hnetwork hbusy).1, (hnetwork hbusy).2]
    exact hkeeps.pushing ref hvalue
  · exact hreturning

/-! ## The turns -/

theorem acquire (hkeeps : memory.Keeps bits numSlots sent free) (hslots : numSlots < 2 ^ 32)
    (hhand : memory.hand .network = none) (hidle : memory.ring.pusher = .idle)
    {clocks : Clocks UdpThread UdpAtomic UdpCell} {pool : WeakPool UdpThread}
    {event : Option PoolEvent}
    (hstep : WeakPool.AcquireStep udpPool memory.clocks memory.pool clocks pool event) :
    ∃ free', (memory.afterPool .network (clocks, pool, event)).1.Keeps bits numSlots sent
      free' := by
  have hact := hstep.act
  have hcells : ∀ cell, (∃ idx, memory.pool.pc udpPool.acquirer = .readNext idx ∧
      cell = udpPool.cell .link idx) → ∃ part idx, cell = .slot part idx ∧
        (idx ∈ free ∨ memory.hand .network = some idx) := by
    rintro cell ⟨idx, hpc, rfl⟩
    have hlooks := hkeeps.stack.looks
    rw [hpc] at hlooks
    exact ⟨.link, idx, rfl, .inl hlooks.1⟩
  have hreturning : ∀ thread, ∀ idx ∈ (pool.pc thread).slot, thread = .matching ∧
      memory.hand thread = some idx := by
    intro thread idx hidx
    cases thread with
    | network =>
        rw [show pool.pc .network = pool.pc udpPool.acquirer from rfl, hstep.slot_eq_nil] at hidx
        cases hidx
    | matching =>
        rw [hstep.pc_of_ne (show UdpThread.matching ≠ udpPool.acquirer from
          UdpThread.noConfusion)] at hidx
        exact ⟨rfl, hkeeps.returning .matching idx hidx⟩
  have hquiet : FreeStack udpPool clocks pool free →
      { memory with clocks, pool }.Keeps bits numSlots sent free := fun stack =>
    hkeeps.useSlots hslots hact (fun _ hlocation => hlocation) hcells rfl (fun _ _ => rfl) stack
      (.refl _) (fun _ _ => .inl) (fun _ => id) (fun hbusy => (hbusy hidle).elim)
      fun thread idx hidx => (hreturning thread idx hidx).2
  cases hkeeps.stack.acquire hstep with
  | silent _ stack => exact ⟨free, hquiet stack⟩
  | exhausted _ _ _ _ _ stack => exact ⟨free, hquiet stack⟩
  | acquired idx rest first _ _ known _ stack =>
      subst first
      refine ⟨rest, hkeeps.useSlots hslots hact (fun _ hlocation => hlocation) hcells rfl
        (fun _ _ => rfl) stack ?_ (fun thread other => ?_) (fun other => ?_)
        (fun hbusy => (hbusy hidle).elim) (fun thread other hother => ?_)⟩
      · rw [custody, hhand]
        dsimp only [afterPool]
        rw [hand_setHand_self, hand_setHand_network_matching]
        exact (Custody.Transfer.take idx rest _ _).tokens_perm
      · dsimp only [afterPool]
        cases thread with
        | network =>
            rw [hand_setHand_self]
            rintro ⟨⟩
            exact .inr known
        | matching =>
            rw [hand_setHand_network_matching]
            exact .inl
      · dsimp only [afterPool]
        rw [hand_setHand_network_matching]
        exact id
      · obtain ⟨rfl, hold⟩ := hreturning thread other hother
        dsimp only [afterPool]
        rw [hand_setHand_network_matching]
        exact hold

/-- A thread releases the slot in its hand. -/
theorem releaseMove (hkeeps : memory.Keeps bits numSlots sent free)
    (hslots : numSlots < 2 ^ 32) {thread : UdpThread} {idx : UInt32}
    (hhand : memory.hand thread = some idx) {clocks : Clocks UdpThread UdpAtomic UdpCell}
    {pool : WeakPool UdpThread} {event : Option PoolEvent}
    (hstep : WeakPool.ReleaseStep udpPool memory.clocks memory.pool thread idx clocks pool
      event) :
    ReleaseMove udpPool memory.clocks free thread idx clocks pool event := by
  obtain ⟨hfree, hothers⟩ := hkeeps.hand_apart hslots hhand
  have hvalid : idx ≠ kPoolInvalid := by
    refine hkeeps.valid hslots (Custody.mem_tokens.mpr ?_)
    cases thread with
    | network => exact .inr (.inl hhand)
    | matching => exact .inr (.inr (.inr hhand))
  exact hkeeps.stack.release hvalid hfree (hkeeps.hands thread idx hhand)
    (fun other hother hslot => hothers other hother (hkeeps.returning other idx hslot)) hstep

theorem release (hkeeps : memory.Keeps bits numSlots sent free) (hslots : numSlots < 2 ^ 32)
    {thread : UdpThread} {idx : UInt32} (hhand : memory.hand thread = some idx)
    (hidle : thread = .network → memory.ring.pusher = .idle)
    {clocks : Clocks UdpThread UdpAtomic UdpCell} {pool : WeakPool UdpThread}
    {event : Option PoolEvent}
    (hstep : WeakPool.ReleaseStep udpPool memory.clocks memory.pool thread idx clocks pool
      event) :
    ∃ free', (memory.afterPool thread (clocks, pool, event)).1.Keeps bits numSlots sent
      free' := by
  have hact := hstep.act
  have hcells : ∀ cell, cell = udpPool.cell .link idx → ∃ part other, cell = .slot part other ∧
      (other ∈ free ∨ memory.hand thread = some other) :=
    fun _ hcell => ⟨.link, idx, hcell, .inr hhand⟩
  have hnetwork : memory.ring.pusher ≠ .idle → pool.pc .network = memory.pool.pc .network :=
    fun hbusy => hstep.pc_of_ne fun hself => hbusy (hidle hself.symm)
  cases hkeeps.releaseMove hslots hhand hstep with
  | silent _ keeps stack =>
      refine ⟨free, hkeeps.useSlots hslots hact (fun _ hlocation => hlocation) hcells rfl
        (fun _ _ => rfl) stack (.refl _) (fun _ _ => .inl) (fun _ => id)
        (fun hbusy => ⟨rfl, hnetwork hbusy⟩) ?_⟩
      intro other slot hslot
      change slot ∈ (pool.pc other).slot at hslot
      by_cases hself : other = thread
      · subst hself
        rw [keeps] at hslot
        rw [List.mem_singleton.mp hslot]
        exact hhand
      · rw [hstep.pc_of_ne hself] at hslot
        exact hkeeps.returning other slot hslot
  | released _ _ idle stack =>
      refine ⟨idx :: free, hkeeps.useSlots hslots hact (fun _ hlocation => hlocation) hcells rfl
        (fun _ _ => rfl) stack ?_ (fun thread' slot => ?_) (fun slot => ?_) (fun hbusy => ?_)
        (fun thread' slot hslot => ?_)⟩
      · dsimp only [afterPool]
        cases thread with
        | network =>
            rw [custody, hhand, hand_setHand_self, hand_setHand_network_matching]
            exact (Custody.Transfer.putBack idx free _ _).tokens_perm
        | matching =>
            rw [custody, hhand, hand_setHand_self, hand_setHand_matching_network]
            exact (Custody.Transfer.finish idx free _ _).tokens_perm
      · dsimp only [afterPool]
        by_cases hself : thread' = thread
        · rw [hself, hand_setHand_self]
          exact fun hnone => nomatch hnone
        · rw [hand_setHand_of_ne hself]
          exact .inl
      · dsimp only [afterPool]
        cases thread with
        | network =>
            rw [hand_setHand_network_matching]
            exact id
        | matching =>
            rw [hand_setHand_self]
            exact fun hnone => nomatch hnone
      · cases thread with
        | network => exact (hbusy (hidle rfl)).elim
        | matching => exact ⟨hand_setHand_matching_network _ _, hnetwork hbusy⟩
      · dsimp only [afterPool] at hslot ⊢
        by_cases hself : thread' = thread
        · rw [hself] at hslot
          change slot ∈ (pool.pc thread).slot at hslot
          rw [idle] at hslot
          cases hslot
        · rw [hand_setHand_of_ne hself]
          change slot ∈ (pool.pc thread').slot at hslot
          rw [hstep.pc_of_ne hself] at hslot
          exact hkeeps.returning thread' slot hslot

/-- A thread uses the packet of the slot in its hand. -/
theorem usePacket (hkeeps : memory.Keeps bits numSlots sent free) (hslots : numSlots < 2 ^ 32)
    {thread : UdpThread} {idx : UInt32} (hhand : memory.hand thread = some idx)
    (kind : Access) {slots : UInt32 → BufferSlot}
    (hslot : ∀ other, memory.hand .network ≠ some other → slots other = memory.slots other) :
    { memory with clocks := memory.clocks.access thread (.slot .packet idx) kind, slots }.Keeps
      bits numSlots sent free := by
  have hact : Clocks.Act thread (fun _ => False) (· = UdpCell.slot .packet idx) memory.clocks
      (memory.clocks.access thread (.slot .packet idx) kind) := .access _ kind rfl
  refine hkeeps.useSlots hslots hact (fun _ => False.elim)
    (fun cell hcell => ⟨.packet, idx, hcell, .inr hhand⟩) rfl hslot ?_ (.refl _) (fun _ _ => .inl)
    (fun _ => id) (fun _ => ⟨rfl, rfl⟩) hkeeps.returning
  refine hkeeps.stack.frame hact.evolves (hact.sound hkeeps.stack.sound) rfl ?_
  intro view other hother hknown
  refine hknown.congr fun part => hact.accessed_eq fun hcell => ?_
  cases hcell
  exact (hkeeps.hand_apart hslots hhand).1 hother

section Ring

variable {thread : UdpThread} {locations : UdpAtomic → Prop}
  {clocks : Clocks UdpThread UdpAtomic UdpCell}

/-- The cells of the ring are no part of a slot. -/
theorem known_of_ring {view : View UdpThread UdpAtomic} {idx : UInt32}
    (hknown : SlotKnown udpPool memory.clocks view idx)
    (hact : Clocks.Act thread locations (fun cell => ∃ i, cell = udpRing.cell i) memory.clocks
      clocks) : SlotKnown udpPool clocks view idx :=
  hknown.act hact fun _ ⟨_, hcell⟩ => nomatch hcell

theorem stack_of_ring (hkeeps : memory.Keeps bits numSlots sent free)
    (hact : Clocks.Act thread locations (fun cell => ∃ i, cell = udpRing.cell i) memory.clocks
      clocks) (hlocation : ¬ locations .freeHead) :
    FreeStack udpPool clocks memory.pool free :=
  hkeeps.stack.frame hact.evolves (hact.sound hkeeps.stack.sound) (hact.last_eq hlocation)
    fun _ _ _ hknown => hknown.congr fun _ => hact.accessed_eq fun ⟨_, hcell⟩ => nomatch hcell

/-- An access to the ring leaves the packets that it holds. -/
theorem held_of_ring (hkeeps : memory.Keeps bits numSlots sent free)
    (hact : Clocks.Act thread locations (fun cell => ∃ i, cell = udpRing.cell i) memory.clocks
      clocks) {m : ℕ} {ref : PacketRef} {packet : BufferSlot}
    (hm : memory.clocks.last .head ≤ m) (hsent : sent[m]? = some (ref, packet))
    (hvalid : ref.poolIdx ≠ kPoolInvalid) :
    SlotKnown udpPool clocks (clocks.attached .tail (m + 1)) ref.poolIdx ∧
      memory.slots ref.poolIdx = packet := by
  obtain ⟨hknown, hpacket⟩ := hkeeps.held m ref packet hm hsent hvalid
  have hentered : (sent.map Prod.fst)[m]? = some ref := by
    rw [List.getElem?_map, hsent]
    rfl
  have hattached : clocks.attached .tail (m + 1) = memory.clocks.attached .tail (m + 1) :=
    hact.evolves.attached _ _ (hkeeps.channel.lt_of_getElem? hentered)
  rw [hattached]
  exact ⟨known_of_ring hknown hact, hpacket⟩

/-- An access to the ring that answers nothing new keeps what there is. -/
theorem useRing (hkeeps : memory.Keeps bits numSlots sent free) {ring : WeakRing PacketRef}
    (hact : Clocks.Act thread locations (fun cell => ∃ i, cell = udpRing.cell i) memory.clocks
      clocks) (hlocation : ¬ locations .freeHead)
    (hhead : clocks.last .head = memory.clocks.last .head)
    (hchannel : Channel udpRing bits clocks ring (sent.map Prod.fst))
    (hpushing : ∀ ref, ring.pusher.value = some ref →
      ref.slot = memory.hand .network ∧ memory.pool.pc .network = .idle) :
    { memory with clocks, ring }.Keeps bits numSlots sent free where
  channel := hchannel
  stack := hkeeps.stack_of_ring hact hlocation
  all := by
    rw [custody, hhead]
    exact hkeeps.all
  hands other idx hhand :=
    (known_of_ring (hkeeps.hands other idx hhand) hact).mono (hact.evolves.view other)
  held m ref packet hm hsent hvalid := by
    rw [hhead] at hm
    exact hkeeps.held_of_ring hact hm hsent hvalid
  received := by
    rw [hhead]
    exact hkeeps.received
  pushing := hpushing
  returning := hkeeps.returning

end Ring

/-- A reference is pushed, and with it the slot in the hand of the network thread. -/
theorem pushed (hkeeps : memory.Keeps bits numSlots sent free)
    {ref : PacketRef} {clocks : Clocks UdpThread UdpAtomic UdpCell} {ring : WeakRing PacketRef}
    (hact : Clocks.Act .network (· = udpRing.tail) (fun cell => ∃ i, cell = udpRing.cell i)
      memory.clocks clocks)
    (hslot : ref.slot = memory.hand .network) (hpc : memory.pool.pc .network = .idle)
    (hpusher : ring.pusher = .idle)
    (hhead : clocks.last .head = memory.clocks.last .head)
    (hcarried : clocks.attached .tail ((sent.map Prod.fst).length + 1) = clocks.view .network)
    (hchannel : Channel udpRing bits clocks ring (sent.map Prod.fst ++ [ref])) :
    (memory.afterRing (clocks, ring, some (.pushed ref))).1.Keeps bits numSlots
      (sent ++ [(ref, memory.slots ref.poolIdx)]) free := by
  have hbehind : memory.clocks.last .head ≤ (sent.map Prod.fst).length := by
    rw [hkeeps.channel.count]
    exact hkeeps.channel.ends.head_le
  have hquiet : ∀ other idx, memory.hand other = some idx →
      SlotKnown udpPool clocks (clocks.view other) idx := fun other idx hhand =>
    (known_of_ring (hkeeps.hands other idx hhand) hact).mono (hact.evolves.view other)
  dsimp only [afterRing]
  constructor
  · rw [List.map_append]
    exact hchannel
  · exact hkeeps.stack_of_ring hact UdpAtomic.noConfusion
  · have hall := hkeeps.all
    rw [custody, hand_setHand_self, hand_setHand_network_matching]
    change (Custody.mk free none (((sent ++ [(ref, memory.slots ref.poolIdx)]).map Prod.fst).drop
      (clocks.last .head) |>.filterMap PacketRef.slot) (memory.hand .matching)).tokens.Perm _
    rw [hhead, List.map_append, List.drop_append_of_le_length hbehind, List.filterMap_append]
    cases hcase : ref.slot with
    | none =>
        rw [custody, ← hslot, hcase] at hall
        simpa [hcase] using hall
    | some idx =>
        rw [custody, ← hslot, hcase] at hall
        have hsend := (Custody.Transfer.send idx free
          (((sent.map Prod.fst).drop (memory.clocks.last .head)).filterMap PacketRef.slot)
          (memory.hand .matching)).tokens_perm
        simpa [hcase] using hsend.trans hall
  · intro other idx hhand
    cases other with
    | network =>
        rw [hand_setHand_self] at hhand
        cases hhand
    | matching =>
        rw [hand_setHand_network_matching] at hhand
        exact hquiet .matching idx hhand
  · intro m other packet hm hsent hvalid
    change clocks.last .head ≤ m at hm
    change SlotKnown udpPool clocks (clocks.attached .tail (m + 1)) other.poolIdx ∧
      memory.slots other.poolIdx = packet
    rw [hhead] at hm
    rcases Nat.lt_or_ge m sent.length with hold | hlast
    · rw [List.getElem?_append_left hold] at hsent
      exact hkeeps.held_of_ring hact hm hsent hvalid
    · rw [List.getElem?_append_right hlast, List.getElem?_singleton] at hsent
      split at hsent
      case isTrue hzero =>
          cases hsent
          obtain rfl : m = sent.length := by omega
          rw [List.length_map] at hcarried
          rw [hcarried]
          refine ⟨hquiet .network _ ?_, rfl⟩
          rw [← hslot]
          exact if_neg hvalid
      case isFalse => cases hsent
  · intro idx hhand
    rw [hand_setHand_network_matching] at hhand
    obtain ⟨m, other, hm, hsent, hidx⟩ := hkeeps.received idx hhand
    refine ⟨m, other, hhead.trans hm, ?_, hidx⟩
    rw [List.getElem?_append_left (List.getElem?_eq_some_iff.mp hsent).1]
    exact hsent
  · intro other hvalue
    change ring.pusher.value = some other at hvalue
    rw [hpusher] at hvalue
    cases hvalue
  · intro other idx hidx
    change idx ∈ (memory.pool.pc other).slot at hidx
    cases other with
    | network =>
        rw [hpc] at hidx
        cases hidx
    | matching =>
        rw [hand_setHand_network_matching]
        exact hkeeps.returning .matching idx hidx

theorem push (hkeeps : memory.Keeps bits numSlots sent free)
    {ref : PacketRef} (hguard : memory.ring.pusher = .idle →
      ref.slot = memory.hand .network ∧ memory.pool.pc .network = .idle) (age : ℕ) :
    (memory.afterRing (memory.ring.push udpRing memory.clocks ref age)).1.Keeps bits numSlots
      (sent ++ ((memory.afterRing (memory.ring.push udpRing memory.clocks ref age)).2.bind
        UdpEvent.sent).toList) free := by
  have hact := memory.ring.push_act udpRing memory.clocks ref age
  have hmove := hkeeps.channel.push ref age
  have hslot : (memory.ring.pusher.value.getD ref).slot = memory.hand .network ∧
      memory.pool.pc .network = .idle := by
    cases hpusher : memory.ring.pusher.value with
    | none => exact hguard (Pusher.eq_idle_of_value hpusher)
    | some value => exact hkeeps.pushing value hpusher
  generalize memory.ring.push udpRing memory.clocks ref age = result at hact hmove ⊢
  generalize memory.ring.pusher.value.getD ref = value at hmove hslot
  obtain ⟨clocks, ring, event⟩ := result
  dsimp only at hact hmove
  have hlocation : ¬ UdpAtomic.freeHead = udpRing.tail := UdpAtomic.noConfusion
  cases hmove with
  | silent head busy channel =>
      change Keeps bits numSlots _ (sent ++ []) free
      rw [List.append_nil]
      refine hkeeps.useRing hact hlocation head channel fun other hother => ?_
      rw [busy] at hother
      cases hother
      exact hslot
  | refused head idle _ _ _ _ channel =>
      change Keeps bits numSlots _ (sent ++ []) free
      rw [List.append_nil]
      refine hkeeps.useRing hact hlocation head channel fun other hother => ?_
      rw [idle] at hother
      cases hother
  | pushed head idle carried channel =>
      exact hkeeps.pushed hact hslot.1 hslot.2 idle head carried channel

/-- A reference is popped, and with it its slot. -/
theorem popped (hkeeps : memory.Keeps bits numSlots sent free)
    (hhand : memory.hand .matching = none) {ref : PacketRef}
    {clocks : Clocks UdpThread UdpAtomic UdpCell} {ring : WeakRing PacketRef}
    (hact : Clocks.Act .matching (· = udpRing.head) (fun cell => ∃ i, cell = udpRing.cell i)
      memory.clocks clocks)
    (hpusher : ring.pusher = memory.ring.pusher)
    (hfirst : (sent.map Prod.fst)[memory.clocks.last .head]? = some ref)
    (hhead : clocks.last .head = memory.clocks.last .head + 1)
    (hlearnt : memory.clocks.attached .tail (memory.clocks.last .head + 1) ≤
      clocks.view .matching)
    (hchannel : Channel udpRing bits clocks ring (sent.map Prod.fst)) :
    (memory.afterRing (clocks, ring, some (.popped ref))).1.Keeps bits numSlots sent free := by
  have hquiet : ∀ other idx, memory.hand other = some idx →
      SlotKnown udpPool clocks (clocks.view other) idx := fun other idx hhand =>
    (known_of_ring (hkeeps.hands other idx hhand) hact).mono (hact.evolves.view other)
  have hless : memory.clocks.last .head < (sent.map Prod.fst).length :=
    (List.getElem?_eq_some_iff.mp hfirst).1
  have hdrop : (sent.map Prod.fst).drop (memory.clocks.last .head) =
      ref :: (sent.map Prod.fst).drop (memory.clocks.last .head + 1) := by
    rw [List.drop_eq_getElem_cons hless]
    rw [(List.getElem?_eq_some_iff.mp hfirst).2]
  rw [List.getElem?_map] at hfirst
  obtain ⟨⟨other, packet⟩, hsent, hsame⟩ := Option.map_eq_some_iff.mp hfirst
  obtain rfl : other = ref := hsame
  have hfound : ∀ idx, other.slot = some idx → other.poolIdx = idx ∧
      SlotKnown udpPool clocks (clocks.view .matching) idx ∧ memory.slots idx = packet := by
    intro idx hslot
    obtain ⟨hvalid, hidx⟩ := PacketRef.slot_eq_some_iff.mp hslot
    subst hidx
    obtain ⟨hknown, hpacket⟩ := hkeeps.held _ other packet (Nat.le_refl _) hsent hvalid
    exact ⟨rfl, known_of_ring (hknown.mono hlearnt) hact, hpacket⟩
  dsimp only [afterRing]
  constructor
  · exact hchannel
  · exact hkeeps.stack_of_ring hact UdpAtomic.noConfusion
  · have hall := hkeeps.all
    rw [custody, hand_setHand_self, hand_setHand_matching_network]
    change (Custody.mk free (memory.hand .network) (((sent.map Prod.fst).drop
      (clocks.last .head)).filterMap PacketRef.slot) _).tokens.Perm _
    rw [custody, hhand, hdrop] at hall
    rw [hhead]
    cases hcase : other.slot with
    | none => simpa [hcase] using hall
    | some idx =>
        rw [List.filterMap_cons_some hcase] at hall
        exact (Custody.Transfer.deliver idx free _ _).tokens_perm.trans hall
  · intro other idx hidx
    cases other with
    | network =>
        rw [hand_setHand_matching_network] at hidx
        exact hquiet .network idx hidx
    | matching =>
        rw [hand_setHand_self] at hidx
        exact (hfound idx hidx).2.1
  · intro m other packet' hm hsent' hvalid
    change clocks.last .head ≤ m at hm
    rw [hhead] at hm
    exact hkeeps.held_of_ring hact (Nat.le_of_succ_le hm) hsent' hvalid
  · intro idx hidx
    rw [hand_setHand_self] at hidx
    obtain ⟨hsame, _, hpacket⟩ := hfound idx hidx
    refine ⟨memory.clocks.last .head, other, hhead, ?_, hsame⟩
    change sent[memory.clocks.last .head]? = some (other, memory.slots idx)
    rw [hpacket]
    exact hsent
  · rw [hand_setHand_matching_network]
    change ∀ ref, ring.pusher.value = some ref → _
    rw [hpusher]
    exact hkeeps.pushing
  · intro other idx hidx
    change idx ∈ (memory.pool.pc other).slot at hidx
    have hold := hkeeps.returning other idx hidx
    cases other with
    | network =>
        rw [hand_setHand_matching_network]
        exact hold
    | matching =>
        rw [hhand] at hold
        cases hold

theorem pop (hkeeps : memory.Keeps bits numSlots sent free)
    (hhand : memory.hand .matching = none) (age : ℕ) :
    (memory.afterRing (memory.ring.pop udpRing memory.clocks age)).1.Keeps bits numSlots
      (sent ++ ((memory.afterRing (memory.ring.pop udpRing memory.clocks age)).2.bind
        UdpEvent.sent).toList) free := by
  have hact := memory.ring.pop_act udpRing memory.clocks age
  have hmove := hkeeps.channel.pop age
  have hpusher := memory.ring.pusher_pop udpRing memory.clocks age
  generalize memory.ring.pop udpRing memory.clocks age = result at hact hmove hpusher ⊢
  obtain ⟨clocks, ring, event⟩ := result
  dsimp only at hact hmove hpusher
  have hlocation : ¬ UdpAtomic.freeHead = udpRing.head := UdpAtomic.noConfusion
  have hpushing : ∀ ref, ring.pusher.value = some ref →
      ref.slot = memory.hand .network ∧ memory.pool.pc .network = .idle := by
    rw [hpusher]
    exact hkeeps.pushing
  cases hmove with
  | silent head channel =>
      change Keeps bits numSlots _ (sent ++ []) free
      rw [List.append_nil]
      exact hkeeps.useRing hact hlocation head channel hpushing
  | empty head _ channel =>
      change Keeps bits numSlots _ (sent ++ []) free
      rw [List.append_nil]
      exact hkeeps.useRing hact hlocation head channel hpushing
  | popped out first head learnt channel =>
      change Keeps bits numSlots _ (sent ++ []) free
      rw [List.append_nil]
      exact hkeeps.popped hhand hact hpusher first head learnt channel

end Keeps

/-! ## Runs -/

/-- What a turn can be. -/
inductive Step (memory : UdpMemory) : UdpMemory × Option UdpEvent → Prop
  | acquire (clocks : Clocks UdpThread UdpAtomic UdpCell) (pool : WeakPool UdpThread)
      (event : Option PoolEvent) (hhand : memory.hand .network = none)
      (hidle : memory.ring.pusher = .idle)
      (hstep : WeakPool.AcquireStep udpPool memory.clocks memory.pool clocks pool event) :
      Step memory (memory.afterPool .network (clocks, pool, event))
  | fill (idx : UInt32) (write : BufferSlot → BufferSlot)
      (hhand : memory.hand .network = some idx) :
      Step memory
        ({ memory with
          clocks := memory.clocks.access .network (.slot .packet idx) .write
          slots := Function.update memory.slots idx (write (memory.slots idx)) }, none)
  | push (ref : PacketRef) (age : ℕ)
      (hguard : memory.ring.pusher = .idle →
        ref.slot = memory.hand .network ∧ memory.pool.pc .network = .idle) :
      Step memory (memory.afterRing (memory.ring.push udpRing memory.clocks ref age))
  | release (thread : UdpThread) (idx : UInt32) (clocks : Clocks UdpThread UdpAtomic UdpCell)
      (pool : WeakPool UdpThread) (event : Option PoolEvent)
      (hhand : memory.hand thread = some idx)
      (hidle : thread = .network → memory.ring.pusher = .idle)
      (hstep : WeakPool.ReleaseStep udpPool memory.clocks memory.pool thread idx clocks pool
        event) :
      Step memory (memory.afterPool thread (clocks, pool, event))
  | pop (age : ℕ) (hhand : memory.hand .matching = none) :
      Step memory (memory.afterRing (memory.ring.pop udpRing memory.clocks age))
  | read (idx : UInt32) (hhand : memory.hand .matching = some idx) :
      Step memory
        ({ memory with clocks := memory.clocks.access .matching (.slot .packet idx) .read },
          some (.read (memory.slots idx)))

variable {bits numSlots : ℕ} {memory : UdpMemory} {sent : List (PacketRef × BufferSlot)}
  {free : List UInt32} {result : UdpMemory × Option UdpEvent}

theorem step_cases {turn : UdpTurn} (hresult : memory.step turn = some result)
    (hreturning : ∀ thread, ∀ idx ∈ (memory.pool.pc thread).slot,
      memory.hand thread = some idx) : memory.Step result := by
  cases turn with
  | acquire age spurious =>
      obtain ⟨hguard, hresult⟩ := Option.ite_none_right_eq_some.mp hresult
      obtain ⟨⟨clocks, pool, answer⟩, hacquire, rfl⟩ := Option.map_eq_some_iff.mp hresult
      exact .acquire clocks pool answer hguard.1 hguard.2
        (WeakPool.acquireStep_of_acquire hacquire)
  | fill write =>
      obtain ⟨idx, hhand, hresult⟩ := Option.bind_eq_some_iff.mp hresult
      obtain ⟨_, hresult⟩ := Option.ite_none_right_eq_some.mp hresult
      obtain rfl := Option.some.inj hresult
      exact .fill idx write hhand
  | push ref age =>
      obtain ⟨hguard, hresult⟩ := Option.ite_none_right_eq_some.mp hresult
      obtain rfl := Option.some.inj hresult
      exact .push ref age hguard
  | release thread age spurious =>
      obtain ⟨idx, hhand, hresult⟩ := Option.bind_eq_some_iff.mp hresult
      obtain ⟨hguard, hresult⟩ := Option.ite_none_right_eq_some.mp hresult
      obtain ⟨⟨clocks, pool, answer⟩, hrelease, rfl⟩ := Option.map_eq_some_iff.mp hresult
      refine .release thread idx clocks pool answer hhand hguard
        (WeakPool.releaseStep_of_release (fun other hother => ?_) hrelease)
      have hold := hreturning thread other hother
      rw [hhand] at hold
      exact (Option.some.inj hold).symm
  | pop age =>
      obtain ⟨hguard, hresult⟩ := Option.ite_none_right_eq_some.mp hresult
      obtain rfl := Option.some.inj hresult
      exact .pop age hguard
  | read =>
      obtain ⟨idx, hhand, hresult⟩ := Option.bind_eq_some_iff.mp hresult
      obtain ⟨_, hresult⟩ := Option.ite_none_right_eq_some.mp hresult
      obtain rfl := Option.some.inj hresult
      exact .read idx hhand

/-- The pool sends nothing. -/
theorem sent_afterPool (memory : UdpMemory) (thread : UdpThread)
    (result : Clocks UdpThread UdpAtomic UdpCell × WeakPool UdpThread × Option PoolEvent) :
    (memory.afterPool thread result).2.bind UdpEvent.sent = none := by
  obtain ⟨clocks, pool, event⟩ := result
  cases event with
  | none => rfl
  | some event => cases event <;> rfl

theorem Keeps.step (hkeeps : memory.Keeps bits numSlots sent free) (hslots : numSlots < 2 ^ 32)
    (hstep : memory.Step result) :
    ∃ free', result.1.Keeps bits numSlots (sent ++ (result.2.bind UdpEvent.sent).toList)
      free' := by
  cases hstep with
  | acquire clocks pool answer hhand hidle hstep =>
      rw [sent_afterPool, Option.toList_none, List.append_nil]
      exact hkeeps.acquire hslots hhand hidle hstep
  | fill idx write hhand =>
      refine ⟨free, (List.append_nil sent).symm ▸ hkeeps.usePacket hslots hhand .write ?_⟩
      intro other hother
      have hne : other ≠ idx := fun hsame => hother (hsame ▸ hhand)
      exact Function.update_of_ne hne ..
  | push ref age hguard => exact ⟨free, hkeeps.push hguard age⟩
  | release thread idx clocks pool answer hhand hidle hstep =>
      rw [sent_afterPool, Option.toList_none, List.append_nil]
      exact hkeeps.release hslots hhand hidle hstep
  | pop age hhand => exact ⟨free, hkeeps.pop hhand age⟩
  | read idx hhand =>
      exact ⟨free, (List.append_nil sent).symm ▸
        hkeeps.usePacket hslots hhand .read fun _ _ => rfl⟩

theorem keeps_initial (bits : ℕ) (hsome : 0 < numSlots) (hslots : numSlots < 2 ^ 32) :
    (initial numSlots (2 ^ bits)).Keeps bits numSlots [] (PacketPool.indices numSlots) where
  channel := .initial udpRing bits
  stack := .initial udpPool hsome hslots
  all := by
    rw [Custody.tokens]
    exact List.append_nil _ ▸ List.Perm.refl _
  hands _ _ hhand := nomatch hhand
  held _ _ _ _ hsent _ := nomatch hsent
  received _ hhand := nomatch hhand
  pushing _ hvalue := nomatch hvalue
  returning _ _ hidx := nomatch hidx

end UdpMemory

end Orderbook
