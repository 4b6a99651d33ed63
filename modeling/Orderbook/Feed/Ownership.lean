/-
# Who holds a slot

The threads pass slots to each other by their indices, and nothing but the program
counters says whose a slot is. Every step of the system either leaves all slots where
they are or moves one of them on: from the free list to the hand of the network
thread, back to the free list or into the ring, from there to the hand of the matching
thread, and from that to the free list. So every slot is in one of these places and in
no other, whatever arrives and however the threads interleave.
-/

import Orderbook.Feed.Pipeline
import Orderbook.Feed.Sequence
import Orderbook.Math.Custody

namespace Orderbook

open Orderbook.Math

/-- The slot that a reference in the ring stands for. The sentinel has none. -/
def PacketRef.slot (ref : PacketRef) : Option UInt32 :=
  if ref.poolIdx = kPoolInvalid then none else some ref.poolIdx

/-- Where the slots are, when the free list is `free`. -/
def Pipeline.custody (pipe : Pipeline) (free : List UInt32) : Custody UInt32 where
  store := free
  sender := pipe.network.hand
  queue := pipe.ring.filterMap PacketRef.slot
  receiver := pipe.matching.hand

/-- A step leaves the slots where they are, writes to the slot in the hand of the
network thread, or moves one slot on. -/
inductive SlotMove (room : ℕ) (pipe next : Pipeline) : Prop
  | quiet (hpool : next.pool = pipe.pool) (hring : next.ring = pipe.ring)
      (hnetwork : next.network.hand = pipe.network.hand)
      (hmatching : next.matching.hand = pipe.matching.hand) : SlotMove room pipe next
  | write (slotIdx : UInt32) (edit : BufferSlot → BufferSlot)
      (hhand : pipe.network.hand = some slotIdx) (hpool : next.pool = pipe.pool.modify slotIdx edit)
      (hring : next.ring = pipe.ring) (hnetwork : next.network.hand = pipe.network.hand)
      (hmatching : next.matching.hand = pipe.matching.hand) : SlotMove room pipe next
  | take (hslot : pipe.pool.acquire.1 ≠ kPoolInvalid) (hhand : pipe.network.hand = none)
      (hpool : next.pool = pipe.pool.acquire.2) (hring : next.ring = pipe.ring)
      (hnetwork : next.network.hand = some pipe.pool.acquire.1)
      (hmatching : next.matching.hand = pipe.matching.hand) : SlotMove room pipe next
  | putBack (slotIdx : UInt32) (hhand : pipe.network.hand = some slotIdx)
      (hpool : next.pool = pipe.pool.release slotIdx) (hring : next.ring = pipe.ring)
      (hnetwork : next.network.hand = none)
      (hmatching : next.matching.hand = pipe.matching.hand) : SlotMove room pipe next
  | send (ref : PacketRef) (resume : Resume) (hpc : pipe.network = .pushing ref resume)
      (hring : QueueStep room pipe.ring (.pushed ref) next.ring) (hpool : next.pool = pipe.pool)
      (hnetwork : next.network.hand = none)
      (hmatching : next.matching.hand = pipe.matching.hand) : SlotMove room pipe next
  | sentinel (tWire : UInt64)
      (hring : QueueStep room pipe.ring (.pushed ⟨kPoolInvalid, tWire⟩) next.ring)
      (hpool : next.pool = pipe.pool) (hnetwork : next.network.hand = pipe.network.hand)
      (hmatching : next.matching.hand = pipe.matching.hand) : SlotMove room pipe next
  | deliver (ref : PacketRef) (hring : QueueStep room pipe.ring (.popped ref) next.ring)
      (hhand : pipe.matching.hand = none) (hpool : next.pool = pipe.pool)
      (hnetwork : next.network.hand = pipe.network.hand)
      (hmatching : next.matching.hand = ref.slot) : SlotMove room pipe next
  | finish (slotIdx : UInt32) (hhand : pipe.matching.hand = some slotIdx)
      (hpool : next.pool = pipe.pool.release slotIdx) (hring : next.ring = pipe.ring)
      (hnetwork : next.network.hand = pipe.network.hand)
      (hmatching : next.matching.hand = none) : SlotMove room pipe next

theorem PacketPool.acquire_snd_of_invalid {pool : PacketPool}
    (hinvalid : pool.acquire.1 = kPoolInvalid) : pool.acquire.2 = pool := by
  unfold PacketPool.acquire at hinvalid ⊢
  split at hinvalid
  case isTrue hvalid => exact absurd hinvalid hvalid
  case isFalse hempty => rw [if_neg hempty]

theorem Resume.hand_pc (resume : Resume) : resume.pc.hand = none := by
  cases resume <;> rfl

theorem AfterRelease.hand_pc (next : AfterRelease) : next.pc.hand = none := by
  cases next with
  | again resume => exact resume.hand_pc
  | leave => rfl
  | endSession => rfl

variable {port : UInt16} {room : ℕ} {pipe next : Pipeline}

theorem NetworkStep.slotMove (hstep : NetworkStep port room pipe next) :
    SlotMove room pipe next := by
  cases hstep with
  | setUp useXdp hpc => exact .quiet rfl rfl (by rw [hpc]; rfl) rfl
  | stopped useXdp hpc hstop => exact .quiet rfl rfl (by rw [hpc]; rfl) rfl
  | loop useXdp hpc hstop => exact .quiet rfl rfl (by rw [hpc]; cases useXdp <;> rfl) rfl
  | acquire hpc =>
      by_cases hslot : pipe.pool.acquire.1 = kPoolInvalid
      · refine .quiet (PacketPool.acquire_snd_of_invalid hslot) rfl ?_ rfl
        rw [hpc, if_pos hslot]
        rfl
      · refine .take hslot (by rw [hpc]; rfl) rfl rfl ?_ rfl
        rw [if_neg hslot]
        rfl
  | drain recv hpc => exact .quiet rfl rfl (by rw [hpc]; rfl) rfl
  | interrupted slotIdx hpc => exact .quiet rfl rfl (by rw [hpc]; rfl) rfl
  | short slotIdx payload hpc hshort =>
      exact .write slotIdx (fun slot => slot.overwrite (received payload)) (by rw [hpc]; rfl) rfl
        rfl (by rw [hpc]; rfl) rfl
  | receive slotIdx payload tWire hpc hlong feed verdict htrack =>
      refine .write slotIdx (fun slot => slot.fill (received payload)) (by rw [hpc]; rfl) rfl rfl
        ?_ rfl
      rw [hpc]
      cases verdict <;> rfl
  | peek tWire frames hpc hbatch => exact .quiet rfl rfl (by rw [hpc]; rfl) rfl
  | batchDone tWire hpc => exact .quiet rfl rfl (by rw [hpc]; rfl) rfl
  | skip tWire frame frames hpc hnone => exact .quiet rfl rfl (by rw [hpc]; rfl) rfl
  | scan tWire frame frames moldPkt hpc hsome feed verdict htrack =>
      refine .quiet rfl rfl ?_ rfl
      rw [hpc]
      cases verdict <;> rfl
  | claim moldPkt tWire frames hpc hslot =>
      exact .take hslot (by rw [hpc]; rfl) rfl rfl rfl rfl
  | noSlot moldPkt tWire frames hpc hslot =>
      exact .quiet (PacketPool.acquire_snd_of_invalid hslot) rfl (by rw [hpc]; rfl) rfl
  | copy slotIdx moldPkt tWire frames hpc =>
      exact .write slotIdx (fun slot => slot.fill (received moldPkt)) (by rw [hpc]; rfl) rfl rfl
        (by rw [hpc]; rfl) rfl
  | push ref resume ring hpc hring => exact .send ref resume hpc hring rfl resume.hand_pc rfl
  | refuse ref resume ring hpc hring =>
      exact .quiet rfl hring.of_refused.2 (by rw [hpc]; rfl) rfl
  | release slotIdx after hpc => exact .putBack slotIdx (by rw [hpc]; rfl) rfl rfl after.hand_pc rfl
  | sentinel tWire ring hpc hring => exact .sentinel tWire hring rfl (by rw [hpc]; rfl) rfl
  | sentinelRefused tWire ring hpc hring =>
      exact .quiet rfl hring.of_refused.2 (by rw [hpc]; rfl) rfl
  | waitStopped tWire hpc hstop => exact .quiet rfl rfl (by rw [hpc]; rfl) rfl
  | waitOn tWire hpc hstop => exact .quiet rfl rfl (by rw [hpc]; rfl) rfl

theorem MatchingStep.slotMove (hstep : MatchingStep room pipe next) : SlotMove room pipe next := by
  cases hstep with
  | pop spinBudget ref ring hpc hring =>
      refine .deliver ref hring (by rw [hpc]; rfl) rfl rfl ?_
      unfold PacketRef.slot
      split <;> rfl
  | miss spinBudget ring hpc hring =>
      obtain ⟨hempty, hstill⟩ := hring.of_empty
      refine .quiet rfl (hstill.trans hempty.symm) rfl ?_
      rw [hpc]
      split <;> rfl
  | check hpc =>
      refine .quiet rfl rfl rfl ?_
      rw [hpc]
      cases pipe.stop <;> rfl
  | walk ref hpc => exact .quiet rfl rfl rfl (by rw [hpc]; rfl)
  | release slotIdx hpc => exact .finish slotIdx (by rw [hpc]; rfl) rfl rfl rfl rfl
  | stop hpc => exact .quiet rfl rfl rfl (by rw [hpc]; rfl)
  | join hpc hfinished => exact .quiet rfl rfl rfl (by rw [hpc]; rfl)

theorem NetworkFault.slotMove (hfault : NetworkFault pipe next) : SlotMove room pipe next := by
  cases hfault with
  | setUp hpc => exact .quiet rfl rfl (by rw [hpc]; rfl) rfl
  | recv slotIdx hpc => exact .quiet rfl rfl (by rw [hpc]; rfl) rfl

theorem PipelineStep.slotMove (hstep : PipelineStep port room pipe next) :
    SlotMove room pipe next := by
  rcases hstep with (hnetwork | hmatching) | hfault
  · exact hnetwork.slotMove
  · exact hmatching.slotMove
  · exact hfault.slotMove

/-- A slot that holds a packet with a header. -/
def BufferSlot.Filled (slot : BufferSlot) : Prop :=
  kMoldHeaderBytes ≤ slot.length.toNat ∧ slot.length.toNat ≤ kMaxPacketBytes

/-- A slot is filled by a packet that has a header. -/
theorem BufferSlot.filled_fill (slot : BufferSlot) {payload : List UInt8}
    (hlong : ¬ (received payload).length < kMoldHeaderBytes) :
    (slot.fill (received payload)).Filled := by
  have hbound : (received payload).length ≤ kMaxPacketBytes := List.length_take_le _ _
  have hlength : (UInt16.ofNat (received payload).length).toNat = (received payload).length := by
    apply UInt16.toNat_ofNat_of_lt'
    exact Nat.lt_of_le_of_lt hbound (by decide)
  unfold Filled fill
  dsimp only
  rw [hlength]
  exact ⟨Nat.le_of_not_lt hlong, hbound⟩

/-- A frame passes the filter only with a packet that has a header. -/
theorem le_length_of_moldPacket {frame moldPkt : List UInt8}
    (hsome : moldPacket port frame = some moldPkt) : kMoldHeaderBytes ≤ moldPkt.length := by
  unfold moldPacket at hsome
  simp only [Option.ite_none_left_eq_some, Option.some.injEq] at hsome
  obtain ⟨_, _, _, _, _, _, _, hlong, rfl⟩ := hsome
  exact Nat.le_of_not_lt hlong

/-- What the network thread knows about the packet it is dealing with. -/
def NetworkPc.Ready (slots : UInt32 → BufferSlot) : NetworkPc → Prop
  | claiming moldPkt _ _ => kMoldHeaderBytes ≤ moldPkt.length
  | copying _ moldPkt _ _ => kMoldHeaderBytes ≤ moldPkt.length
  | pushing ref _ => (slots ref.poolIdx).Filled
  | _ => True

theorem Resume.ready_pc (slots : UInt32 → BufferSlot) (resume : Resume) :
    resume.pc.Ready slots := by
  cases resume <;> trivial

theorem NetworkStep.ready (hstep : NetworkStep port room pipe next)
    (hready : pipe.network.Ready pipe.pool.slots) : next.network.Ready next.pool.slots := by
  cases hstep with
  | loop useXdp hpc hstop => cases useXdp <;> trivial
  | acquire hpc =>
      dsimp only
      split <;> trivial
  | receive slotIdx payload tWire hpc hlong feed verdict htrack =>
      cases verdict with
      | accepted =>
          change ((pipe.pool.modify slotIdx fun slot => slot.fill (received payload)).slots
            slotIdx).Filled
          rw [PacketPool.slots_modify_self]
          exact BufferSlot.filled_fill _ hlong
      | endOfSession => trivial
      | heartbeat => trivial
      | duplicate => trivial
  | scan tWire frame frames moldPkt hpc hsome feed verdict htrack =>
      cases verdict with
      | accepted => exact le_length_of_moldPacket hsome
      | endOfSession => trivial
      | heartbeat => trivial
      | duplicate => trivial
  | claim moldPkt tWire frames hpc hslot =>
      rw [hpc] at hready
      exact hready
  | copy slotIdx moldPkt tWire frames hpc =>
      rw [hpc] at hready
      have hlong : ¬ (received moldPkt).length < kMoldHeaderBytes := by
        have hheader : kMoldHeaderBytes ≤ moldPkt.length := hready
        rw [received, List.length_take]
        exact Nat.not_lt.mpr (Nat.le_min.mpr ⟨by decide, hheader⟩)
      change ((pipe.pool.modify slotIdx fun slot => slot.fill (received moldPkt)).slots
        slotIdx).Filled
      rw [PacketPool.slots_modify_self]
      exact BufferSlot.filled_fill _ hlong
  | push ref resume ring hpc hring => exact resume.ready_pc _
  | release slotIdx after hpc =>
      cases after with
      | again resume => exact resume.ready_pc _
      | leave => trivial
      | endSession => trivial
  | _ => trivial

theorem MatchingStep.network_eq (hstep : MatchingStep room pipe next) :
    next.network = pipe.network ∧ next.pool.slots = pipe.pool.slots := by
  cases hstep <;> exact ⟨rfl, rfl⟩

theorem PipelineStep.ready (hstep : PipelineStep port room pipe next)
    (hready : pipe.network.Ready pipe.pool.slots) : next.network.Ready next.pool.slots := by
  rcases hstep with (hnetwork | hmatching) | hfault
  · exact hnetwork.ready hready
  · rw [hmatching.network_eq.1, hmatching.network_eq.2]
    exact hready
  · cases hfault <;> trivial

/-! ## Every slot in one place -/

/-- The slots of the pool, each in its place, and packets where packets must be. -/
structure Owned (numSlots room : ℕ) (pipe : Pipeline) (free : List UInt32) : Prop where
  freeList : pipe.pool.FreeList free
  tokens : (pipe.custody free).tokens.Perm (PacketPool.indices numSlots)
  ring_le : pipe.ring.length ≤ room
  ready : pipe.network.Ready pipe.pool.slots
  queued : ∀ ref ∈ pipe.ring, ref.poolIdx ≠ kPoolInvalid → (pipe.pool.slots ref.poolIdx).Filled
  taken : ∀ slotIdx, pipe.matching.hand = some slotIdx → (pipe.pool.slots slotIdx).Filled

namespace Owned

variable {numSlots : ℕ} {free : List UInt32}

theorem initial (hsome : 0 < numSlots) (hslots : numSlots < 2 ^ 32) :
    Owned numSlots room (.initial numSlots) (PacketPool.indices numSlots) where
  freeList := PacketPool.freeList_create hsome hslots
  tokens := by
    rw [Custody.tokens]
    exact List.Perm.of_eq (List.append_nil _)
  ring_le := Nat.zero_le room
  ready := trivial
  queued _ hnone := nomatch hnone
  taken _ hnone := nomatch hnone

theorem nodup (howned : Owned numSlots room pipe free) (hslots : numSlots < 2 ^ 32) :
    (pipe.custody free).tokens.Nodup :=
  howned.tokens.nodup_iff.mpr (PacketPool.nodup_indices hslots)

/-- No index of a slot is the invalid one. -/
theorem valid (howned : Owned numSlots room pipe free) (hslots : numSlots < 2 ^ 32)
    {slotIdx : UInt32} (hmem : slotIdx ∈ (pipe.custody free).tokens) : slotIdx ≠ kPoolInvalid :=
  PacketPool.ne_kPoolInvalid_of_mem hslots (howned.tokens.mem_iff.mp hmem)

theorem slot_pushing (howned : Owned numSlots room pipe free) (hslots : numSlots < 2 ^ 32)
    {ref : PacketRef} {resume : Resume} (hpc : pipe.network = .pushing ref resume) :
    ref.slot = some ref.poolIdx := by
  apply if_neg
  apply howned.valid hslots
  rw [Custody.mem_tokens]
  right
  left
  rw [Pipeline.custody, hpc]
  rfl

theorem mem_queue {ref : PacketRef} (hmem : ref ∈ pipe.ring) (hvalid : ref.poolIdx ≠ kPoolInvalid) :
    ref.poolIdx ∈ (pipe.custody free).queue :=
  List.mem_filterMap.mpr ⟨ref, hmem, if_neg hvalid⟩

/-- A step leaves the slots in their places or transfers one of them. -/
theorem transfer (howned : Owned numSlots room pipe free) (hslots : numSlots < 2 ^ 32)
    (hmove : SlotMove room pipe next) :
    ∃ free', next.pool.FreeList free' ∧
      (next.custody free' = pipe.custody free ∨
        Custody.Transfer (pipe.custody free) (next.custody free')) := by
  have hfree := howned.freeList
  have hnodup := howned.nodup hslots
  cases hmove with
  | quiet hpool hring hnetwork hmatching =>
      refine ⟨free, by rw [hpool]; exact hfree, .inl ?_⟩
      simp only [Pipeline.custody, hring, hnetwork, hmatching]
  | write slotIdx edit hhand hpool hring hnetwork hmatching =>
      refine ⟨free, by rw [hpool]; exact hfree.modify slotIdx edit, .inl ?_⟩
      simp only [Pipeline.custody, hring, hnetwork, hmatching]
  | take hslot hhand hpool hring hnetwork hmatching =>
      cases free with
      | nil =>
          rw [hfree.acquire_nil] at hslot
          exact absurd rfl hslot
      | cons slotIdx free =>
          have hvalid := howned.valid hslots (Custody.mem_tokens.mpr (.inl List.mem_cons_self))
          obtain ⟨hslotIdx, hrest⟩ := hfree.acquire hvalid
          refine ⟨free, by rw [hpool]; exact hrest, .inr ?_⟩
          simp only [Pipeline.custody, hring, hnetwork, hmatching, hhand, hslotIdx]
          exact .take slotIdx free _ _
  | putBack slotIdx hhand hpool hring hnetwork hmatching =>
      have hfresh := (Custody.sender_of_nodup hnodup hhand).1
      refine ⟨slotIdx :: free, by rw [hpool]; exact hfree.release hfresh, .inr ?_⟩
      simp only [Pipeline.custody, hring, hnetwork, hmatching, hhand]
      exact .putBack slotIdx free _ _
  | send ref resume hpc hring hpool hnetwork hmatching =>
      refine ⟨free, by rw [hpool]; exact hfree, .inr ?_⟩
      have hhand : pipe.network.hand = some ref.poolIdx := by rw [hpc]; rfl
      have hqueue : [ref].filterMap PacketRef.slot = [ref.poolIdx] := by
        rw [List.filterMap_cons_some (howned.slot_pushing hslots hpc), List.filterMap_nil]
      simp only [Pipeline.custody, hring.of_pushed.2, hnetwork, hmatching, hhand,
        List.filterMap_append, hqueue]
      exact .send ref.poolIdx free _ _
  | sentinel tWire hring hpool hnetwork hmatching =>
      refine ⟨free, by rw [hpool]; exact hfree, .inl ?_⟩
      have hqueue : [(⟨kPoolInvalid, tWire⟩ : PacketRef)].filterMap PacketRef.slot = [] := rfl
      simp only [Pipeline.custody, hring.of_pushed.2, hnetwork, hmatching, List.filterMap_append,
        hqueue, List.append_nil]
  | deliver ref hring hhand hpool hnetwork hmatching =>
      refine ⟨free, by rw [hpool]; exact hfree, ?_⟩
      cases hslot : ref.slot with
      | none =>
          left
          rw [hslot] at hmatching
          simp only [Pipeline.custody, hring.of_popped, hnetwork, hmatching, hhand,
            List.filterMap_cons_none hslot]
      | some slotIdx =>
          right
          rw [hslot] at hmatching
          simp only [Pipeline.custody, hring.of_popped, hnetwork, hmatching, hhand,
            List.filterMap_cons_some hslot]
          exact .deliver slotIdx free _ _
  | finish slotIdx hhand hpool hring hnetwork hmatching =>
      have hfresh := (Custody.receiver_of_nodup hnodup hhand).1
      refine ⟨slotIdx :: free, by rw [hpool]; exact hfree.release hfresh, .inr ?_⟩
      simp only [Pipeline.custody, hring, hnetwork, hmatching, hhand]
      exact .finish slotIdx free _ _

/-- A step leaves packets in the ring and in the hand of the matching thread alone. -/
theorem packets (howned : Owned numSlots room pipe free) (hslots : numSlots < 2 ^ 32)
    (hmove : SlotMove room pipe next) :
    next.ring.length ≤ room ∧
      (∀ ref ∈ next.ring, ref.poolIdx ≠ kPoolInvalid →
        (next.pool.slots ref.poolIdx).Filled) ∧
      ∀ slotIdx, next.matching.hand = some slotIdx → (next.pool.slots slotIdx).Filled := by
  cases hmove with
  | quiet hpool hring hnetwork hmatching =>
      rw [hpool, hring, hmatching]
      exact ⟨howned.ring_le, howned.queued, howned.taken⟩
  | write slotIdx edit hhand hpool hring hnetwork hmatching =>
      obtain ⟨_, hqueue, hreceiver⟩ := Custody.sender_of_nodup (howned.nodup hslots) hhand
      rw [hpool, hring, hmatching]
      refine ⟨howned.ring_le, fun ref hmem hvalid => ?_, fun taken htaken => ?_⟩
      · have hne : ref.poolIdx ≠ slotIdx := fun hsame => hqueue (hsame ▸ mem_queue hmem hvalid)
        rw [PacketPool.slots_modify_of_ne hne]
        exact howned.queued ref hmem hvalid
      · have hne : taken ≠ slotIdx := fun hsame => hreceiver (hsame ▸ htaken)
        rw [PacketPool.slots_modify_of_ne hne]
        exact howned.taken taken htaken
  | take hslot hhand hpool hring hnetwork hmatching =>
      rw [hpool, PacketPool.slots_acquire, hring, hmatching]
      exact ⟨howned.ring_le, howned.queued, howned.taken⟩
  | putBack slotIdx hhand hpool hring hnetwork hmatching =>
      rw [hpool, PacketPool.slots_release, hring, hmatching]
      exact ⟨howned.ring_le, howned.queued, howned.taken⟩
  | send ref resume hpc hring hpool hnetwork hmatching =>
      have hready := howned.ready
      rw [hpc] at hready
      rw [hpool, hring.of_pushed.2, hmatching]
      refine ⟨?_, fun other hmem hvalid => ?_, howned.taken⟩
      · rw [List.length_append]
        exact hring.of_pushed.1
      · rcases List.mem_append.mp hmem with hold | hnew
        · exact howned.queued other hold hvalid
        · rw [List.mem_singleton.mp hnew]
          exact hready
  | sentinel tWire hring hpool hnetwork hmatching =>
      rw [hpool, hring.of_pushed.2, hmatching]
      refine ⟨?_, fun other hmem hvalid => ?_, howned.taken⟩
      · rw [List.length_append]
        exact hring.of_pushed.1
      · rcases List.mem_append.mp hmem with hold | hnew
        · exact howned.queued other hold hvalid
        · rw [List.mem_singleton.mp hnew] at hvalid
          exact absurd rfl hvalid
  | deliver ref hring hhand hpool hnetwork hmatching =>
      have hbound := howned.ring_le
      have hqueued := howned.queued
      rw [hring.of_popped] at hbound hqueued
      rw [hpool, hmatching]
      refine ⟨Nat.le_of_succ_le hbound,
        fun other hmem => hqueued other (List.mem_cons_of_mem ref hmem), fun slotIdx hslot => ?_⟩
      unfold PacketRef.slot at hslot
      split at hslot
      case isTrue => cases hslot
      case isFalse hvalid =>
          cases hslot
          exact hqueued ref List.mem_cons_self hvalid
  | finish slotIdx hhand hpool hring hnetwork hmatching =>
      rw [hpool, PacketPool.slots_release, hring, hmatching]
      exact ⟨howned.ring_le, howned.queued, fun _ hnone => nomatch hnone⟩

/-- A step keeps every slot in one place. -/
theorem step (howned : Owned numSlots room pipe free) (hslots : numSlots < 2 ^ 32)
    (hstep : PipelineStep port room pipe next) : ∃ free', Owned numSlots room next free' := by
  obtain ⟨free', hfree, hcustody⟩ := howned.transfer hslots hstep.slotMove
  obtain ⟨hring, hqueued, htaken⟩ := howned.packets hslots hstep.slotMove
  refine ⟨free', hfree, ?_, hring, hstep.ready howned.ready, hqueued, htaken⟩
  rcases hcustody with hsame | htransfer
  · rw [hsame]
    exact howned.tokens
  · exact htransfer.tokens_perm.trans howned.tokens

/-- In every state that the threads reach, every slot is in one place. -/
theorem of_reached {capacity : ℕ} (hsome : 0 < numSlots) (hslots : numSlots < 2 ^ 32)
    (hreached : Reached port numSlots capacity pipe) :
    ∃ free, Owned numSlots (capacity - 1) pipe free := by
  induction hreached with
  | refl => exact ⟨_, initial hsome hslots⟩
  | tail _ hstep ih =>
      obtain ⟨free, howned⟩ := ih
      exact howned.step hslots hstep

/-- With more slots than the ring has cells, one is free whenever the network thread
has none. -/
theorem exists_free (howned : Owned numSlots room pipe free) (hroom : room + 1 < numSlots)
    (hhand : pipe.network.hand = none) : ∃ slotIdx rest, free = slotIdx :: rest := by
  have hcount := Custody.length_store_of_perm howned.tokens
  have hqueue : (pipe.custody free).queue.length ≤ room :=
    (List.length_filterMap_le _ _).trans howned.ring_le
  have hreceiver : (pipe.custody free).receiver.toList.length ≤ 1 := Option.length_toList_le
  have hsender : (pipe.custody free).sender.toList.length = 0 := by
    rw [Pipeline.custody, hhand]
    rfl
  have hindices : (PacketPool.indices numSlots).length = numSlots := by
    rw [PacketPool.indices, List.length_map, List.length_range]
  have hstore : (pipe.custody free).store.length = free.length := rfl
  exact List.exists_cons_of_length_pos (by omega)

end Owned

/-- The network thread is about to acquire a slot. -/
def NetworkPc.Acquires : NetworkPc → Prop
  | acquiring => True
  | claiming _ _ _ => True
  | _ => False

/-- What holds of the slots of a pool that the two threads share. -/
structure SlotsOwned (numSlots capacity : ℕ) (pipe : Pipeline) : Prop where
  /-- Every slot is in the free list, in the hand of a thread or in the ring, and only
  once. -/
  places : ∃ free, pipe.pool.FreeList free ∧ (pipe.custody free).tokens.Nodup ∧
    ∀ slotIdx, slotIdx ∈ (pipe.custody free).tokens ↔ slotIdx.toNat < numSlots
  ring_le : pipe.ring.length ≤ capacity - 1
  /-- What the network thread writes to is not in the ring and not being read. -/
  exclusive : ∀ slotIdx, pipe.network.hand = some slotIdx →
    slotIdx ∉ pipe.ring.filterMap PacketRef.slot ∧ pipe.matching.hand ≠ some slotIdx
  /-- A packet that was popped has a header and fits. -/
  packet : ∀ ref, pipe.matching = .walking ref →
    kMoldHeaderBytes ≤ (pipe.pool.slots ref.poolIdx).length.toNat ∧
      (pipe.pool.slots ref.poolIdx).length.toNat ≤ kMaxPacketBytes
  /-- With the sizes of `runUdp` there is always a slot to acquire. -/
  acquires : numSlots = kPoolSlots → capacity = kRingSlots → pipe.network.Acquires →
    pipe.pool.acquire.1 ≠ kPoolInvalid

/-- Whatever arrives, whatever fails and however the threads interleave, the slots of
the pool stay in one place each. -/
theorem slots_owned (port : UInt16) {numSlots capacity : ℕ} (hsome : 0 < numSlots)
    (hslots : numSlots < 2 ^ 32) {pipe : Pipeline}
    (hreached : Reached port numSlots capacity pipe) : SlotsOwned numSlots capacity pipe := by
  obtain ⟨free, howned⟩ := Owned.of_reached hsome hslots hreached
  have hnodup := howned.nodup hslots
  refine ⟨⟨free, howned.freeList, hnodup, fun slotIdx => ?_⟩, howned.ring_le, ?_, ?_, ?_⟩
  · rw [howned.tokens.mem_iff]
    exact PacketPool.mem_indices hslots
  · intro slotIdx hhand
    exact (Custody.sender_of_nodup hnodup hhand).2
  · intro ref hwalking
    exact howned.taken ref.poolIdx (by rw [hwalking]; rfl)
  · intro hpool hring hacquires
    have hhand : pipe.network.hand = none := by
      cases hpc : pipe.network with
      | acquiring => rfl
      | claiming => rfl
      | _ =>
          rw [hpc] at hacquires
          exact hacquires.elim
    obtain ⟨slotIdx, rest, rfl⟩ := howned.exists_free (by rw [hpool, hring]; decide) hhand
    have hvalid := howned.valid hslots (Custody.mem_tokens.mpr (.inl List.mem_cons_self))
    rw [(howned.freeList.acquire hvalid).1]
    exact hvalid

/-- Two packets have arrived. The matching thread of `runUdp` walks the first, the second is in
the ring, and the network thread has a third slot in its hand. -/
theorem slots_owned_inFlight :
    ∃ pipe, Reached 0 kPoolSlots kRingSlots pipe ∧ pipe.matching = .walking ⟨0, 0⟩ ∧
      pipe.ring = [⟨1, 0⟩] ∧ pipe.network = .receiving 2 ∧
      SlotsOwned kPoolSlots kRingSlots pipe := by
  have hready : Reached 0 kPoolSlots kRingSlots
      { Pipeline.initial kPoolSlots with network := .testing false } :=
    .single (.inl (.inl (.setUp _ false rfl)))
  have hfirst := hready.receive_push rfl rfl (show _ = (0 : UInt32) from rfl) (by decide)
    (show ¬ (received (oneMessage 1).wire).length < _ by decide +kernel) 0
    (Prod.ext rfl (show _ = Verdict.accepted by decide +kernel)) (by decide)
  have hsecond := hfirst.receive_push rfl rfl (show _ = (1 : UInt32) from rfl) (by decide)
    (show ¬ (received (oneMessage 2).wire).length < _ by decide +kernel) 0
    (Prod.ext rfl (show _ = Verdict.accepted by decide +kernel)) (by decide)
  have hpopped := hsecond.tail (.inl (.inr (.pop _ 0 ⟨0, 0⟩ [⟨1, 0⟩] rfl (.pop _))))
  have hloop := hpopped.tail (.inl (.inl (.loop _ false rfl rfl)))
  have hacquired := hloop.tail (.inl (.inl (.acquire _ rfl)))
  exact ⟨_, hacquired, rfl, rfl, rfl, slots_owned 0 (by decide) (by decide) hacquired⟩

end Orderbook
