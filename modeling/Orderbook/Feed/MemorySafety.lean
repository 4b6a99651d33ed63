/-
# What the shared memory guarantees

In every memory that the turns of the two threads can lead to, whatever the loads read: no
access to plain memory races, the references come out of the ring in the order in which they
were pushed, and a slot that is waiting or being read holds the packet that was pushed with it.

The last part is about running out of slots. The network thread may not see what was given back
to the pool, so the free list can be empty for it when it is not. But it cannot push without
having seen how far the other thread has popped, and a head of the ring carries all releases
before it. So what the network thread has not seen of the free list is bounded by what it has
not seen of the ring.
-/

import Orderbook.Feed.SharedMemory

namespace Orderbook

open Orderbook.Math

/-- Who stored to the head of the free list. -/
def UdpEvent.maker : UdpEvent → Option UdpThread
  | acquired _ => some .network
  | released thread _ => some thread
  | _ => none

def storeMakers (events : List UdpEvent) : List UdpThread := events.filterMap UdpEvent.maker

theorem storeMakers_append (events : List UdpEvent) (event : Option UdpEvent) :
    storeMakers (events ++ event.toList) =
      storeMakers events ++ (event.bind UdpEvent.maker).toList := by
  unfold storeMakers
  rw [List.filterMap_append]
  cases event with
  | none => rfl
  | some event => cases event <;> rfl

namespace UdpMemory

variable {bits numSlots : ℕ} {memory : UdpMemory} {sent : List (PacketRef × BufferSlot)}
  {free : List UInt32} {result : UdpMemory × Option UdpEvent}

/-- The next access of each thread to plain memory does not race: to a cell of the ring, to a
link of the free list and, in any way, to the packet in its hand. -/
structure RaceFree (memory : UdpMemory) : Prop where
  ring : memory.ring.RaceFree udpRing memory.clocks
  readNext : ∀ idx, memory.pool.pc .network = .readNext idx →
    memory.clocks.Safe .network (.slot .link idx) .read
  writeNext : ∀ thread idx head, memory.pool.pc thread = .writeNext idx head →
    memory.clocks.Safe thread (.slot .link idx) .write
  packet : ∀ thread idx kind, memory.hand thread = some idx →
    memory.clocks.Safe thread (.slot .packet idx) kind

theorem Keeps.raceFree (hkeeps : memory.Keeps bits numSlots sent free) : memory.RaceFree where
  ring := hkeeps.channel.raceFree
  readNext idx hpc := by
    have hlooks := hkeeps.stack.looks
    rw [show memory.pool.pc udpPool.acquirer = .readNext idx from hpc] at hlooks
    exact (hlooks.2.known hkeeps.stack.sound .link).safe .read
  writeNext thread idx head hpc := by
    have hhand := hkeeps.returning thread idx (by rw [hpc]; exact List.mem_cons_self)
    exact (hkeeps.hands thread idx hhand .link).safe .write
  packet thread idx kind hhand := (hkeeps.hands thread idx hhand .packet).safe kind

/-- How many of the first `count` references stand for a slot. -/
def slotsBefore (sent : List (PacketRef × BufferSlot)) (count : ℕ) : ℕ :=
  (((sent.map Prod.fst).take count).filterMap PacketRef.slot).length

/-- How many of the first `count` stores to the head of the free list are releases by the
matching thread. -/
def givenBack (makers : List UdpThread) (count : ℕ) : ℕ := (makers.take count).count .matching

theorem slotsBefore_mono (sent : List (PacketRef × BufferSlot)) {less more : ℕ}
    (hle : less ≤ more) : slotsBefore sent less ≤ slotsBefore sent more := by
  have hsub := (List.take_prefix_take_left hle : (sent.map Prod.fst).take less <+: _).sublist
  exact (hsub.filterMap PacketRef.slot).length_le

theorem slotsBefore_add_le (sent : List (PacketRef × BufferSlot)) (count more : ℕ) :
    slotsBefore sent (count + more) ≤ slotsBefore sent count + more := by
  unfold slotsBefore
  rw [List.take_add, List.filterMap_append, List.length_append]
  refine Nat.add_le_add_left ((List.length_filterMap_le _ _).trans ?_) _
  exact List.length_take_le _ _

theorem slotsBefore_append {count : ℕ} (hle : count ≤ sent.length)
    (more : List (PacketRef × BufferSlot)) :
    slotsBefore (sent ++ more) count = slotsBefore sent count := by
  unfold slotsBefore
  rw [List.map_append, List.take_append_of_le_length (by rwa [List.length_map])]

theorem slotsBefore_succ {count : ℕ} {ref : PacketRef}
    (hnext : (sent.map Prod.fst)[count]? = some ref) :
    slotsBefore sent (count + 1) = slotsBefore sent count + ref.slot.toList.length := by
  unfold slotsBefore
  rw [List.take_add_one, hnext, List.filterMap_append, List.length_append]
  cases hslot : ref.slot with
  | none => simp [hslot]
  | some idx => simp [hslot]

theorem slotsBefore_add_queue (sent : List (PacketRef × BufferSlot)) (count : ℕ) :
    slotsBefore sent count + (((sent.map Prod.fst).drop count).filterMap PacketRef.slot).length =
      slotsBefore sent sent.length := by
  unfold slotsBefore
  rw [← List.length_append, ← List.filterMap_append, List.take_append_drop,
    List.take_of_length_le (Nat.le_of_eq (List.length_map ..))]

theorem givenBack_mono (makers : List UdpThread) {less more : ℕ} (hle : less ≤ more) :
    givenBack makers less ≤ givenBack makers more :=
  (List.take_prefix_take_left hle).sublist.count_le _

theorem givenBack_append_le (makers more : List UdpThread) (count : ℕ) :
    givenBack makers count ≤ givenBack (makers ++ more) count := by
  unfold givenBack
  rw [List.take_append, List.count_append]
  exact Nat.le_add_right _ _

theorem givenBack_append {makers : List UdpThread} {count : ℕ} (hle : count ≤ makers.length)
    (more : List UdpThread) : givenBack (makers ++ more) count = givenBack makers count := by
  unfold givenBack
  rw [List.take_append_of_le_length hle]

theorem givenBack_succ (makers : List UdpThread) (thread : UdpThread) :
    givenBack (makers ++ [thread]) (makers.length + 1) =
      givenBack makers makers.length + [thread].count .matching := by
  unfold givenBack
  rw [List.take_of_length_le (by simp), List.take_length, List.count_append]

/-- Who has seen a head of the ring has seen the releases before it. -/
def Balanced (sent : List (PacketRef × BufferSlot)) (makers : List UdpThread)
    (view : View UdpThread UdpAtomic) : Prop :=
  slotsBefore sent (view (.stores .head)) ≤ givenBack makers (view (.stores .freeHead)) + 1

/-- The stores to the head of the free list, by who made them, and how they are seen. -/
structure Counted (memory : UdpMemory) (sent : List (PacketRef × BufferSlot))
    (makers : List UdpThread) : Prop where
  count : makers.length = memory.clocks.last .freeHead
  balance : slotsBefore sent (memory.clocks.last .head) =
    givenBack makers makers.length + (memory.hand .matching).toList.length
  own : givenBack makers makers.length ≤
    givenBack makers (memory.clocks.view .matching (.stores .freeHead))
  unseen : ∀ e, memory.clocks.view .network (.stores .freeHead) ≤ e → e ≤ makers.length →
    givenBack makers makers.length = givenBack makers e + (makers.length - e)
  every : memory.clocks.Everywhere (Balanced sent makers)

section Balanced

variable {makers : List UdpThread} {view news : View UdpThread UdpAtomic}

theorem Balanced.join (hview : Balanced sent makers view) (hnews : Balanced sent makers news) :
    Balanced sent makers (view ⊔ news) := by
  unfold Balanced at *
  change slotsBefore sent (max (view (.stores .head)) (news (.stores .head))) ≤
    givenBack makers (max (view (.stores .freeHead)) (news (.stores .freeHead))) + 1
  rcases Nat.le_total (view (.stores .head)) (news (.stores .head)) with hle | hle
  · rw [Nat.max_eq_right hle]
    exact hnews.trans (Nat.succ_le_succ (givenBack_mono makers (Nat.le_max_right _ _)))
  · rw [Nat.max_eq_left hle]
    exact hview.trans (Nat.succ_le_succ (givenBack_mono makers (Nat.le_max_left _ _)))

theorem Balanced.of_le (hview : Balanced sent makers view)
    (hhead : news (.stores .head) = view (.stores .head))
    (hfree : view (.stores .freeHead) ≤ news (.stores .freeHead)) :
    Balanced sent makers news := by
  unfold Balanced at *
  rw [hhead]
  exact hview.trans (Nat.succ_le_succ (givenBack_mono makers hfree))

/-- A store elsewhere changes nothing about the heads of the ring. -/
theorem Balanced.sight (hview : Balanced sent makers view) {location : UdpAtomic}
    (hlocation : location ≠ .head) (idx : ℕ) :
    Balanced sent makers (view ⊔ Clocks.sight location idx) := by
  refine hview.of_le ?_ (Nat.le_max_left _ _)
  have hnone : (Clocks.sight location idx : View UdpThread UdpAtomic) (.stores .head) = 0 := by
    refine if_neg fun hsame => hlocation ?_
    cases hsame
    rfl
  change max _ _ = _
  rw [hnone, Nat.max_zero]

theorem Balanced.append (hview : Balanced sent makers view)
    (hseen : view (.stores .head) ≤ sent.length) (more : List (PacketRef × BufferSlot))
    (stores : List UdpThread) : Balanced (sent ++ more) (makers ++ stores) view := by
  unfold Balanced at *
  rw [slotsBefore_append hseen]
  exact hview.trans (Nat.succ_le_succ (givenBack_append_le makers stores _))

end Balanced

theorem Keeps.head_le_length (hkeeps : memory.Keeps bits numSlots sent free) :
    memory.clocks.last .head ≤ sent.length := by
  have hcount := hkeeps.channel.count
  rw [List.length_map] at hcount
  exact hkeeps.channel.ends.head_le.trans (Nat.le_of_eq hcount.symm)

namespace Counted

variable {makers : List UdpThread} {next : UdpMemory}

theorem everywhere (hcounted : memory.Counted sent makers) (hsound : memory.clocks.Sound)
    {thread : UdpThread} {locations : UdpAtomic → Prop} {cells : UdpCell → Prop}
    (hact : Clocks.Act thread locations cells memory.clocks next.clocks)
    (hpops : locations .head → thread = .matching ∧ memory.hand .matching = none) :
    next.clocks.Everywhere (Balanced sent makers) := by
  have hhead : locations .head → ∀ view idx, memory.clocks.view thread ≤ view →
      Balanced sent makers view → idx ≤ memory.clocks.last .head + 1 →
        Balanced sent makers (view ⊔ Clocks.sight .head idx) := by
    intro hlocation view idx hle hview hidx
    obtain ⟨rfl, hhand⟩ := hpops hlocation
    have hbalance := hcounted.balance
    rw [hhand] at hbalance
    have hknown := hcounted.own.trans (givenBack_mono makers (hle (.stores .freeHead)))
    have hnext : slotsBefore sent idx ≤
        givenBack makers (view (.stores .freeHead)) + 1 :=
      calc slotsBefore sent idx
          ≤ slotsBefore sent (memory.clocks.last .head + 1) := slotsBefore_mono sent hidx
        _ ≤ slotsBefore sent (memory.clocks.last .head) + 1 := slotsBefore_add_le sent _ 1
        _ = givenBack makers makers.length + 1 := by rw [hbalance]; rfl
        _ ≤ givenBack makers (view (.stores .freeHead)) + 1 := Nat.succ_le_succ hknown
    have hseen : (view ⊔ Clocks.sight .head idx) (.stores .head) =
        max (view (.stores .head)) idx := rfl
    have hfree : (view ⊔ Clocks.sight .head idx) (.stores .freeHead) =
        view (.stores .freeHead) := Nat.max_zero _
    unfold Balanced
    rw [hseen, hfree]
    rcases Nat.le_total (view (.stores .head)) idx with hless | hless
    · rw [Nat.max_eq_right hless]
      exact hnext
    · rw [Nat.max_eq_left hless]
      exact hview
  refine hcounted.every.act hsound (fun _ _ => Balanced.join) ?_ hact ?_ ?_
  · intro view view' hsame hview
    exact hview.of_le (hsame .head) (Nat.le_of_eq (hsame .freeHead).symm)
  · intro place hplace idx hidx
    by_cases hself : place = .head
    · subst hself
      exact hhead hplace _ idx le_rfl (hcounted.every.view thread) (Nat.le_succ_of_le hidx)
    · exact (hcounted.every.view thread).sight hself idx
  · intro place hplace view hle hview
    by_cases hself : place = .head
    · subst hself
      exact hhead hplace view _ hle hview (Nat.le_refl _)
    · exact hview.sight hself _

/-- What is pushed and stored later does not matter to the views there are. -/
theorem everywhere_append (hcounted : memory.Counted sent makers) (hsound : memory.clocks.Sound)
    {thread : UdpThread} {locations : UdpAtomic → Prop} {cells : UdpCell → Prop}
    (hact : Clocks.Act thread locations cells memory.clocks next.clocks)
    (hpops : locations .head → thread = .matching ∧ memory.hand .matching = none)
    (hbehind : next.clocks.last .head ≤ sent.length) (more : List (PacketRef × BufferSlot))
    (stores : List UdpThread) :
    next.clocks.Everywhere (Balanced (sent ++ more) (makers ++ stores)) := by
  have hevery := hcounted.everywhere hsound hact hpops
  have hsound' := hact.sound hsound
  constructor
  · intro other
    exact (hevery.view other).append ((hsound'.seen_le other .head).trans hbehind) more stores
  · intro location idx hidx
    exact (hevery.attached location idx hidx).append
      ((hsound'.attached_le location idx .head hidx).trans hbehind) more stores

/-- A step in which nothing is given back and nothing is popped. -/
theorem quiet {more : List (PacketRef × BufferSlot)} (hcounted : memory.Counted sent makers)
    (hkeeps : memory.Keeps bits numSlots sent free)
    {thread : UdpThread} {locations : UdpAtomic → Prop} {cells : UdpCell → Prop}
    (hact : Clocks.Act thread locations cells memory.clocks next.clocks)
    (hpops : locations .head → thread = .matching ∧ memory.hand .matching = none)
    (hhead : next.clocks.last .head = memory.clocks.last .head)
    (hfree : next.clocks.last .freeHead = memory.clocks.last .freeHead)
    (hmatching : next.hand .matching = memory.hand .matching) :
    next.Counted (sent ++ more) makers := by
  have hbehind := hkeeps.head_le_length
  constructor
  · rw [hfree, hcounted.count]
  · rw [hhead, slotsBefore_append hbehind, hmatching]
    exact hcounted.balance
  · exact hcounted.own.trans (givenBack_mono makers (hact.evolves.view _ _))
  · intro e hseen hle
    exact hcounted.unseen e ((hact.evolves.view _ _).trans hseen) hle
  · have hevery := hcounted.everywhere_append hkeeps.channel.sound hact hpops (hhead ▸ hbehind)
      more []
    rwa [List.append_nil] at hevery

/-- A store to the head of the free list. -/
theorem exchanged (hcounted : memory.Counted sent makers)
    (hkeeps : memory.Keeps bits numSlots sent free)
    {thread : UdpThread} {cells : UdpCell → Prop}
    (hact : Clocks.Act thread (· = udpPool.freeHead) cells memory.clocks next.clocks)
    (hfree : next.clocks.last .freeHead = memory.clocks.last .freeHead + 1)
    (hseen : memory.clocks.last .freeHead + 1 ≤ next.clocks.view thread (.stores .freeHead))
    (hmatching : (next.hand .matching).toList.length + [thread].count .matching =
      (memory.hand .matching).toList.length) :
    next.Counted sent (makers ++ [thread]) := by
  have hhead : next.clocks.last .head = memory.clocks.last .head :=
    hact.last_eq UdpAtomic.noConfusion
  have hlength : (makers ++ [thread]).length = makers.length + 1 := List.length_append
  have htotal := givenBack_succ makers thread
  have hcount := hcounted.count
  constructor
  · rw [hfree, hlength, hcount]
  · rw [hhead, hlength, htotal, hcounted.balance]
    omega
  · rw [hlength]
    cases thread with
    | network =>
        rw [hact.view_eq UdpThread.noConfusion, htotal]
        exact hcounted.own.trans (givenBack_append_le makers [.network] _)
    | matching =>
        rw [hcount]
        exact givenBack_mono _ hseen
  · intro e hunseen hle
    rw [hlength] at hle ⊢
    rcases Nat.lt_or_ge makers.length e with hlast | hold
    · obtain rfl : e = makers.length + 1 := Nat.le_antisymm hle hlast
      rw [Nat.sub_self]
      exact (Nat.add_zero _).symm
    · cases thread with
      | network =>
          have hnew := hseen.trans hunseen
          omega
      | matching =>
          rw [hact.view_eq UdpThread.noConfusion] at hunseen
          have hbefore := hcounted.unseen e hunseen hold
          rw [htotal, givenBack_append hold, hbefore]
          change _ + 1 = _
          omega
  · have hevery := hcounted.everywhere_append hkeeps.channel.sound hact
      (fun hlocation => nomatch hlocation) (hhead ▸ hkeeps.head_le_length) [] [thread]
    rwa [List.append_nil] at hevery

/-- A reference is popped. -/
theorem popped (hcounted : memory.Counted sent makers)
    (hkeeps : memory.Keeps bits numSlots sent free) {cells : UdpCell → Prop}
    (hact : Clocks.Act .matching (· = udpRing.head) cells memory.clocks next.clocks)
    (hhand : memory.hand .matching = none) {ref : PacketRef}
    (hfirst : (sent.map Prod.fst)[memory.clocks.last .head]? = some ref)
    (hhead : next.clocks.last .head = memory.clocks.last .head + 1)
    (hmatching : next.hand .matching = ref.slot) : next.Counted sent makers := by
  have hless : memory.clocks.last .head < (sent.map Prod.fst).length :=
    (List.getElem?_eq_some_iff.mp hfirst).1
  rw [List.length_map] at hless
  have hbalance := hcounted.balance
  rw [hhand] at hbalance
  constructor
  · rw [hact.last_eq UdpAtomic.noConfusion, hcounted.count]
  · rw [hhead, slotsBefore_succ hfirst, hbalance, hmatching]
    rfl
  · exact hcounted.own.trans (givenBack_mono makers (hact.evolves.view _ _))
  · intro e hseen hle
    exact hcounted.unseen e ((hact.evolves.view _ _).trans hseen) hle
  · exact hcounted.everywhere hkeeps.channel.sound hact fun _ => ⟨rfl, hhand⟩

end Counted

theorem Counted.step {makers : List UdpThread} (hcounted : memory.Counted sent makers)
    (hkeeps : memory.Keeps bits numSlots sent free) (hslots : numSlots < 2 ^ 32)
    (hstep : memory.Step result) :
    result.1.Counted (sent ++ (result.2.bind UdpEvent.sent).toList)
      (makers ++ (result.2.bind UdpEvent.maker).toList) := by
  have hnil := List.append_nil makers
  cases hstep with
  | acquire clocks pool event hhand hidle hstep =>
      have hact := hstep.act
      have hhead : clocks.last .head = memory.clocks.last .head :=
        hact.last_eq UdpAtomic.noConfusion
      cases hkeeps.stack.acquire hstep with
      | silent last _ =>
          change Counted _ (sent ++ []) (makers ++ [])
          rw [hnil]
          exact hcounted.quiet hkeeps hact (fun hlocation => nomatch hlocation) hhead last rfl
      | exhausted last _ _ _ _ _ =>
          change Counted _ (sent ++ []) (makers ++ [])
          rw [hnil]
          exact hcounted.quiet hkeeps hact (fun hlocation => nomatch hlocation) hhead last rfl
      | acquired idx rest first last seen _ _ _ =>
          change Counted _ (sent ++ []) (makers ++ [.network])
          rw [List.append_nil]
          exact hcounted.exchanged hkeeps hact last seen rfl
  | fill idx write hhand =>
      have hact : Clocks.Act .network (fun _ => False) (· = UdpCell.slot .packet idx)
          memory.clocks (memory.clocks.access .network (.slot .packet idx) .write) :=
        .access _ .write rfl
      change Counted _ (sent ++ []) (makers ++ [])
      rw [hnil]
      exact hcounted.quiet hkeeps hact False.elim rfl rfl rfl
  | push ref age hguard =>
      have hact := memory.ring.push_act udpRing memory.clocks ref age
      have hmove := hkeeps.channel.push ref age
      generalize memory.ring.push udpRing memory.clocks ref age = answer at hact hmove ⊢
      generalize memory.ring.pusher.value.getD ref = value at hmove
      obtain ⟨clocks, ring, event⟩ := answer
      dsimp only at hact hmove
      have hfree : clocks.last .freeHead = memory.clocks.last .freeHead :=
        hact.last_eq UdpAtomic.noConfusion
      cases hmove with
      | silent head _ _ =>
          change Counted _ (sent ++ []) (makers ++ [])
          rw [hnil]
          exact hcounted.quiet hkeeps hact (fun hlocation => nomatch hlocation) head hfree rfl
      | refused head _ _ _ _ _ _ =>
          change Counted _ (sent ++ []) (makers ++ [])
          rw [hnil]
          exact hcounted.quiet hkeeps hact (fun hlocation => nomatch hlocation) head hfree rfl
      | pushed head _ _ _ =>
          change Counted _ (sent ++ [(value, memory.slots value.poolIdx)]) (makers ++ [])
          rw [hnil]
          exact hcounted.quiet hkeeps hact (fun hlocation => nomatch hlocation) head hfree
            (hand_setHand_network_matching _ _)
  | release thread idx clocks pool event hhand hidle hstep =>
      have hact := hstep.act
      have hhead : clocks.last .head = memory.clocks.last .head :=
        hact.last_eq UdpAtomic.noConfusion
      cases hkeeps.releaseMove hslots hhand hstep with
      | silent last _ _ =>
          change Counted _ (sent ++ []) (makers ++ [])
          rw [hnil]
          exact hcounted.quiet hkeeps hact (fun hlocation => nomatch hlocation) hhead last rfl
      | released last seen _ _ =>
          change Counted _ (sent ++ []) (makers ++ [thread])
          rw [List.append_nil]
          refine hcounted.exchanged hkeeps hact last seen ?_
          cases thread with
          | network => exact congrArg (·.toList.length) (hand_setHand_network_matching _ _)
          | matching =>
              rw [hhand]
              exact congrArg (·.toList.length + 1) (hand_setHand_self _ .matching none)
  | pop age hhand =>
      have hact := memory.ring.pop_act udpRing memory.clocks age
      have hmove := hkeeps.channel.pop age
      generalize memory.ring.pop udpRing memory.clocks age = answer at hact hmove ⊢
      obtain ⟨clocks, ring, event⟩ := answer
      dsimp only at hact hmove
      have hfree : clocks.last .freeHead = memory.clocks.last .freeHead :=
        hact.last_eq UdpAtomic.noConfusion
      cases hmove with
      | silent head _ =>
          change Counted _ (sent ++ []) (makers ++ [])
          rw [hnil]
          exact hcounted.quiet hkeeps hact (fun _ => ⟨rfl, hhand⟩) head hfree rfl
      | empty head _ _ =>
          change Counted _ (sent ++ []) (makers ++ [])
          rw [hnil]
          exact hcounted.quiet hkeeps hact (fun _ => ⟨rfl, hhand⟩) head hfree rfl
      | popped out first head _ _ =>
          change Counted _ (sent ++ []) (makers ++ [])
          rw [hnil, List.append_nil]
          exact hcounted.popped hkeeps hact hhand first head (hand_setHand_self _ _ _)
  | read idx hhand =>
      have hact : Clocks.Act .matching (fun _ => False) (· = UdpCell.slot .packet idx)
          memory.clocks (memory.clocks.access .matching (.slot .packet idx) .read) :=
        .access _ .read rfl
      change Counted _ (sent ++ []) (makers ++ [])
      rw [hnil]
      exact hcounted.quiet hkeeps hact False.elim rfl rfl rfl

/-- The network thread finds the free list empty only if there are no more slots than cells in
the ring. -/
theorem Counted.numSlots_le {makers : List UdpThread} (hcounted : memory.Counted sent makers)
    (hkeeps : memory.Keeps bits numSlots sent free) (hhand : memory.hand .network = none)
    {read : ℕ} (hseen : memory.clocks.view .network (.stores .freeHead) ≤ read)
    (hmissed : read + free.length = memory.clocks.last .freeHead) : numSlots ≤ 2 ^ bits := by
  have hslots := Custody.length_store_of_perm hkeeps.all
  have hall : (PacketPool.indices numSlots).length = numSlots := by
    rw [PacketPool.indices, List.length_map, List.length_range]
  have hqueue := slotsBefore_add_queue sent (memory.clocks.last .head)
  rw [hall, custody, hhand] at hslots
  dsimp only [Option.toList_none, List.length_nil] at hslots
  have hcount := hcounted.count
  have hunseen := hcounted.unseen read hseen (by omega)
  have hbalance := hcounted.balance
  have hview : slotsBefore sent (memory.clocks.view .network (.stores .head)) ≤
      givenBack makers (memory.clocks.view .network (.stores .freeHead)) + 1 :=
    hcounted.every.view .network
  have hread := givenBack_mono makers hseen
  have htail : sent.length = memory.clocks.last .tail := by
    have hlength := hkeeps.channel.count
    rwa [List.length_map] at hlength
  have hroom : memory.clocks.last .tail + 1 ≤
      memory.clocks.view .network (.stores .head) + 2 ^ bits := hkeeps.channel.ends.seen_head
  have hbehind : memory.clocks.view .network (.stores .head) ≤ sent.length :=
    (hkeeps.channel.sound.seen_le .network .head).trans hkeeps.head_le_length
  obtain ⟨more, hmore⟩ := Nat.exists_eq_add_of_le hbehind
  have hadd := slotsBefore_add_le sent (memory.clocks.view .network (.stores .head)) more
  rw [← hmore] at hadd
  omega

theorem counted_initial (numSlots capacity : ℕ) :
    (initial numSlots capacity).Counted [] [] where
  count := rfl
  balance := rfl
  own := Nat.le_refl _
  unseen _ _ hle := by
    rw [Nat.le_zero.mp hle]
    rfl
  every := ⟨fun _ => Nat.zero_le _, fun _ _ _ => Nat.zero_le _⟩

/-! ## Runs -/

/-- The pool pops nothing. -/
theorem taken_afterPool (memory : UdpMemory) (thread : UdpThread)
    (result : Clocks UdpThread UdpAtomic UdpCell × WeakPool UdpThread × Option PoolEvent) :
    (memory.afterPool thread result).2.bind UdpEvent.taken = none ∧
      (memory.afterPool thread result).1.clocks = result.1 := by
  obtain ⟨clocks, pool, event⟩ := result
  cases event with
  | none => exact ⟨rfl, rfl⟩
  | some event => cases event <;> exact ⟨rfl, rfl⟩

/-- What a step pops is the next reference. -/
theorem Keeps.taken (hkeeps : memory.Keeps bits numSlots sent free)
    (hstep : memory.Step result) :
    (sent.map Prod.fst).take (memory.clocks.last .head) ++
        (result.2.bind UdpEvent.taken).toList =
      ((sent ++ (result.2.bind UdpEvent.sent).toList).map Prod.fst).take
        (result.1.clocks.last .head) := by
  have hsame : ∀ taken : Option PacketRef, taken = none →
      result.1.clocks.last .head = memory.clocks.last .head →
        (sent.map Prod.fst).take (memory.clocks.last .head) ++ taken.toList =
          ((sent ++ (result.2.bind UdpEvent.sent).toList).map Prod.fst).take
            (result.1.clocks.last .head) := by
    rintro _ rfl hhead
    rw [hhead, List.map_append, List.take_append_of_le_length
      (by rw [List.length_map]; exact hkeeps.head_le_length)]
    exact List.append_nil _
  cases hstep with
  | acquire clocks pool event hhand hidle hstep =>
      obtain ⟨htaken, hclocks⟩ := taken_afterPool memory .network (clocks, pool, event)
      refine hsame _ htaken ?_
      rw [hclocks]
      exact hstep.act.last_eq UdpAtomic.noConfusion
  | fill idx write hhand => exact hsame _ rfl rfl
  | push ref age hguard =>
      have hmove := hkeeps.channel.push ref age
      generalize memory.ring.push udpRing memory.clocks ref age = answer at hmove hsame ⊢
      obtain ⟨clocks, ring, event⟩ := answer
      cases hmove with
      | silent head _ _ => exact hsame _ rfl head
      | refused head _ _ _ _ _ _ => exact hsame _ rfl head
      | pushed head _ _ _ => exact hsame _ rfl head
  | release thread idx clocks pool event hhand hidle hstep =>
      obtain ⟨htaken, hclocks⟩ := taken_afterPool memory thread (clocks, pool, event)
      refine hsame _ htaken ?_
      rw [hclocks]
      exact hstep.act.last_eq UdpAtomic.noConfusion
  | pop age hhand =>
      have hmove := hkeeps.channel.pop age
      generalize memory.ring.pop udpRing memory.clocks age = answer at hmove hsame ⊢
      obtain ⟨clocks, ring, event⟩ := answer
      cases hmove with
      | silent head _ => exact hsame _ rfl head
      | empty head _ _ => exact hsame _ rfl head
      | popped out first head _ _ =>
          change _ ++ [out] = ((sent ++ []).map Prod.fst).take (clocks.last .head)
          rw [show clocks.last .head = memory.clocks.last .head + 1 from head, List.append_nil,
            List.take_add_one]
          exact congrArg (_ ++ Option.toList ·) first.symm
  | read idx hhand => exact hsame _ rfl rfl

/-- The pool reads no packet. -/
theorem afterPool_ne_read (memory : UdpMemory) (thread : UdpThread)
    (result : Clocks UdpThread UdpAtomic UdpCell × WeakPool UdpThread × Option PoolEvent)
    (packet : BufferSlot) : (memory.afterPool thread result).2 ≠ some (.read packet) := by
  obtain ⟨clocks, pool, event⟩ := result
  intro hread
  cases event with
  | none => cases hread
  | some event => cases event <;> cases hread

/-- The ring reads no packet and does not run out of slots. -/
theorem afterRing_ne (memory : UdpMemory)
    (result : Clocks UdpThread UdpAtomic UdpCell × WeakRing PacketRef ×
      Option (QueueEvent PacketRef)) (packet : BufferSlot) :
    (memory.afterRing result).2 ≠ some (.read packet) ∧
      (memory.afterRing result).2 ≠ some .exhausted := by
  obtain ⟨clocks, ring, event⟩ := result
  constructor
  · intro hread
    cases event with
    | none => cases hread
    | some event => cases event <;> cases hread
  · intro hexhausted
    cases event with
    | none => cases hexhausted
    | some event => cases event <;> cases hexhausted

/-- What is read is the packet of the last reference that was popped. -/
theorem Keeps.read_eq (hkeeps : memory.Keeps bits numSlots sent free)
    (hstep : memory.Step result) {packet : BufferSlot} (hread : result.2 = some (.read packet)) :
    ∃ m ref, memory.clocks.last .head = m + 1 ∧ sent[m]? = some (ref, packet) := by
  cases hstep with
  | acquire clocks pool event => exact (afterPool_ne_read _ _ _ packet hread).elim
  | fill idx write hhand => cases hread
  | push ref age hguard => exact ((afterRing_ne _ _ packet).1 hread).elim
  | release thread idx clocks pool event => exact (afterPool_ne_read _ _ _ packet hread).elim
  | pop age hhand => exact ((afterRing_ne _ _ packet).1 hread).elim
  | read idx hhand =>
      cases hread
      obtain ⟨m, ref, hm, hsent, _⟩ := hkeeps.received idx hhand
      exact ⟨m, ref, hm, hsent⟩

theorem Counted.numSlots_le_of_exhausted {makers : List UdpThread}
    (hcounted : memory.Counted sent makers) (hkeeps : memory.Keeps bits numSlots sent free)
    (hstep : memory.Step result) (hexhausted : result.2 = some .exhausted) :
    numSlots ≤ 2 ^ bits := by
  cases hstep with
  | acquire clocks pool event hhand hidle hstep =>
      cases hkeeps.stack.acquire hstep with
      | silent => cases hexhausted
      | exhausted _ read seen missed _ _ => exact hcounted.numSlots_le hkeeps hhand seen missed
      | acquired => cases hexhausted
  | fill idx write hhand => cases hexhausted
  | push ref age hguard => exact ((afterRing_ne _ _ (memory.slots 0)).2 hexhausted).elim
  | release thread idx clocks pool event hhand hidle hstep =>
      cases hstep <;> cases hexhausted
  | pop age hhand => exact ((afterRing_ne _ _ (memory.slots 0)).2 hexhausted).elim
  | read idx hhand => cases hexhausted

end UdpMemory

namespace UdpReached

variable {bits numSlots : ℕ} {memory : UdpMemory} {events : List UdpEvent}

/-- What a run keeps. -/
structure Kept (bits numSlots : ℕ) (memory : UdpMemory) (events : List UdpEvent) : Prop where
  keeps : ∃ free, memory.Keeps bits numSlots (sentPackets events) free
  counted : memory.Counted (sentPackets events) (storeMakers events)
  taken : takenRefs events =
    ((sentPackets events).map Prod.fst).take (memory.clocks.last .head)
  reads : ∀ past packet, past ++ [.read packet] <+: events →
    ∃ m ref, (takenRefs past).length = m + 1 ∧ (sentPackets past)[m]? = some (ref, packet)
  exhausted : .exhausted ∈ events → numSlots ≤ 2 ^ bits

theorem kept (hsome : 0 < numSlots) (hslots : numSlots < 2 ^ 32)
    (hreached : UdpReached numSlots (2 ^ bits) memory events) :
    Kept bits numSlots memory events := by
  induction hreached with
  | start =>
      refine ⟨⟨_, UdpMemory.keeps_initial bits hsome hslots⟩,
        UdpMemory.counted_initial numSlots (2 ^ bits), rfl, ?_, fun hnone => nomatch hnone⟩
      intro past packet hfront
      have hlength := hfront.length_le
      rw [List.length_append] at hlength
      cases hlength
  | @step memory next events event turn earlier here ih =>
      obtain ⟨free, hkeeps⟩ := ih.keeps
      have hstep := UdpMemory.step_cases here hkeeps.returning
      have hcount : (takenRefs events).length = memory.clocks.last .head := by
        rw [ih.taken, List.length_take, List.length_map,
          Nat.min_eq_left hkeeps.head_le_length]
      refine ⟨?_, ?_, ?_, ?_, ?_⟩
      · rw [sentPackets_append]
        exact hkeeps.step hslots hstep
      · rw [sentPackets_append, storeMakers_append]
        exact ih.counted.step hkeeps hslots hstep
      · rw [takenRefs_append, sentPackets_append, ih.taken]
        exact hkeeps.taken hstep
      · intro past packet hfront
        cases event with
        | none =>
            rw [Option.toList_none, List.append_nil] at hfront
            exact ih.reads past packet hfront
        | some answer =>
            rw [Option.toList_some, List.prefix_concat_iff] at hfront
            rcases hfront with hlast | hfront
            · obtain ⟨rfl, hread⟩ := List.append_inj' hlast rfl
              cases hread
              obtain ⟨m, ref, hm, hsent⟩ := hkeeps.read_eq hstep rfl
              exact ⟨m, ref, hcount.trans hm, hsent⟩
            · exact ih.reads past packet hfront
      · intro hmem
        rcases List.mem_append.mp hmem with hold | hnew
        · exact ih.exhausted hold
        · exact ih.counted.numSlots_le_of_exhausted hkeeps hstep
            (Option.mem_toList.mp hnew)

end UdpReached

/-- The free list: what the last store to its head names, and the links from there on. -/
structure UdpMemory.FreeList (memory : UdpMemory) (free : List UInt32) : Prop where
  head : memory.pool.heads (memory.clocks.last .freeHead) = firstSlot free
  path : Path memory.pool.nextFree free kPoolInvalid

/-- The slots, place by place: on the free list, with the network thread, in the ring and with
the matching thread. -/
def UdpMemory.places (memory : UdpMemory) (events : List UdpEvent) (free : List UInt32) :
    List UInt32 :=
  free ++ ((memory.hand .network).toList ++
    ((((sentPackets events).map Prod.fst).drop (takenRefs events).length).filterMap
      PacketRef.slot ++ (memory.hand .matching).toList))

/-- The two threads share their memory safely: nothing races, the references come out in order,
a packet that waits in the ring is untouched, what is read is what was pushed, and every slot
is in exactly one place. -/
structure SafelyShared (numSlots capacity : ℕ) (memory : UdpMemory) (events : List UdpEvent) :
    Prop where
  raceFree : memory.RaceFree
  order : takenRefs events <+: (sentPackets events).map Prod.fst
  bound : (sentPackets events).length ≤ (takenRefs events).length + (capacity - 1)
  waiting : ∀ m ref packet, (takenRefs events).length ≤ m →
    (sentPackets events)[m]? = some (ref, packet) → ref.poolIdx ≠ kPoolInvalid →
      memory.slots ref.poolIdx = packet
  reads : ∀ past packet, past ++ [.read packet] <+: events →
    ∃ m ref, (takenRefs past).length = m + 1 ∧ (sentPackets past)[m]? = some (ref, packet)
  owners : ∃ free, memory.FreeList free ∧ (memory.places events free).Nodup ∧
    (memory.places events free).Perm (PacketPool.indices numSlots)

/-- Whatever the order of the turns and whatever the loads read, the two threads share their
memory safely. -/
theorem UdpReached.safelyShared {numSlots capacity : ℕ} {ring : SpscRing PacketRef}
    (hsome : 0 < numSlots) (hslots : numSlots < 2 ^ 32)
    (hcreate : SpscRing.create capacity = some ring) {memory : UdpMemory}
    {events : List UdpEvent} (hreached : UdpReached numSlots capacity memory events) :
    SafelyShared numSlots capacity memory events := by
  obtain ⟨⟨bits, rfl⟩, _⟩ := SpscRing.create_eq_some_iff.mp hcreate
  have hkept := hreached.kept hsome hslots
  obtain ⟨free, hkeeps⟩ := hkept.keeps
  have hcount : (takenRefs events).length = memory.clocks.last .head := by
    rw [hkept.taken, List.length_take, List.length_map, Nat.min_eq_left hkeeps.head_le_length]
  refine ⟨hkeeps.raceFree, ?_, ?_, ?_, hkept.reads, ?_⟩
  · rw [hkept.taken]
    exact List.take_prefix _ _
  · have htail := hkeeps.channel.count
    have hroom : memory.clocks.last .tail < memory.clocks.last .head + 2 ^ bits :=
      hkeeps.channel.ends.room
    rw [List.length_map] at htail
    change (sentPackets events).length = memory.clocks.last .tail at htail
    omega
  · intro m ref packet hm hsent hvalid
    rw [hcount] at hm
    exact (hkeeps.held m ref packet hm hsent hvalid).2
  · have hplaces : memory.places events free =
        (memory.custody (sentPackets events) free).tokens := by
      unfold UdpMemory.places
      rw [hcount]
      rfl
    have hhead := hkeeps.stack.heads _ (hkeeps.stack.sound.seen_le _ _) (Nat.le_refl _)
    rw [Nat.sub_self, List.drop_zero] at hhead
    refine ⟨free, ⟨hhead, hkeeps.stack.path⟩, ?_⟩
    rw [hplaces]
    exact ⟨hkeeps.nodup hslots, hkeeps.all⟩

/-- With more slots than cells in the ring the network thread always finds a free slot, even
when it reads an old head of the free list. -/
theorem UdpReached.not_exhausted {numSlots capacity : ℕ} {ring : SpscRing PacketRef}
    (hslots : numSlots < 2 ^ 32) (hcreate : SpscRing.create capacity = some ring)
    (hroom : capacity < numSlots) {memory : UdpMemory} {events : List UdpEvent}
    (hreached : UdpReached numSlots capacity memory events) : .exhausted ∉ events := by
  obtain ⟨⟨bits, rfl⟩, _⟩ := SpscRing.create_eq_some_iff.mp hcreate
  intro hexhausted
  have hle := (hreached.kept (Nat.zero_lt_of_lt hroom) hslots).exhausted hexhausted
  omega

end Orderbook
