/-
# Two threads on the packet pool

The free list is a stack whose head both threads exchange: one thread acquires and
releases, the other only releases. A call is a few accesses to shared memory, and
between any two of them the other thread may run. An exchange compares the head with
the value read before; it may also fail for no reason, and the call starts over with
the value it found.

Comparing heads alone does not show that the list is still the one that was read: its
first slot might have been taken and given back in between, with other slots behind
it. Here it does show it. Only one thread takes slots, so what it read stays in the
list until it takes it, and the link of a slot is written only while no list contains
the slot.

An exchange that succeeds then does what the call does when it is taken as one step.
-/

import Orderbook.Feed.PacketPool
import Orderbook.Math.Run
import Mathlib.Logic.Function.Basic

namespace Orderbook

open Orderbook.Math

/-- The thread that acquires and releases, and the one that only releases. -/
inductive PoolThread
  | acquirer
  | releaser
  deriving DecidableEq, Repr

def PoolThread.other : PoolThread → PoolThread
  | .acquirer => .releaser
  | .releaser => .acquirer

/-- Where a thread stands: between calls, or in front of the access that the state names.
The first two accesses are of `acquire`, the others of `release`. -/
inductive PoolPc
  | idle
  | readNext (head : UInt32)
  | pop (head next : UInt32)
  | writeNext (idx head : UInt32)
  | push (idx head : UInt32)
  deriving DecidableEq, Repr

/-- The slot that a thread is about to give back. -/
def PoolPc.slot : PoolPc → List UInt32
  | .writeNext idx _ => [idx]
  | .push idx _ => [idx]
  | _ => []

/-- A pool and the two threads at work on it, with the slots that each one owns. -/
structure PoolThreads where
  pool : PacketPool
  pc : PoolThread → PoolPc
  owned : PoolThread → List UInt32

/-- What a call answers when it returns. -/
inductive PoolEvent
  | acquired (idx : UInt32)
  | exhausted
  | released (idx : UInt32)
  deriving DecidableEq, Repr

/-- Whose turn it is, and whether an exchange fails for no reason. A slot is released if
the thread is between calls. A thread may also leave a slot to the other one. -/
inductive PoolTurn
  | acquire (spurious : Bool)
  | release (thread : PoolThread) (idx : UInt32) (spurious : Bool)
  | handOver (thread : PoolThread) (idx : UInt32)
  deriving DecidableEq, Repr

theorem PoolThread.other_ne (thread : PoolThread) : thread.other ≠ thread := by
  cases thread <;> decide

namespace PoolThreads

/-- Both threads between calls on a new pool. -/
def start (numSlots : ℕ) : PoolThreads where
  pool := .create numSlots
  pc _ := .idle
  owned _ := []

def setPc (threads : PoolThreads) (thread : PoolThread) (pc : PoolPc) : PoolThreads :=
  { threads with pc := Function.update threads.pc thread pc }

def setOwned (threads : PoolThreads) (thread : PoolThread) (slots : List UInt32) : PoolThreads :=
  { threads with owned := Function.update threads.owned thread slots }

def setPool (threads : PoolThreads) (pool : PacketPool) : PoolThreads := { threads with pool }

/-- The test of the loop in `acquire`, on the head that was just loaded. -/
def testHead (threads : PoolThreads) (head : UInt32) : PoolThreads × Option PoolEvent :=
  if head ≠ kPoolInvalid then (threads.setPc .acquirer (.readNext head), none)
  else (threads.setPc .acquirer .idle, some .exhausted)

/-- One access of `acquire`. A failed exchange loads the head. -/
def acquire (threads : PoolThreads) (spurious : Bool) :
    Option (PoolThreads × Option PoolEvent) :=
  match threads.pc .acquirer with
  | .idle => some (threads.testHead threads.pool.freeHead)
  | .readNext head => some (threads.setPc .acquirer (.pop head (threads.pool.nextFree head)), none)
  | .pop head next =>
      if threads.pool.freeHead = head ∧ spurious = false then
        some (((threads.setPool { threads.pool with freeHead := next }).setOwned .acquirer
          (head :: threads.owned .acquirer)).setPc .acquirer .idle, some (.acquired head))
      else some (threads.testHead threads.pool.freeHead)
  | _ => none

/-- One access of `release`. Only an owned slot is released. -/
def release (threads : PoolThreads) (thread : PoolThread) (idx : UInt32) (spurious : Bool) :
    Option (PoolThreads × Option PoolEvent) :=
  match threads.pc thread with
  | .idle =>
      if idx ∈ threads.owned thread then
        some ((threads.setOwned thread ((threads.owned thread).erase idx)).setPc thread
          (.writeNext idx threads.pool.freeHead), none)
      else none
  | .writeNext idx head =>
      some ((threads.setPool { threads.pool with
        nextFree := Function.update threads.pool.nextFree idx head }).setPc thread
          (.push idx head), none)
  | .push idx head =>
      if threads.pool.freeHead = head ∧ spurious = false then
        some ((threads.setPool { threads.pool with freeHead := idx }).setPc thread .idle,
          some (.released idx))
      else some (threads.setPc thread (.writeNext idx threads.pool.freeHead), none)
  | _ => none

/-- Leave an owned slot to the other thread. -/
def handOver (threads : PoolThreads) (thread : PoolThread) (idx : UInt32) :
    Option (PoolThreads × Option PoolEvent) :=
  if idx ∈ threads.owned thread then
    some ((threads.setOwned thread ((threads.owned thread).erase idx)).setOwned thread.other
      (idx :: threads.owned thread.other), none)
  else none

def step (threads : PoolThreads) : PoolTurn → Option (PoolThreads × Option PoolEvent)
  | .acquire spurious => threads.acquire spurious
  | .release thread idx spurious => threads.release thread idx spurious
  | .handOver thread idx => threads.handOver thread idx

/-- The slots that a thread owns or is giving back. -/
def slotsOf (threads : PoolThreads) (thread : PoolThread) : List UInt32 :=
  threads.owned thread ++ (threads.pc thread).slot

/-- All slots: those in the free list and those of the threads. -/
def allSlots (threads : PoolThreads) (free : List UInt32) : List UInt32 :=
  free ++ (threads.slotsOf .acquirer ++ threads.slotsOf .releaser)

end PoolThreads

/-- What a thread in the middle of a call knows about the free list. -/
def PoolPc.Knows (pool : PacketPool) (free : List UInt32) : PoolPc → Prop
  | .idle => True
  | .readNext head => head ∈ free
  | .pop head next => head ∈ free ∧ pool.nextFree head = next
  | .writeNext _ _ => True
  | .push idx head => pool.nextFree idx = head

/-- A thread that does not acquire. -/
def PoolPc.Releases : PoolPc → Prop
  | .readNext _ => False
  | .pop _ _ => False
  | _ => True

namespace PoolPc

variable {pool pool' : PacketPool} {free free' : List UInt32} {pc : PoolPc}

/-- What is known stays true while the list grows and no link of it is written. -/
theorem Knows.grow (hknows : pc.Knows pool free) (hfree : ∀ idx ∈ free, idx ∈ free')
    (hlinks : ∀ idx ∈ free, pool'.nextFree idx = pool.nextFree idx)
    (hslot : ∀ idx ∈ pc.slot, pool'.nextFree idx = pool.nextFree idx) :
    pc.Knows pool' free' := by
  cases pc with
  | idle => trivial
  | readNext head => exact hfree head hknows
  | pop head next => exact ⟨hfree head hknows.1, (hlinks head hknows.1).trans hknows.2⟩
  | writeNext idx head => trivial
  | push idx head => exact (hslot idx List.mem_cons_self).trans hknows

/-- A thread that releases knows nothing about the list. -/
theorem Knows.of_releases (hknows : pc.Knows pool free) (hreleases : pc.Releases)
    (hslot : ∀ idx ∈ pc.slot, pool'.nextFree idx = pool.nextFree idx) :
    pc.Knows pool' free' := by
  cases pc with
  | idle => trivial
  | readNext head => exact hreleases.elim
  | pop head next => exact hreleases.elim
  | writeNext idx head => trivial
  | push idx head => exact (hslot idx List.mem_cons_self).trans hknows

end PoolPc

namespace PoolThreads

variable {numSlots : ℕ} {threads next : PoolThreads} {free free' : List UInt32}
  {thread : PoolThread} {event : Option PoolEvent}

@[simp]
theorem pc_setPc (threads : PoolThreads) (thread : PoolThread) (pc : PoolPc) :
    (threads.setPc thread pc).pc thread = pc :=
  Function.update_self ..

@[simp]
theorem pc_setPc_other (threads : PoolThreads) (thread : PoolThread) (pc : PoolPc) :
    (threads.setPc thread pc).pc thread.other = threads.pc thread.other :=
  Function.update_of_ne thread.other_ne ..

@[simp]
theorem owned_setOwned (threads : PoolThreads) (thread : PoolThread) (slots : List UInt32) :
    (threads.setOwned thread slots).owned thread = slots :=
  Function.update_self ..

@[simp]
theorem owned_setOwned_other (threads : PoolThreads) (thread : PoolThread)
    (slots : List UInt32) :
    (threads.setOwned thread slots).owned thread.other = threads.owned thread.other :=
  Function.update_of_ne thread.other_ne ..

@[simp]
theorem owned_setOwned_of_other (threads : PoolThreads) (thread : PoolThread)
    (slots : List UInt32) :
    (threads.setOwned thread.other slots).owned thread = threads.owned thread :=
  Function.update_of_ne thread.other_ne.symm ..

@[simp]
theorem owned_setPc (threads : PoolThreads) (thread : PoolThread) (pc : PoolPc) :
    (threads.setPc thread pc).owned = threads.owned := rfl

theorem allSlots_perm (threads : PoolThreads) (free : List UInt32) (thread : PoolThread) :
    (threads.allSlots free).Perm
      (free ++ threads.slotsOf thread ++ threads.slotsOf thread.other) := by
  rw [allSlots, List.append_assoc]
  apply List.Perm.append_left
  cases thread with
  | acquirer => exact List.Perm.refl _
  | releaser => exact List.perm_append_comm

/-! ## The invariant -/

/-- The free list and the slots of the threads are all slots, and what the threads know is
true. -/
structure Sound (numSlots : ℕ) (threads : PoolThreads) (free : List UInt32) : Prop where
  freeList : threads.pool.FreeList free
  partition : (threads.allSlots free).Perm (PacketPool.indices numSlots)
  knows : ∀ thread, (threads.pc thread).Knows threads.pool free
  releaser : (threads.pc .releaser).Releases

/-- What an access does to the pool and to its free list: nothing that the list shows, or
what the call does as one step. -/
inductive PoolMove (pool : PacketPool) (free : List UInt32) :
    Option PoolEvent → PacketPool → List UInt32 → Prop
  | silent {pool' : PacketPool} (hhead : pool'.freeHead = pool.freeHead)
      (hlinks : ∀ idx ∈ free, pool'.nextFree idx = pool.nextFree idx) :
      PoolMove pool free none pool' free
  | acquire {idx : UInt32} {rest : List UInt32} {pool' : PacketPool} (hfree : free = idx :: rest)
      (hpool : pool.acquire = (idx, pool')) :
      PoolMove pool free (some (.acquired idx)) pool' rest
  | exhaust (hfree : free = []) : PoolMove pool free (some .exhausted) pool []
  | release (idx : UInt32) :
      PoolMove pool free (some (.released idx)) (pool.release idx) (idx :: free)

/-- A slot that is acquired was in the list. -/
theorem PoolMove.mem_of_acquired {pool pool' : PacketPool} {idx : UInt32}
    (hmove : PoolMove pool free (some (.acquired idx)) pool' free') : idx ∈ free := by
  cases hmove with
  | acquire hfree hpool =>
      rw [hfree]
      exact List.mem_cons_self

/-- Nothing is found only in an empty list. -/
theorem PoolMove.eq_nil_of_exhausted {pool pool' : PacketPool}
    (hmove : PoolMove pool free (some .exhausted) pool' free') : free = [] := by
  cases hmove with
  | exhaust hfree => exact hfree

namespace Sound

/-- An access of one thread leaves the slots of the other one. -/
theorem move (hsound : threads.Sound numSlots free) (thread : PoolThread)
    (hfree : next.pool.FreeList free')
    (hslots : (free' ++ next.slotsOf thread).Perm (free ++ threads.slotsOf thread))
    (hpc : next.pc thread.other = threads.pc thread.other)
    (howned : next.owned thread.other = threads.owned thread.other)
    (hknows : (next.pc thread).Knows next.pool free')
    (hreleases : thread = .releaser → (next.pc thread).Releases)
    (hother : (threads.pc thread.other).Knows next.pool free') :
    next.Sound numSlots free' := by
  have hsame : next.slotsOf thread.other = threads.slotsOf thread.other := by
    rw [slotsOf, slotsOf, hpc, howned]
  refine ⟨hfree, ?_, ?_, ?_⟩
  · apply (next.allSlots_perm free' thread).trans
    rw [hsame]
    exact (hslots.append_right _).trans
      ((threads.allSlots_perm free thread).symm.trans hsound.partition)
  · rw [← hpc] at hother
    intro thread'
    cases thread <;> cases thread' <;> assumption
  · cases thread with
    | acquirer =>
        have hreleaser : next.pc .releaser = threads.pc .releaser := hpc
        rw [hreleaser]
        exact hsound.releaser
    | releaser => exact hreleases rfl

theorem nodup (hsound : threads.Sound numSlots free) (hslots : numSlots < 2 ^ 32)
    (thread : PoolThread) :
    (free ++ threads.slotsOf thread ++ threads.slotsOf thread.other).Nodup :=
  ((threads.allSlots_perm free thread).symm.trans hsound.partition).nodup_iff.mpr
    (PacketPool.nodup_indices hslots)

/-- A slot of a thread is in no list and not with the other thread. -/
theorem apart (hsound : threads.Sound numSlots free) (hslots : numSlots < 2 ^ 32) {idx : UInt32}
    (hidx : idx ∈ threads.slotsOf thread) :
    idx ∉ free ∧ idx ∉ threads.slotsOf thread.other := by
  have hnodup := hsound.nodup hslots thread
  rw [List.append_assoc, List.nodup_append] at hnodup
  obtain ⟨_, hthreads, hfree⟩ := hnodup
  have hother := (List.nodup_append.mp hthreads).2.2
  exact ⟨fun hmem => hfree idx hmem idx (List.mem_append_left _ hidx) rfl,
    fun hmem => hother idx hidx idx hmem rfl⟩

/-- The slots in the free list are valid. -/
theorem ne_invalid (hsound : threads.Sound numSlots free) (hslots : numSlots < 2 ^ 32)
    {idx : UInt32} (hidx : idx ∈ free) : idx ≠ kPoolInvalid :=
  PacketPool.ne_kPoolInvalid_of_mem hslots
    (hsound.partition.mem_iff.mp (List.mem_append_left _ hidx))

/-- The head is invalid exactly when the list is empty. -/
theorem freeHead_cases (hsound : threads.Sound numSlots free) (hslots : numSlots < 2 ^ 32) :
    (threads.pool.freeHead = kPoolInvalid ∧ free = []) ∨
      ∃ rest, free = threads.pool.freeHead :: rest ∧ threads.pool.freeHead ≠ kPoolInvalid := by
  have hhead := hsound.freeList.head
  cases free with
  | nil => exact .inl ⟨hhead, rfl⟩
  | cons idx rest =>
      right
      rw [List.head?_cons, Option.getD_some] at hhead
      rw [hhead]
      exact ⟨rest, rfl, hsound.ne_invalid hslots List.mem_cons_self⟩

/-- Moving a thread on to an access at which it gives back the same slots. -/
theorem setPc (hsound : threads.Sound numSlots free) {pc : PoolPc}
    (hslot : pc.slot = (threads.pc thread).slot) (hknows : pc.Knows threads.pool free)
    (hreleases : thread = .releaser → pc.Releases) :
    (threads.setPc thread pc).Sound numSlots free := by
  apply hsound.move thread
  · exact hsound.freeList
  · rw [slotsOf, slotsOf, pc_setPc, owned_setPc, hslot]
  · exact pc_setPc_other ..
  · rfl
  · rw [pc_setPc]
    exact hknows
  · rw [pc_setPc]
    exact hreleases
  · exact hsound.knows thread.other

/-- The loop in `acquire` goes on with the head, or the list is empty. -/
theorem testHead (hsound : threads.Sound numSlots free) (hslots : numSlots < 2 ^ 32)
    (hslot : (threads.pc .acquirer).slot = [])
    (htest : threads.testHead threads.pool.freeHead = (next, event)) :
    ∃ free', PoolMove threads.pool free event next.pool free' ∧ next.Sound numSlots free' := by
  unfold PoolThreads.testHead at htest
  rcases hsound.freeHead_cases hslots with ⟨hhead, hempty⟩ | ⟨rest, hfree, hvalid⟩
  · rw [if_neg (not_not.mpr hhead)] at htest
    cases htest
    subst hempty
    exact ⟨[], .exhaust rfl, hsound.setPc hslot.symm trivial (fun hnot => nomatch hnot)⟩
  · rw [if_pos hvalid] at htest
    cases htest
    refine ⟨free, .silent rfl (fun _ _ => rfl),
      hsound.setPc hslot.symm ?_ (fun hnot => nomatch hnot)⟩
    rw [hfree]
    exact List.mem_cons_self

/-- The exchange in `acquire` that succeeds: the slot read before is still the first one, and
its link has not been written since. -/
theorem pop (hsound : threads.Sound numSlots free) (hslots : numSlots < 2 ^ 32)
    {head after : UInt32} (hpc : threads.pc .acquirer = .pop head after)
    (hhead : threads.pool.freeHead = head) :
    ∃ free', PoolMove threads.pool free (some (.acquired head))
        { threads.pool with freeHead := after } free' ∧
      (((threads.setPool { threads.pool with freeHead := after }).setOwned .acquirer
        (head :: threads.owned .acquirer)).setPc .acquirer .idle).Sound numSlots free' := by
  have hknows := hsound.knows .acquirer
  rw [hpc] at hknows
  obtain ⟨hmem, hafter⟩ := hknows
  have hvalid := hsound.ne_invalid hslots hmem
  rcases hsound.freeHead_cases hslots with ⟨hinvalid, _⟩ | ⟨rest, hfree, _⟩
  · exact absurd (hhead.symm.trans hinvalid) hvalid
  rw [hhead] at hfree
  subst hfree
  have hpool : threads.pool.acquire = (head, { threads.pool with freeHead := after }) := by
    rw [PacketPool.acquire, hhead, if_pos hvalid, hafter]
  have hrest := (hsound.freeList.acquire hvalid).2
  rw [hpool] at hrest
  refine ⟨rest, .acquire rfl hpool, ?_⟩
  apply hsound.move .acquirer
  · exact hrest
  · have hbefore : threads.slotsOf .acquirer = threads.owned .acquirer := by
      rw [slotsOf, hpc]
      exact List.append_nil _
    have hafter : (((threads.setPool { threads.pool with freeHead := after }).setOwned .acquirer
        (head :: threads.owned .acquirer)).setPc .acquirer .idle).slotsOf .acquirer =
          head :: threads.owned .acquirer := by
      rw [slotsOf, pc_setPc, owned_setPc, owned_setOwned]
      exact List.append_nil _
    rw [hbefore, hafter]
    exact List.perm_middle
  · exact pc_setPc_other ..
  · rw [owned_setPc, owned_setOwned_other]
    rfl
  · rw [pc_setPc]
    trivial
  · exact fun hnot => nomatch hnot
  · exact (hsound.knows .releaser).of_releases hsound.releaser (fun _ _ => rfl)

/-- What an access of `acquire` does. -/
theorem acquire (hsound : threads.Sound numSlots free) (hslots : numSlots < 2 ^ 32)
    {spurious : Bool} (hacquire : threads.acquire spurious = some (next, event)) :
    ∃ free', PoolMove threads.pool free event next.pool free' ∧ next.Sound numSlots free' := by
  unfold PoolThreads.acquire at hacquire
  cases hpc : threads.pc .acquirer with
  | idle =>
      rw [hpc] at hacquire
      exact hsound.testHead hslots (by rw [hpc]; rfl) (Option.some.inj hacquire)
  | readNext head =>
      have hknows := hsound.knows .acquirer
      rw [hpc] at hacquire hknows
      cases hacquire
      exact ⟨free, .silent rfl (fun _ _ => rfl),
        hsound.setPc (by rw [hpc]; rfl) ⟨hknows, rfl⟩ (fun hnot => nomatch hnot)⟩
  | pop head after =>
      rw [hpc] at hacquire
      dsimp only at hacquire
      split at hacquire
      case isTrue hexchanged =>
        cases hacquire
        exact hsound.pop hslots hpc hexchanged.1
      case isFalse =>
        exact hsound.testHead hslots (by rw [hpc]; rfl) (Option.some.inj hacquire)
  | writeNext idx head =>
      rw [hpc] at hacquire
      cases hacquire
  | push idx head =>
      rw [hpc] at hacquire
      cases hacquire

/-- Writing the link of a slot that is given back: the list does not contain the slot, and
neither does the other thread. -/
theorem writeNext (hsound : threads.Sound numSlots free) (hslots : numSlots < 2 ^ 32)
    {idx head : UInt32} (hpc : threads.pc thread = .writeNext idx head) :
    PoolMove threads.pool free none
        { threads.pool with nextFree := Function.update threads.pool.nextFree idx head } free ∧
      ((threads.setPool { threads.pool with
        nextFree := Function.update threads.pool.nextFree idx head }).setPc thread
          (.push idx head)).Sound numSlots free := by
  have hidx : idx ∈ threads.slotsOf thread := by
    rw [slotsOf, hpc]
    exact List.mem_append_right _ List.mem_cons_self
  obtain ⟨hfree, hother⟩ := hsound.apart hslots hidx
  have hlinks : ∀ other ∈ free,
      Function.update threads.pool.nextFree idx head other = threads.pool.nextFree other := by
    intro other hmem
    exact Function.update_of_ne (ne_of_mem_of_not_mem hmem hfree) ..
  refine ⟨.silent rfl hlinks, ?_⟩
  apply hsound.move thread
  · exact ⟨hsound.freeList.head, hsound.freeList.path.congr hlinks⟩
  · rw [slotsOf, slotsOf, pc_setPc, hpc]
    exact List.Perm.refl _
  · exact pc_setPc_other ..
  · rfl
  · rw [pc_setPc]
    exact Function.update_self ..
  · rw [pc_setPc]
    exact fun _ => trivial
  · refine (hsound.knows thread.other).grow (fun _ hmem => hmem) hlinks ?_
    intro other hmem
    exact Function.update_of_ne
      (ne_of_mem_of_not_mem (List.mem_append_right (threads.owned thread.other) hmem) hother) ..

/-- The exchange in `release` that succeeds: the link of the slot points to the head. -/
theorem push (hsound : threads.Sound numSlots free) (hslots : numSlots < 2 ^ 32)
    {idx head : UInt32} (hpc : threads.pc thread = .push idx head)
    (hhead : threads.pool.freeHead = head) :
    PoolMove threads.pool free (some (.released idx)) { threads.pool with freeHead := idx }
        (idx :: free) ∧
      ((threads.setPool { threads.pool with freeHead := idx }).setPc thread .idle).Sound numSlots
        (idx :: free) := by
  have hknows := hsound.knows thread
  rw [hpc] at hknows
  have hslot : (threads.pc thread).slot = [idx] := by rw [hpc]; rfl
  have hidx : idx ∈ threads.slotsOf thread := by
    rw [slotsOf, hslot]
    exact List.mem_append_right _ List.mem_cons_self
  have hfree := (hsound.apart hslots hidx).1
  have hpool : { threads.pool with freeHead := idx } = threads.pool.release idx := by
    have hlinks : (fun other => if other = idx then threads.pool.freeHead
        else threads.pool.nextFree other) = threads.pool.nextFree := by
      funext other
      split
      case isTrue hsame => rw [hsame, hhead, hknows]
      case isFalse => rfl
    rw [PacketPool.release, hlinks]
  rw [hpool]
  refine ⟨.release idx, ?_⟩
  apply hsound.move thread
  · exact hsound.freeList.release hfree
  · rw [slotsOf, slotsOf, pc_setPc, hslot]
    change (idx :: (free ++ (threads.owned thread ++ []))).Perm _
    rw [List.append_nil, ← List.append_assoc]
    exact List.perm_append_singleton idx _ |>.symm
  · exact pc_setPc_other ..
  · rfl
  · rw [pc_setPc]
    trivial
  · rw [pc_setPc]
    exact fun _ => trivial
  · rw [← hpool]
    exact (hsound.knows thread.other).grow (fun _ hmem => List.mem_cons_of_mem _ hmem)
      (fun _ _ => rfl) (fun _ _ => rfl)

/-- What an access of `release` does. -/
theorem release (hsound : threads.Sound numSlots free) (hslots : numSlots < 2 ^ 32)
    {idx : UInt32} {spurious : Bool}
    (hrelease : threads.release thread idx spurious = some (next, event)) :
    ∃ free', PoolMove threads.pool free event next.pool free' ∧ next.Sound numSlots free' := by
  unfold PoolThreads.release at hrelease
  cases hpc : threads.pc thread with
  | idle =>
      rw [hpc] at hrelease
      dsimp only at hrelease
      split at hrelease
      case isTrue howned =>
        cases hrelease
        refine ⟨free, .silent rfl (fun _ _ => rfl), ?_⟩
        apply hsound.move thread
        · exact hsound.freeList
        · rw [slotsOf, slotsOf, pc_setPc, owned_setPc, owned_setOwned, hpc]
          change (free ++ ((threads.owned thread).erase idx ++ [idx])).Perm
            (free ++ (threads.owned thread ++ []))
          rw [List.append_nil]
          exact ((List.perm_append_singleton idx _).trans
            (List.perm_cons_erase howned).symm).append_left free
        · exact pc_setPc_other ..
        · exact owned_setOwned_other ..
        · rw [pc_setPc]
          trivial
        · rw [pc_setPc]
          exact fun _ => trivial
        · exact hsound.knows thread.other
      case isFalse => cases hrelease
  | readNext head =>
      rw [hpc] at hrelease
      cases hrelease
  | pop head after =>
      rw [hpc] at hrelease
      cases hrelease
  | writeNext idx head =>
      rw [hpc] at hrelease
      cases hrelease
      exact ⟨free, hsound.writeNext hslots hpc⟩
  | push idx head =>
      rw [hpc] at hrelease
      dsimp only at hrelease
      split at hrelease
      case isTrue hexchanged =>
        cases hrelease
        exact ⟨idx :: free, hsound.push hslots hpc hexchanged.1⟩
      case isFalse =>
        cases hrelease
        exact ⟨free, .silent rfl (fun _ _ => rfl),
          hsound.setPc (by rw [hpc]; rfl) trivial (fun _ => trivial)⟩

/-- Leaving a slot to the other thread. -/
theorem handOver (hsound : threads.Sound numSlots free) {idx : UInt32}
    (hhand : threads.handOver thread idx = some (next, event)) :
    ∃ free', PoolMove threads.pool free event next.pool free' ∧ next.Sound numSlots free' := by
  unfold PoolThreads.handOver at hhand
  split at hhand
  case isTrue howned =>
    cases hhand
    refine ⟨free, .silent rfl (fun _ _ => rfl), hsound.freeList, ?_, hsound.knows,
      hsound.releaser⟩
    apply (allSlots_perm _ free thread).trans
    refine List.Perm.trans ?_ ((threads.allSlots_perm free thread).symm.trans hsound.partition)
    rw [slotsOf, slotsOf, owned_setOwned_of_other, owned_setOwned, owned_setOwned]
    have hmoved : (free ++ (idx :: (threads.owned thread).erase idx ++ (threads.pc thread).slot)
        ++ threads.slotsOf thread.other).Perm
          (free ++ threads.slotsOf thread ++ threads.slotsOf thread.other) :=
      (((List.perm_cons_erase howned).symm.append_right _).append_left free).append_right _
    refine List.Perm.trans ?_ hmoved
    refine List.perm_middle.trans (List.Perm.symm ?_)
    rw [List.append_assoc]
    exact List.perm_middle.trans (.of_eq (by rw [List.append_assoc]; rfl))
  case isFalse => cases hhand

/-- What one turn does. -/
theorem step (hsound : threads.Sound numSlots free) (hslots : numSlots < 2 ^ 32)
    {turn : PoolTurn} (hstep : threads.step turn = some (next, event)) :
    ∃ free', PoolMove threads.pool free event next.pool free' ∧ next.Sound numSlots free' := by
  cases turn with
  | acquire spurious => exact hsound.acquire hslots hstep
  | release thread idx spurious => exact hsound.release hslots hstep
  | handOver thread idx => exact hsound.handOver hstep

end Sound

/-! ## Runs -/

theorem sound_start (hsome : 1 ≤ numSlots) (hslots : numSlots < 2 ^ 32) :
    (start numSlots).Sound numSlots (PacketPool.indices numSlots) where
  freeList := PacketPool.freeList_create hsome hslots
  partition := .of_eq (List.append_nil _)
  knows _ := trivial
  releaser := trivial

/-- Whatever the order of the turns, the free list is the one that the successful exchanges
have left. -/
theorem exists_sound_of_run (hsome : 1 ≤ numSlots) (hslots : numSlots < 2 ^ 32)
    {turns : List PoolTurn} {events : List (Option PoolEvent)}
    (hrun : runList step (start numSlots) turns = some (threads, events)) :
    ∃ free, threads.Sound numSlots free := by
  refine keeps_of_runList (fun threads : PoolThreads => ∃ free, threads.Sound numSlots free)
    ?_ ⟨_, sound_start hsome hslots⟩ hrun
  rintro threads turn next event ⟨free, hsound⟩ hstep
  obtain ⟨free', _, hnext⟩ := hsound.step hslots hstep
  exact ⟨free', hnext⟩

/-- The free list starts at the head, follows the links and ends, without visiting a slot
twice. No slot of it is owned, and every slot is in it, owned or on its way back, once. -/
structure Covers (numSlots : ℕ) (threads : PoolThreads) (free : List UInt32) : Prop where
  freeList : threads.pool.FreeList free
  valid : kPoolInvalid ∉ free
  acyclic : free.Nodup
  apart : ∀ thread, ∀ idx ∈ threads.owned thread, idx ∉ free
  partition : ((threads.allSlots free).map UInt32.toNat).Perm (List.range numSlots)

theorem Sound.covers (hsound : threads.Sound numSlots free) (hslots : numSlots < 2 ^ 32) :
    threads.Covers numSlots free where
  freeList := hsound.freeList
  valid hmem := hsound.ne_invalid hslots hmem rfl
  acyclic := by
    have hnodup := hsound.nodup hslots .acquirer
    rw [List.append_assoc] at hnodup
    exact (List.nodup_append.mp hnodup).1
  apart thread idx hidx := (hsound.apart hslots (List.mem_append_left _ hidx)).1
  partition := by
    refine (hsound.partition.map UInt32.toNat).trans (.of_eq ?_)
    rw [PacketPool.indices, List.map_map]
    refine (List.map_congr_left fun i hi => ?_).trans (List.map_id _)
    have hless := List.mem_range.mp hi
    exact UInt32.toNat_ofNat_of_lt' (Nat.lt_trans hless hslots)

/-- A slot that is acquired goes to the thread that acquires. -/
theorem owned_of_acquired {turn : PoolTurn} {idx : UInt32}
    (hstep : threads.step turn = some (next, some (.acquired idx))) :
    next.owned .acquirer = idx :: threads.owned .acquirer := by
  cases turn with
  | acquire spurious =>
      have htest : ∀ head, threads.testHead head ≠ (next, some (.acquired idx)) := by
        intro head
        unfold testHead
        split <;> exact fun heq => nomatch heq
      simp only [step, acquire] at hstep
      split at hstep
      · exact absurd (Option.some.inj hstep) (htest _)
      · cases hstep
      · split at hstep
        · cases hstep
          rfl
        · exact absurd (Option.some.inj hstep) (htest _)
      · cases hstep
  | release thread idx spurious =>
      simp only [step, release] at hstep
      split at hstep
      · split at hstep <;> cases hstep
      · cases hstep
      · split at hstep <;> cases hstep
      · cases hstep
  | handOver thread idx =>
      simp only [step, handOver] at hstep
      split at hstep <;> cases hstep

/-- With one thread that acquires and releases and one that only releases, every state of a
pool has an acyclic free list that contains no owned slot, and no slot is lost or there twice.
A turn leaves the list or does what a whole call does; so a slot that is acquired was with
nobody, and nothing is found only in an empty list. -/
theorem freeList_safe (hsome : 1 ≤ numSlots) (hslots : numSlots < 2 ^ 32)
    {turns : List PoolTurn} {events : List (Option PoolEvent)}
    (hrun : runList step (start numSlots) turns = some (threads, events)) :
    ∃ free, threads.Covers numSlots free ∧
      ∀ turn next event, threads.step turn = some (next, event) →
        (∃ free', PoolMove threads.pool free event next.pool free' ∧
          next.Covers numSlots free') ∧
        (∀ idx, event = some (.acquired idx) → (∀ thread, idx ∉ threads.slotsOf thread) ∧
          next.owned .acquirer = idx :: threads.owned .acquirer) ∧
        (event = some .exhausted → free = []) := by
  obtain ⟨free, hsound⟩ := exists_sound_of_run hsome hslots hrun
  refine ⟨free, hsound.covers hslots, fun turn next event hstep => ?_⟩
  obtain ⟨free', hmove, hnext⟩ := hsound.step hslots hstep
  refine ⟨⟨free', hmove, hnext.covers hslots⟩, ?_, ?_⟩
  · rintro idx rfl
    exact ⟨fun thread hmem => (hsound.apart hslots hmem).1 hmove.mem_of_acquired,
      owned_of_acquired hstep⟩
  · rintro rfl
    exact hmove.eq_nil_of_exhausted

/-- The slot goes to the other thread, which gives it back while the first one is about to
take the next slot. The exchange of the first thread fails. -/
theorem freeList_safe_backInFront :
    ∃ threads events free, runList step (start 2)
        [.acquire false, .acquire false, .acquire false, .handOver .acquirer 0, .acquire false,
          .release .releaser 0 false, .acquire false, .release .releaser 0 true,
          .release .releaser 0 false, .acquire false] = some (threads, events) ∧
      threads.Covers 2 free := by
  obtain ⟨threads, events, hrun⟩ : ∃ threads events, runList step (start 2)
      [.acquire false, .acquire false, .acquire false, .handOver .acquirer 0, .acquire false,
        .release .releaser 0 false, .acquire false, .release .releaser 0 true,
        .release .releaser 0 false, .acquire false] = some (threads, events) := ⟨_, _, rfl⟩
  obtain ⟨free, hcovers, _⟩ := freeList_safe (by decide) (by decide) hrun
  exact ⟨threads, events, free, hrun, hcovers⟩

/-- The last index is the invalid one. With as many slots as there are indices the slot at
the last index is in no free list, and nobody ever gets it. -/
theorem lastSlot_lost :
    1 ≤ 2 ^ 32 ∧ runList step (start (2 ^ 32)) [] = some (start (2 ^ 32), []) ∧
      ¬ ∃ free, (start (2 ^ 32)).Covers (2 ^ 32) free := by
  refine ⟨by decide, rfl, ?_⟩
  rintro ⟨free, hcovers⟩
  have hlast : 2 ^ 32 - 1 ∈ List.range (2 ^ 32) := List.mem_range.mpr (by decide)
  obtain ⟨idx, hidx, hvalue⟩ := List.mem_map.mp (hcovers.partition.mem_iff.mpr hlast)
  have hinvalid : idx = kPoolInvalid := UInt32.toNat_inj.mp hvalue
  rw [hinvalid] at hidx
  rcases List.mem_append.mp hidx with hfree | hthreads
  · exact hcovers.valid hfree
  · exact absurd hthreads List.not_mem_nil

end PoolThreads

end Orderbook
