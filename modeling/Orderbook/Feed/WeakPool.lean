/-
# The packet pool with the orders of its loads and exchanges

All loads of the head of the free list acquire, and its exchanges acquire and release. A load
may still read an old head, and a failed exchange too; an exchange that succeeds replaces the
last one. The link and the packet of a slot are plain memory.

One thread acquires, any number of threads release. After an exchange of its own the acquirer
has seen the whole list. What is stored later is pushed in front of what it has seen, by others
and one slot at a time, so that every head it can read is the first slot of an end piece of the
list, and how much is missing from the piece is a number of stores. Each store carries all that
was done to the slots of its piece by anyone but the acquirer.
-/

import Orderbook.Feed.PoolThreads
import Orderbook.Math.ReleaseAcquire

namespace Orderbook

open Orderbook.Math

universe u v w

variable {τ : Type u} {ι : Type v} {κ : Type w}

/-- The plain memory of a slot: the link of the free list, and the packet. -/
inductive SlotPart
  | link
  | packet
  deriving DecidableEq, Repr

/-- Which thread acquires from a pool, and where the pool is in memory. -/
structure PoolPlace (τ : Type u) (ι : Type v) (κ : Type w) where
  acquirer : τ
  freeHead : ι
  cell : SlotPart → UInt32 → κ
  cell_injective : ∀ part part' idx idx', cell part idx = cell part' idx' →
    part = part' ∧ idx = idx'

/-- The values that were stored to the head, by the number of the store, the links, and where
the threads stand. -/
structure WeakPool (τ : Type u) where
  heads : ℕ → UInt32
  nextFree : UInt32 → UInt32
  pc : τ → PoolPc

namespace WeakPool

/-- The constructor, and all threads between calls. -/
def create (numSlots : ℕ) : WeakPool τ where
  heads _ := (PacketPool.create numSlots).freeHead
  nextFree := (PacketPool.create numSlots).nextFree
  pc _ := .idle

variable [DecidableEq τ]

def setPc (pool : WeakPool τ) (thread : τ) (pc : PoolPc) : WeakPool τ :=
  { pool with pc := Function.update pool.pc thread pc }

@[simp]
theorem pc_setPc_self (pool : WeakPool τ) (thread : τ) (pc : PoolPc) :
    (pool.setPc thread pc).pc thread = pc :=
  Function.update_self ..

theorem pc_setPc_of_ne {thread other : τ} (hne : other ≠ thread) (pool : WeakPool τ)
    (pc : PoolPc) : (pool.setPc thread pc).pc other = pool.pc other :=
  Function.update_of_ne hne ..

/-- The test of the loop in `acquire`, on the head that was just loaded. -/
def testHead (pool : WeakPool τ) (thread : τ) (head : UInt32) : WeakPool τ × Option PoolEvent :=
  if head ≠ kPoolInvalid then (pool.setPc thread (.readNext head), none)
  else (pool.setPc thread .idle, some .exhausted)

variable [DecidableEq ι] [DecidableEq κ]

/-- One access of `acquire`. An age says how far a load looks back, also that of a failed
exchange. -/
def acquire (place : PoolPlace τ ι κ) (clocks : Clocks τ ι κ) (pool : WeakPool τ) (age : ℕ)
    (spurious : Bool) : Option (Clocks τ ι κ × WeakPool τ × Option PoolEvent) :=
  let load :=
    (clocks.load .acquire place.acquirer place.freeHead age,
      pool.testHead place.acquirer (pool.heads (clocks.pick place.acquirer place.freeHead age)))
  match pool.pc place.acquirer with
  | .idle => some load
  | .readNext head =>
      some (clocks.access place.acquirer (place.cell .link head) .read,
        pool.setPc place.acquirer (.pop head (pool.nextFree head)), none)
  | .pop head next =>
      if pool.heads (clocks.last place.freeHead) = head ∧ spurious = false then
        some (clocks.exchange place.acquirer place.freeHead,
          { pool.setPc place.acquirer .idle with
            heads := Function.update pool.heads (clocks.last place.freeHead + 1) next },
          some (.acquired head))
      else some load
  | _ => none

/-- One access of `release`. -/
def release (place : PoolPlace τ ι κ) (clocks : Clocks τ ι κ) (pool : WeakPool τ) (thread : τ)
    (idx : UInt32) (age : ℕ) (spurious : Bool) :
    Option (Clocks τ ι κ × WeakPool τ × Option PoolEvent) :=
  let load (idx : UInt32) :=
    (clocks.load .acquire thread place.freeHead age,
      pool.setPc thread (.writeNext idx (pool.heads (clocks.pick thread place.freeHead age))),
      none)
  match pool.pc thread with
  | .idle => some (load idx)
  | .writeNext idx head =>
      some (clocks.access thread (place.cell .link idx) .write,
        { pool.setPc thread (.push idx head) with
          nextFree := Function.update pool.nextFree idx head }, none)
  | .push idx head =>
      if pool.heads (clocks.last place.freeHead) = head ∧ spurious = false then
        some (clocks.exchange thread place.freeHead,
          { pool.setPc thread .idle with
            heads := Function.update pool.heads (clocks.last place.freeHead + 1) idx },
          some (.released idx))
      else some (load idx)
  | _ => none

/-- What an access of `acquire` can be. -/
inductive AcquireStep (place : PoolPlace τ ι κ) (clocks : Clocks τ ι κ) (pool : WeakPool τ) :
    Clocks τ ι κ → WeakPool τ → Option PoolEvent → Prop
  | load (age : ℕ) :
      AcquireStep place clocks pool (clocks.load .acquire place.acquirer place.freeHead age)
        (pool.testHead place.acquirer
          (pool.heads (clocks.pick place.acquirer place.freeHead age))).1
        (pool.testHead place.acquirer
          (pool.heads (clocks.pick place.acquirer place.freeHead age))).2
  | read (head : UInt32) (hpc : pool.pc place.acquirer = .readNext head) :
      AcquireStep place clocks pool
        (clocks.access place.acquirer (place.cell .link head) .read)
        (pool.setPc place.acquirer (.pop head (pool.nextFree head))) none
  | take (head after : UInt32) (hpc : pool.pc place.acquirer = .pop head after)
      (hhead : pool.heads (clocks.last place.freeHead) = head) :
      AcquireStep place clocks pool (clocks.exchange place.acquirer place.freeHead)
        { pool.setPc place.acquirer .idle with
          heads := Function.update pool.heads (clocks.last place.freeHead + 1) after }
        (some (.acquired head))

/-- What an access of `release` can be. -/
inductive ReleaseStep (place : PoolPlace τ ι κ) (clocks : Clocks τ ι κ) (pool : WeakPool τ)
    (thread : τ) (idx : UInt32) : Clocks τ ι κ → WeakPool τ → Option PoolEvent → Prop
  | load (age : ℕ) :
      ReleaseStep place clocks pool thread idx
        (clocks.load .acquire thread place.freeHead age)
        (pool.setPc thread
          (.writeNext idx (pool.heads (clocks.pick thread place.freeHead age)))) none
  | link (head : UInt32) (hpc : pool.pc thread = .writeNext idx head) :
      ReleaseStep place clocks pool thread idx
        (clocks.access thread (place.cell .link idx) .write)
        { pool.setPc thread (.push idx head) with
          nextFree := Function.update pool.nextFree idx head } none
  | give (head : UInt32) (hpc : pool.pc thread = .push idx head)
      (hhead : pool.heads (clocks.last place.freeHead) = head) :
      ReleaseStep place clocks pool thread idx (clocks.exchange thread place.freeHead)
        { pool.setPc thread .idle with
          heads := Function.update pool.heads (clocks.last place.freeHead + 1) idx }
        (some (.released idx))

section Steps

variable {place : PoolPlace τ ι κ} {clocks next : Clocks τ ι κ} {pool pool' : WeakPool τ}
  {event : Option PoolEvent} {age : ℕ} {spurious : Bool}

/-- An access that loads the last head goes as it does where nothing is known. -/
theorem acquire_forget (hsound : clocks.Sound) (spurious : Bool) :
    (pool.acquire place clocks.forget 0 spurious).map (Prod.map Clocks.forget id) =
      (pool.acquire place clocks 0 spurious).map (Prod.map Clocks.forget id) := by
  unfold acquire
  rw [clocks.pick_forget, hsound.pick_zero]
  cases pool.pc place.acquirer with
  | pop head next =>
      by_cases hhead : pool.heads (clocks.last place.freeHead) = head ∧ spurious = false
      · dsimp only
        rw [if_pos (clocks.last_forget.symm ▸ hhead), if_pos hhead]
        rfl
      · dsimp only
        rw [if_neg (clocks.last_forget.symm ▸ hhead), if_neg hhead]
        rfl
  | _ => rfl

theorem release_forget (hsound : clocks.Sound) (thread : τ) (idx : UInt32)
    (spurious : Bool) :
    (pool.release place clocks.forget thread idx 0 spurious).map (Prod.map Clocks.forget id) =
      (pool.release place clocks thread idx 0 spurious).map (Prod.map Clocks.forget id) := by
  unfold release
  rw [clocks.pick_forget, hsound.pick_zero]
  cases pool.pc thread with
  | push idx head =>
      by_cases hhead : pool.heads (clocks.last place.freeHead) = head ∧ spurious = false
      · dsimp only
        rw [if_pos (clocks.last_forget.symm ▸ hhead), if_pos hhead]
        rfl
      · dsimp only
        rw [if_neg (clocks.last_forget.symm ▸ hhead), if_neg hhead]
        rfl
  | _ => rfl

theorem acquireStep_of_acquire
    (hresult : pool.acquire place clocks age spurious = some (next, pool', event)) :
    AcquireStep place clocks pool next pool' event := by
  have hload : (clocks.load .acquire place.acquirer place.freeHead age,
      pool.testHead place.acquirer
        (pool.heads (clocks.pick place.acquirer place.freeHead age))) = (next, pool', event) →
        AcquireStep place clocks pool next pool' event := by
    intro hsame
    obtain ⟨rfl, htest⟩ := Prod.mk.inj hsame
    have hstep : AcquireStep place clocks pool _ _ _ := .load age
    rwa [htest] at hstep
  unfold acquire at hresult
  cases hpc : pool.pc place.acquirer with
  | idle =>
      rw [hpc] at hresult
      exact hload (Option.some.inj hresult)
  | readNext head =>
      rw [hpc] at hresult
      cases hresult
      exact .read head hpc
  | pop head after =>
      rw [hpc] at hresult
      dsimp only at hresult
      split at hresult
      case isTrue hhead =>
          cases hresult
          exact .take head after hpc hhead.1
      case isFalse => exact hload (Option.some.inj hresult)
  | writeNext idx head =>
      rw [hpc] at hresult
      cases hresult
  | push idx head =>
      rw [hpc] at hresult
      cases hresult

theorem releaseStep_of_release {thread : τ} {idx : UInt32}
    (hown : ∀ other ∈ (pool.pc thread).slot, other = idx)
    (hresult : pool.release place clocks thread idx age spurious = some (next, pool', event)) :
    ReleaseStep place clocks pool thread idx next pool' event := by
  unfold release at hresult
  cases hpc : pool.pc thread with
  | idle =>
      rw [hpc] at hresult
      cases hresult
      exact .load age
  | readNext head =>
      rw [hpc] at hresult
      cases hresult
  | pop head after =>
      rw [hpc] at hresult
      cases hresult
  | writeNext other head =>
      rw [hpc] at hresult hown
      obtain rfl := hown other List.mem_cons_self
      cases hresult
      exact .link head hpc
  | push other head =>
      rw [hpc] at hresult hown
      obtain rfl := hown other List.mem_cons_self
      dsimp only at hresult
      split at hresult
      case isTrue hhead =>
          cases hresult
          exact .give head hpc hhead.1
      case isFalse =>
          cases hresult
          exact .load age

/-- `acquire` goes on unless its thread is in the middle of `release`. -/
theorem acquire_ne_none (hslot : (pool.pc place.acquirer).slot = []) (age : ℕ)
    (spurious : Bool) : pool.acquire place clocks age spurious ≠ none := by
  unfold acquire
  cases hpc : pool.pc place.acquirer with
  | idle => exact Option.some_ne_none _
  | readNext head => exact Option.some_ne_none _
  | pop head after =>
      dsimp only
      split <;> exact Option.some_ne_none _
  | writeNext idx head =>
      rw [hpc] at hslot
      cases hslot
  | push idx head =>
      rw [hpc] at hslot
      cases hslot

/-- `release` goes on unless its thread is in the middle of `acquire`. -/
theorem release_ne_none {thread : τ} (hslot : pool.pc thread ≠ .idle → (pool.pc thread).slot ≠ [])
    (idx : UInt32) (age : ℕ) (spurious : Bool) :
    pool.release place clocks thread idx age spurious ≠ none := by
  unfold release
  cases hpc : pool.pc thread with
  | idle => exact Option.some_ne_none _
  | readNext head =>
      rw [hpc] at hslot
      exact (hslot PoolPc.noConfusion rfl).elim
  | pop head after =>
      rw [hpc] at hslot
      exact (hslot PoolPc.noConfusion rfl).elim
  | writeNext other head => exact Option.some_ne_none _
  | push other head =>
      dsimp only
      split <;> exact Option.some_ne_none _

end Steps

end WeakPool

section Known

variable (place : PoolPlace τ ι κ) (clocks : Clocks τ ι κ)

/-- All that happened to a slot is in the view. -/
def SlotKnown (view : View τ ι) (idx : UInt32) : Prop :=
  ∀ part, clocks.Covers view (place.cell part idx)

/-- All that happened to a slot is in the view, but for what the acquirer did. -/
def SlotKnownOthers (view : View τ ι) (idx : UInt32) : Prop :=
  ∀ part, clocks.CoversOthers place.acquirer view (place.cell part idx)

end Known

section Known

variable {place : PoolPlace τ ι κ} {clocks next : Clocks τ ι κ} {view view' : View τ ι}
  {idx : UInt32}

theorem SlotKnown.mono (hknown : SlotKnown place clocks view idx) (hle : view ≤ view') :
    SlotKnown place clocks view' idx :=
  fun part => (hknown part).mono hle

theorem SlotKnownOthers.mono (hknown : SlotKnownOthers place clocks view idx) (hle : view ≤ view') :
    SlotKnownOthers place clocks view' idx :=
  fun part => (hknown part).mono hle

theorem SlotKnown.others (hknown : SlotKnown place clocks view idx) :
    SlotKnownOthers place clocks view idx :=
  fun part => (hknown part).others place.acquirer

theorem SlotKnown.congr (hknown : SlotKnown place clocks view idx)
    (hsame : ∀ part, next.accessed (place.cell part idx) = clocks.accessed (place.cell part idx)) :
    SlotKnown place next view idx :=
  fun part => (hknown part).congr (hsame part)

theorem SlotKnownOthers.congr (hknown : SlotKnownOthers place clocks view idx)
    (hsame : ∀ part, next.accessed (place.cell part idx) = clocks.accessed (place.cell part idx)) :
    SlotKnownOthers place next view idx :=
  fun part => (hknown part).congr (hsame part)

/-- An access to other cells leaves what is known of a slot. -/
theorem SlotKnown.act [DecidableEq τ] [DecidableEq ι] [DecidableEq κ] {thread : τ}
    {locations : ι → Prop} {cells : κ → Prop} (hknown : SlotKnown place clocks view idx)
    (hact : Clocks.Act thread locations cells clocks next)
    (hcells : ∀ part, ¬ cells (place.cell part idx)) : SlotKnown place next view idx :=
  hknown.congr fun part => hact.accessed_eq (hcells part)

/-- Who knows all that was done to a slot goes on to know what it does to it itself. -/
theorem SlotKnown.own_act [DecidableEq τ] [DecidableEq ι] [DecidableEq κ] {thread : τ}
    {locations : ι → Prop} {cells : κ → Prop}
    (hknown : SlotKnown place clocks (clocks.view thread) idx)
    (hact : Clocks.Act thread locations cells clocks next) :
    SlotKnown place next (next.view thread) idx := by
  intro part
  cases hact with
  | relaxed location age =>
      exact ((hknown part).congr (by rw [Clocks.accessed_load])).mono
        ((clocks.evolves_load .relaxed thread location age).view thread)
  | acquire location age =>
      exact ((hknown part).congr (by rw [Clocks.accessed_load])).mono
        ((clocks.evolves_load .acquire thread location age).view thread)
  | store location =>
      exact ((hknown part).congr rfl).mono ((clocks.evolves_store thread location).view thread)
  | exchange location =>
      exact ((hknown part).congr rfl).mono
        ((clocks.evolves_exchange thread location).view thread)
  | access cell kind =>
      by_cases hcell : place.cell part idx = cell
      · have hpart := hknown part
        rw [hcell] at hpart ⊢
        exact hpart.access kind
      · exact ((hknown part).congr (Clocks.accessed_access_of_ne hcell clocks _ _)).mono
          ((clocks.evolves_access thread cell kind).view thread)

/-- The acquirer knows what it did itself. -/
theorem SlotKnownOthers.known
    (hknown : SlotKnownOthers place clocks (clocks.view place.acquirer) idx)
    (hsound : clocks.Sound) : SlotKnown place clocks (clocks.view place.acquirer) idx :=
  fun part => (hknown part).covers hsound

end Known

/-- What the acquirer in the middle of `acquire` knows. -/
def PoolPc.Looks (place : PoolPlace τ ι κ) (clocks : Clocks τ ι κ) (nextFree : UInt32 → UInt32)
    (free : List UInt32) : PoolPc → Prop
  | .readNext head =>
      head ∈ free ∧ SlotKnownOthers place clocks (clocks.view place.acquirer) head
  | .pop head next => head ∈ free ∧ nextFree head = next
  | _ => True

/-- The first slot of a list. -/
def firstSlot (slots : List UInt32) : UInt32 := slots.head?.getD kPoolInvalid

/-- The free list is `free`, and every head that the acquirer can still read is the first slot
of an end piece of it. -/
structure FreeStack (place : PoolPlace τ ι κ) (clocks : Clocks τ ι κ) (pool : WeakPool τ)
    (free : List UInt32) : Prop where
  sound : clocks.Sound
  path : Path pool.nextFree free kPoolInvalid
  valid : ∀ idx ∈ free, idx ≠ kPoolInvalid
  unseen : clocks.last place.freeHead ≤
    clocks.view place.acquirer (.stores place.freeHead) + free.length
  heads : ∀ e, clocks.view place.acquirer (.stores place.freeHead) ≤ e →
    e ≤ clocks.last place.freeHead →
      pool.heads e = firstSlot (free.drop (clocks.last place.freeHead - e))
  carried : ∀ e, clocks.view place.acquirer (.stores place.freeHead) ≤ e →
    e ≤ clocks.last place.freeHead →
      ∀ idx ∈ free.drop (clocks.last place.freeHead - e),
        SlotKnownOthers place clocks (clocks.attached place.freeHead e) idx
  looks : (pool.pc place.acquirer).Looks place clocks pool.nextFree free
  releases : ∀ thread, thread ≠ place.acquirer → (pool.pc thread).Releases
  linked : ∀ thread idx head, pool.pc thread = .push idx head → pool.nextFree idx = head

namespace FreeStack

variable {place : PoolPlace τ ι κ} {clocks next : Clocks τ ι κ} {pool : WeakPool τ}
  {free : List UInt32}

theorem initial (place : PoolPlace τ ι κ) {numSlots : ℕ} (hsome : 0 < numSlots)
    (hslots : numSlots < 2 ^ 32) :
    FreeStack place (Clocks.initial : Clocks τ ι κ) (.create numSlots)
      (PacketPool.indices numSlots) where
  sound := Clocks.sound_initial
  path := (PacketPool.freeList_create hsome hslots).path
  valid _ hidx := PacketPool.ne_kPoolInvalid_of_mem hslots hidx
  unseen := Nat.zero_le _
  heads e _ _ := by
    have hzero : (Clocks.initial : Clocks τ ι κ).last place.freeHead - e = 0 := Nat.zero_sub e
    rw [hzero]
    exact (PacketPool.freeList_create hsome hslots).head
  carried _ _ _ _ _ _ _ _ _ := Nat.zero_le _
  looks := trivial
  releases _ _ := trivial
  linked _ _ _ hpc := nomatch hpc

/-- What is done elsewhere leaves the free list alone. -/
theorem frame (hstack : FreeStack place clocks pool free) (hevolves : clocks.Evolves next)
    (hsound : next.Sound) (hlast : next.last place.freeHead = clocks.last place.freeHead)
    (hcells : ∀ view, ∀ idx ∈ free,
      SlotKnownOthers place clocks view idx → SlotKnownOthers place next view idx) :
    FreeStack place next pool free where
  sound := hsound
  path := hstack.path
  valid := hstack.valid
  unseen := by
    rw [hlast]
    exact hstack.unseen.trans (Nat.add_le_add_right (hevolves.view _ _) _)
  heads e hseen hle := by
    rw [hlast] at hle ⊢
    exact hstack.heads e ((hevolves.view _ _).trans hseen) hle
  carried e hseen hle idx hidx := by
    rw [hlast] at hle hidx
    rw [hevolves.attached _ _ hle]
    exact hcells _ idx (List.mem_of_mem_drop hidx)
      (hstack.carried e ((hevolves.view _ _).trans hseen) hle idx hidx)
  looks := by
    have hlooks := hstack.looks
    cases hpc : pool.pc place.acquirer with
    | readNext head =>
        rw [hpc] at hlooks
        exact ⟨hlooks.1, (hcells _ head hlooks.1 hlooks.2).mono (hevolves.view _)⟩
    | pop head after =>
        rw [hpc] at hlooks
        exact hlooks
    | _ => trivial
  releases := hstack.releases
  linked := hstack.linked

/-- Where a thread stands is its own matter. -/
theorem setPc [DecidableEq τ] (hstack : FreeStack place clocks pool free) {thread : τ}
    {pc : PoolPc} (hlooks : pc.Looks place clocks pool.nextFree free)
    (hreleases : thread ≠ place.acquirer → pc.Releases)
    (hlinked : ∀ idx head, pc = .push idx head → pool.nextFree idx = head) :
    FreeStack place clocks (pool.setPc thread pc) free := by
  refine { hstack with looks := ?_, releases := fun other hother => ?_, linked := ?_ }
  · unfold WeakPool.setPc
    dsimp only
    rw [Function.update_apply]
    split
    · exact hlooks
    · exact hstack.looks
  · unfold WeakPool.setPc
    dsimp only
    rw [Function.update_apply]
    split
    · rename_i hsame
      exact hreleases (hsame ▸ hother)
    · exact hstack.releases other hother
  · intro other idx head hpc
    unfold WeakPool.setPc at hpc
    dsimp only at hpc
    rw [Function.update_apply] at hpc
    split at hpc
    · exact hlinked idx head hpc
    · exact hstack.linked other idx head hpc

/-- The head that the last store made is the first slot. -/
theorem heads_last (hstack : FreeStack place clocks pool free) :
    pool.heads (clocks.last place.freeHead) = firstSlot free := by
  have hlast := hstack.heads _ (hstack.sound.seen_le _ _) (Nat.le_refl _)
  rwa [Nat.sub_self, List.drop_zero] at hlast

/-- What the last store carries. -/
theorem carried_last (hstack : FreeStack place clocks pool free) {idx : UInt32}
    (hidx : idx ∈ free) :
    SlotKnownOthers place clocks
      (clocks.attached place.freeHead (clocks.last place.freeHead)) idx := by
  refine hstack.carried _ (hstack.sound.seen_le _ _) (Nat.le_refl _) idx ?_
  rwa [Nat.sub_self, List.drop_zero]

theorem firstSlot_cases {slots : List UInt32} (hvalid : ∀ idx ∈ slots, idx ≠ kPoolInvalid) :
    slots = [] ∧ firstSlot slots = kPoolInvalid ∨
      ∃ rest, slots = firstSlot slots :: rest ∧ firstSlot slots ≠ kPoolInvalid := by
  cases slots with
  | nil => exact .inl ⟨rfl, rfl⟩
  | cons idx rest => exact .inr ⟨rest, rfl, hvalid idx List.mem_cons_self⟩

/-- A link is written that is not in the list and that no thread relies on. -/
theorem relink (hstack : FreeStack place clocks pool free) {idx : UInt32} (hfresh : idx ∉ free)
    (hothers : ∀ thread after, pool.pc thread ≠ .push idx after) (head : UInt32) :
    FreeStack place clocks
      { pool with nextFree := Function.update pool.nextFree idx head } free := by
  have hkept : ∀ other ∈ free, Function.update pool.nextFree idx head other =
      pool.nextFree other := by
    intro other hother
    have hne : other ≠ idx := fun hsame => hfresh (hsame ▸ hother)
    exact Function.update_of_ne hne ..
  refine
    { hstack with
      path := hstack.path.congr hkept
      looks := ?_
      linked := fun thread other after hpush => ?_ }
  · have hlooks := hstack.looks
    dsimp only
    cases hpc : pool.pc place.acquirer with
    | pop first after =>
        rw [hpc] at hlooks
        exact ⟨hlooks.1, (hkept first hlooks.1).trans hlooks.2⟩
    | readNext first =>
        rw [hpc] at hlooks
        exact hlooks
    | _ => trivial
  · have hne : other ≠ idx := by
      rintro rfl
      exact hothers thread after hpush
    dsimp only
    rw [Function.update_of_ne hne]
    exact hstack.linked thread other after hpush

variable [DecidableEq τ] [DecidableEq ι]

theorem load (hstack : FreeStack place clocks pool free) (order : LoadOrder) (thread : τ)
    (location : ι) (age : ℕ) :
    FreeStack place (clocks.load order thread location age) pool free :=
  hstack.frame (clocks.evolves_load order thread location age)
    (hstack.sound.load order thread location age) (by rw [Clocks.last_load])
    (fun _ _ _ hknown => hknown.congr fun _ => by rw [Clocks.accessed_load])

end FreeStack

/-! ## What an access does -/

/-- An access of `acquire` leaves the free list, or it answers. The acquirer finds the list
empty when all that is in it was pushed after the store that it read. -/
inductive AcquireMove (place : PoolPlace τ ι κ) (clocks : Clocks τ ι κ) (free : List UInt32)
    (next : Clocks τ ι κ) (pool : WeakPool τ) : Option PoolEvent → Prop
  | silent (last : next.last place.freeHead = clocks.last place.freeHead)
      (stack : FreeStack place next pool free) :
      AcquireMove place clocks free next pool none
  | exhausted (last : next.last place.freeHead = clocks.last place.freeHead)
      (read : ℕ) (seen : clocks.view place.acquirer (.stores place.freeHead) ≤ read)
      (missed : read + free.length = clocks.last place.freeHead)
      (idle : pool.pc place.acquirer = .idle) (stack : FreeStack place next pool free) :
      AcquireMove place clocks free next pool (some .exhausted)
  | acquired (idx : UInt32) (rest : List UInt32) (first : free = idx :: rest)
      (last : next.last place.freeHead = clocks.last place.freeHead + 1)
      (seen : clocks.last place.freeHead + 1 ≤ next.view place.acquirer (.stores place.freeHead))
      (known : SlotKnown place next (next.view place.acquirer) idx)
      (idle : pool.pc place.acquirer = .idle) (stack : FreeStack place next pool rest) :
      AcquireMove place clocks free next pool (some (.acquired idx))

/-- An access of `release` leaves the free list and the slot with its thread, or it answers. -/
inductive ReleaseMove (place : PoolPlace τ ι κ) (clocks : Clocks τ ι κ) (free : List UInt32)
    (thread : τ) (idx : UInt32) (next : Clocks τ ι κ) (pool : WeakPool τ) :
    Option PoolEvent → Prop
  | silent (last : next.last place.freeHead = clocks.last place.freeHead)
      (keeps : (pool.pc thread).slot = [idx]) (stack : FreeStack place next pool free) :
      ReleaseMove place clocks free thread idx next pool none
  | released (last : next.last place.freeHead = clocks.last place.freeHead + 1)
      (seen : clocks.last place.freeHead + 1 ≤ next.view thread (.stores place.freeHead))
      (idle : pool.pc thread = .idle) (stack : FreeStack place next pool (idx :: free)) :
      ReleaseMove place clocks free thread idx next pool (some (.released idx))

namespace FreeStack

variable {place : PoolPlace τ ι κ} {clocks : Clocks τ ι κ} {pool : WeakPool τ}
  {free : List UInt32} [DecidableEq τ] [DecidableEq ι]

/-- The acquirer loads the head and tests it. -/
theorem testHead (hstack : FreeStack place clocks pool free) (age : ℕ) :
    AcquireMove place clocks free (clocks.load .acquire place.acquirer place.freeHead age)
      (pool.testHead place.acquirer
        (pool.heads (clocks.pick place.acquirer place.freeHead age))).1
      (pool.testHead place.acquirer
        (pool.heads (clocks.pick place.acquirer place.freeHead age))).2 := by
  have hpick := hstack.sound.pick_le place.acquirer place.freeHead age
  have hseen := clocks.le_pick place.acquirer place.freeHead age
  have hloaded := hstack.load .acquire place.acquirer place.freeHead age
  have hread := hstack.heads _ hseen hpick
  have hunseen := hstack.unseen
  have hvalid : ∀ idx ∈ free.drop (clocks.last place.freeHead -
      clocks.pick place.acquirer place.freeHead age), idx ≠ kPoolInvalid :=
    fun idx hidx => hstack.valid idx (List.mem_of_mem_drop hidx)
  unfold WeakPool.testHead
  rw [hread]
  rcases firstSlot_cases hvalid with ⟨hnone, hinvalid⟩ | ⟨rest, hsome, hhead⟩
  · rw [if_neg (not_not.mpr hinvalid)]
    have hlength := List.drop_eq_nil_iff.mp hnone
    exact .exhausted (by rw [Clocks.last_load]) _ hseen (by omega)
      (WeakPool.pc_setPc_self pool place.acquirer .idle)
      (hloaded.setPc trivial (fun _ => trivial) (fun _ _ hpc => nomatch hpc))
  · rw [if_pos hhead]
    generalize hfirst : firstSlot (free.drop (clocks.last place.freeHead -
      clocks.pick place.acquirer place.freeHead age)) = head at hsome
    have hmem : head ∈ free.drop (clocks.last place.freeHead -
        clocks.pick place.acquirer place.freeHead age) := by
      rw [hsome]
      exact List.mem_cons_self
    have hknown := hstack.carried _ hseen hpick head hmem
    refine .silent (by rw [Clocks.last_load]) (hloaded.setPc ⟨List.mem_of_mem_drop hmem, ?_⟩
      (fun hne => (hne rfl).elim) (fun _ _ hpc => nomatch hpc))
    exact (hknown.mono (clocks.attached_le_view_load _ _ _)).congr
      (fun _ => by rw [Clocks.accessed_load])

/-- The acquirer takes the first slot. -/
theorem take (hstack : FreeStack place clocks pool free) {head after : UInt32}
    (hpc : pool.pc place.acquirer = .pop head after)
    (hhead : pool.heads (clocks.last place.freeHead) = head) :
    AcquireMove place clocks free (clocks.exchange place.acquirer place.freeHead)
      { pool.setPc place.acquirer .idle with
        heads := Function.update pool.heads (clocks.last place.freeHead + 1) after }
      (some (.acquired head)) := by
  have hlooks := hstack.looks
  rw [hpc] at hlooks
  obtain ⟨hmem, hafter⟩ := hlooks
  have hidle : FreeStack place clocks (pool.setPc place.acquirer .idle) free :=
    hstack.setPc trivial (fun _ => trivial) (fun _ _ hpush => nomatch hpush)
  have hlast := clocks.last_exchange_self place.acquirer place.freeHead
  have hcarried := hstack.sound.attached_le_view_exchange place.acquirer place.freeHead
  have hsound := hstack.sound.exchange place.acquirer place.freeHead
  have hown := clocks.seen_exchange_self place.acquirer place.freeHead
  rw [hstack.heads_last] at hhead
  obtain ⟨rest, rfl⟩ : ∃ rest, free = head :: rest := by
    rcases firstSlot_cases hstack.valid with ⟨hnone, _⟩ | ⟨rest, hfree, _⟩
    · rw [hnone] at hmem
      cases hmem
    · exact ⟨rest, hhead ▸ hfree⟩
  have honly : ∀ e, (clocks.exchange place.acquirer place.freeHead).view place.acquirer
      (.stores place.freeHead) ≤ e →
        e ≤ (clocks.exchange place.acquirer place.freeHead).last place.freeHead →
          e = clocks.last place.freeHead + 1 := by
    intro e hseen hle
    rw [hlast] at hle
    exact Nat.le_antisymm hle (hown.trans hseen)
  refine .acquired head rest rfl hlast hown ?_
    (WeakPool.pc_setPc_self pool place.acquirer .idle)
    { sound := hsound
      path := hstack.path.2
      valid := fun idx hidx => hstack.valid idx (List.mem_cons_of_mem _ hidx)
      unseen := by rw [hlast]; exact hown.trans (Nat.le_add_right _ _)
      heads := fun e hseen hle => ?_
      carried := fun e hseen hle idx hidx => ?_
      looks := by
        dsimp only
        rw [WeakPool.pc_setPc_self]
        trivial
      releases := hidle.releases
      linked := hidle.linked }
  · have hknown := (hstack.carried_last List.mem_cons_self).mono hcarried
    exact (hknown.congr fun _ => by rw [Clocks.accessed_exchange]).known hsound
  · rw [honly e hseen hle, hlast, Nat.sub_self, List.drop_zero]
    dsimp only
    rw [Function.update_self, ← hafter]
    exact hstack.path.1
  · rw [honly e hseen hle, hlast, Nat.sub_self, List.drop_zero] at hidx
    rw [honly e hseen hle, Clocks.attached_exchange_self]
    exact ((hstack.carried_last (List.mem_cons_of_mem _ hidx)).mono hcarried).congr
      fun _ => by rw [Clocks.accessed_exchange]

/-- A thread puts its slot in front. -/
theorem give (hstack : FreeStack place clocks pool free) {thread : τ} {idx head : UInt32}
    (hpc : pool.pc thread = .push idx head)
    (hhead : pool.heads (clocks.last place.freeHead) = head) (hvalid : idx ≠ kPoolInvalid)
    (hknown : SlotKnown place clocks (clocks.view thread) idx) :
    ReleaseMove place clocks free thread idx (clocks.exchange thread place.freeHead)
      { pool.setPc thread .idle with
        heads := Function.update pool.heads (clocks.last place.freeHead + 1) idx }
      (some (.released idx)) := by
  have hevolves := clocks.evolves_exchange thread place.freeHead
  have hlast := clocks.last_exchange_self thread place.freeHead
  have hcarried := hstack.sound.attached_le_view_exchange thread place.freeHead
  have hsame : ∀ cell, (clocks.exchange thread place.freeHead).accessed cell =
      clocks.accessed cell := fun _ => by rw [Clocks.accessed_exchange]
  have hold : ∀ e, e ≤ clocks.last place.freeHead →
      (idx :: free).drop ((clocks.exchange thread place.freeHead).last place.freeHead - e) =
        free.drop (clocks.last place.freeHead - e) := by
    intro e hle
    rw [hlast, Nat.succ_sub hle, List.drop_succ_cons]
  have hstack' : FreeStack place (clocks.exchange thread place.freeHead)
      { pool with heads := Function.update pool.heads (clocks.last place.freeHead + 1) idx }
      (idx :: free) := by
    refine
      { sound := hstack.sound.exchange thread place.freeHead
        path := ⟨?_, hstack.path⟩
        valid := List.forall_mem_cons.mpr ⟨hvalid, hstack.valid⟩
        unseen := ?_
        heads := fun e hseen hle => ?_
        carried := fun e hseen hle other hother => ?_
        looks := ?_
        releases := hstack.releases
        linked := hstack.linked }
    · rw [hstack.linked thread idx head hpc, ← hhead]
      exact hstack.heads_last
    · rw [hlast, List.length_cons]
      exact Nat.succ_le_succ (hstack.unseen.trans (Nat.add_le_add_right (hevolves.view _ _) _))
    · rcases Nat.lt_or_ge (clocks.last place.freeHead) e with hnew | hle'
      · obtain rfl : e = clocks.last place.freeHead + 1 :=
          Nat.le_antisymm (hle.trans (Nat.le_of_eq hlast)) hnew
        dsimp only
        rw [Function.update_self, hlast, Nat.sub_self]
        rfl
      · rw [hold e hle']
        dsimp only
        rw [Function.update_of_ne (Nat.ne_of_lt (Nat.lt_succ_of_le hle'))]
        exact hstack.heads e ((hevolves.view _ _).trans hseen) hle'
    · rcases Nat.lt_or_ge (clocks.last place.freeHead) e with hnew | hle'
      · obtain rfl : e = clocks.last place.freeHead + 1 :=
          Nat.le_antisymm (hle.trans (Nat.le_of_eq hlast)) hnew
        rw [hlast, Nat.sub_self, List.drop_zero] at hother
        rw [Clocks.attached_exchange_self]
        rcases List.mem_cons.mp hother with rfl | hother
        · exact ((hknown.mono (hevolves.view _)).congr fun _ => hsame _).others
        · exact ((hstack.carried_last hother).mono hcarried).congr fun _ => hsame _
      · rw [hold e hle'] at hother
        rw [hevolves.attached _ _ hle']
        exact (hstack.carried e ((hevolves.view _ _).trans hseen) hle' other hother).congr
          fun _ => hsame _
    · have hlooks := hstack.looks
      dsimp only
      cases hacquirer : pool.pc place.acquirer with
      | readNext head =>
          rw [hacquirer] at hlooks
          exact ⟨List.mem_cons_of_mem _ hlooks.1,
            (hlooks.2.congr fun _ => hsame _).mono (hevolves.view _)⟩
      | pop head after =>
          rw [hacquirer] at hlooks
          exact ⟨List.mem_cons_of_mem _ hlooks.1, hlooks.2⟩
      | _ => trivial
  exact .released hlast (clocks.seen_exchange_self thread place.freeHead)
    (WeakPool.pc_setPc_self pool thread .idle)
    (hstack'.setPc trivial (fun _ => trivial) (fun _ _ hpush => nomatch hpush))

/-- A thread loads the head before it links its slot to it. -/
theorem loadHead (hstack : FreeStack place clocks pool free) (thread : τ) (idx : UInt32)
    (age : ℕ) :
    ReleaseMove place clocks free thread idx
      (clocks.load .acquire thread place.freeHead age)
      (pool.setPc thread
        (.writeNext idx (pool.heads (clocks.pick thread place.freeHead age)))) none :=
  .silent (by rw [Clocks.last_load]) (by rw [WeakPool.pc_setPc_self]; rfl)
    ((hstack.load .acquire thread place.freeHead age).setPc trivial (fun _ => trivial)
      (fun _ _ hpush => nomatch hpush))

variable [DecidableEq κ]

/-- The acquirer reads the link of a slot that it found free. -/
theorem readLink (hstack : FreeStack place clocks pool free) {head : UInt32}
    (hpc : pool.pc place.acquirer = .readNext head) :
    FreeStack place (clocks.access place.acquirer (place.cell .link head) .read)
      (pool.setPc place.acquirer (.pop head (pool.nextFree head))) free := by
  have hlooks := hstack.looks
  rw [hpc] at hlooks
  have hevolves := clocks.evolves_access place.acquirer (place.cell .link head) .read
  have hothers : ∀ view idx, SlotKnownOthers place clocks view idx →
      SlotKnownOthers place (clocks.access place.acquirer (place.cell .link head) .read) view
        idx := by
    intro view idx hknown part
    by_cases hcell : place.cell part idx = place.cell .link head
    · have hpart := hknown part
      rw [hcell] at hpart ⊢
      exact hpart.access .read
    · exact (hknown part).congr (Clocks.accessed_access_of_ne hcell clocks _ _)
  exact (hstack.frame hevolves (hstack.sound.access _ _ _) rfl
    fun view idx _ => hothers view idx).setPc ⟨hlooks.1, rfl⟩ (fun hne => (hne rfl).elim)
    (fun _ _ hpush => nomatch hpush)

/-- A thread writes the link of its own slot. -/
theorem writeLink (hstack : FreeStack place clocks pool free) {thread : τ} {idx head : UInt32}
    (hpc : pool.pc thread = .writeNext idx head) (hfresh : idx ∉ free)
    (hothers : ∀ other, other ≠ thread → idx ∉ (pool.pc other).slot) :
    FreeStack place (clocks.access thread (place.cell .link idx) .write)
      { pool.setPc thread (.push idx head) with
        nextFree := Function.update pool.nextFree idx head } free := by
  have hframed :
      FreeStack place (clocks.access thread (place.cell .link idx) .write) pool free := by
    refine hstack.frame (clocks.evolves_access _ _ _) (hstack.sound.access _ _ _) rfl ?_
    intro view other hother hknown
    refine hknown.congr fun part => Clocks.accessed_access_of_ne ?_ clocks _ _
    intro hcell
    exact hfresh ((place.cell_injective _ _ _ _ hcell).2 ▸ hother)
  have hrelinked := hframed.relink hfresh (fun other after hpush => ?_) head
  · exact hrelinked.setPc trivial (fun _ => trivial)
      (fun other after hpush => by
        cases hpush
        exact Function.update_self ..)
  · by_cases hself : other = thread
    · rw [hself, hpc] at hpush
      cases hpush
    · refine hothers other hself ?_
      rw [hpush]
      exact List.mem_cons_self

variable {next : Clocks τ ι κ} {pool' : WeakPool τ} {event : Option PoolEvent}

/-- What an access of `acquire` does. -/
theorem acquire (hstack : FreeStack place clocks pool free)
    (hstep : WeakPool.AcquireStep place clocks pool next pool' event) :
    AcquireMove place clocks free next pool' event := by
  cases hstep with
  | load age => exact hstack.testHead age
  | read head hpc => exact .silent rfl (hstack.readLink hpc)
  | take head after hpc hhead => exact hstack.take hpc hhead

/-- What an access of `release` does with a slot that the thread owns. -/
theorem release (hstack : FreeStack place clocks pool free) {thread : τ} {idx : UInt32}
    (hvalid : idx ≠ kPoolInvalid) (hfresh : idx ∉ free)
    (hknown : SlotKnown place clocks (clocks.view thread) idx)
    (hothers : ∀ other, other ≠ thread → idx ∉ (pool.pc other).slot)
    (hstep : WeakPool.ReleaseStep place clocks pool thread idx next pool' event) :
    ReleaseMove place clocks free thread idx next pool' event := by
  cases hstep with
  | load age => exact hstack.loadHead thread idx age
  | link head hpc =>
      refine .silent rfl ?_ (hstack.writeLink hpc hfresh hothers)
      dsimp only
      rw [WeakPool.pc_setPc_self]
      rfl
  | give head hpc hhead => exact hstack.give hpc hhead hvalid hknown

end FreeStack

namespace WeakPool

variable {place : PoolPlace τ ι κ} {clocks next : Clocks τ ι κ} {pool pool' : WeakPool τ}
  {event : Option PoolEvent} [DecidableEq τ] [DecidableEq ι] [DecidableEq κ]

/-- `acquire` uses the head and the link of a slot that it has read there. -/
theorem AcquireStep.act (hstep : AcquireStep place clocks pool next pool' event) :
    Clocks.Act place.acquirer (· = place.freeHead)
      (fun cell => ∃ idx, pool.pc place.acquirer = .readNext idx ∧ cell = place.cell .link idx)
      clocks next := by
  cases hstep with
  | load age => exact .acquire place.freeHead age
  | read head hpc => exact .access _ .read ⟨head, hpc, rfl⟩
  | take head after hpc hhead => exact .exchange _ rfl

/-- `release` uses the head and the link of the slot. -/
theorem ReleaseStep.act {thread : τ} {idx : UInt32}
    (hstep : ReleaseStep place clocks pool thread idx next pool' event) :
    Clocks.Act thread (· = place.freeHead) (· = place.cell .link idx) clocks next := by
  cases hstep with
  | load age => exact .acquire place.freeHead age
  | link head hpc => exact .access _ .write rfl
  | give head hpc hhead => exact .exchange _ rfl

/-- The acquirer gives nothing back while it acquires. -/
theorem AcquireStep.slot_eq_nil (hstep : AcquireStep place clocks pool next pool' event) :
    (pool'.pc place.acquirer).slot = [] := by
  cases hstep with
  | load age =>
      unfold testHead
      split <;> rw [pc_setPc_self] <;> rfl
  | read head hpc =>
      rw [pc_setPc_self]
      rfl
  | take head after hpc hhead =>
      dsimp only
      rw [pc_setPc_self]
      rfl

theorem AcquireStep.pc_of_ne (hstep : AcquireStep place clocks pool next pool' event) {other : τ}
    (hne : other ≠ place.acquirer) : pool'.pc other = pool.pc other := by
  cases hstep with
  | load age =>
      unfold testHead
      split
      · exact pc_setPc_of_ne hne pool _
      · exact pc_setPc_of_ne hne pool _
  | read head hpc => exact pc_setPc_of_ne hne pool _
  | take head after hpc hhead => exact pc_setPc_of_ne hne pool _

theorem ReleaseStep.pc_of_ne {thread other : τ} {idx : UInt32}
    (hstep : ReleaseStep place clocks pool thread idx next pool' event)
    (hne : other ≠ thread) : pool'.pc other = pool.pc other := by
  cases hstep with
  | load age => exact pc_setPc_of_ne hne pool _
  | link head hpc => exact pc_setPc_of_ne hne pool _
  | give head hpc hhead => exact pc_setPc_of_ne hne pool _

end WeakPool

end Orderbook
