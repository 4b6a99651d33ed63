/-
# The ring with the orders of its loads and stores

The ring names an order for each of its atomic accesses. An end loads its own index relaxed
and the index of the other end with acquire, and it stores its own with release. No load has
to see the last store then. What a thread reads of the other end may be long out of date, and
the cells of the buffer are plain memory, on which an access that races has no meaning.

Both are settled by what the stores carry. A value is covered by the store of the tail that
published it, and a free cell by the store of the head that returned it, so an end that may
go on by the index it has read also knows all that was done to the cell it goes on to. An old
index only makes a call fail that could have succeeded.

The ring stands in a memory with other locations, cells and threads; `RingPlace` says where.
-/

import Orderbook.Feed.SpscRing
import Orderbook.Math.ReleaseAcquire

namespace Orderbook

open Orderbook.Math

universe u v w

variable {τ : Type u} {ι : Type v} {κ : Type w} {α : Type}

/-- Which threads are at the ends of a ring, and where its indices and cells are. -/
structure RingPlace (τ : Type u) (ι : Type v) (κ : Type w) where
  producer : τ
  consumer : τ
  head : ι
  tail : ι
  cell : ℕ → κ
  threads_ne : producer ≠ consumer
  locations_ne : head ≠ tail
  cell_injective : Function.Injective cell

/-- The values that were stored to the two indices, by the number of the store, the buffer,
and where the threads stand. -/
structure WeakRing (α : Type) where
  mask : ℕ
  heads : ℕ → ℕ
  tails : ℕ → ℕ
  buffer : ℕ → α
  pusher : Pusher α := .idle
  popper : Popper α := .idle

def WeakRing.initial [Inhabited α] (capacity : ℕ) : WeakRing α where
  mask := capacity - 1
  heads _ := 0
  tails _ := 0
  buffer _ := default

namespace WeakRing

/-- The next access of each end does not race. -/
structure RaceFree (place : RingPlace τ ι κ) (clocks : Clocks τ ι κ) (ring : WeakRing α) :
    Prop where
  pusher : ∀ value t next, ring.pusher = .write value t next →
    clocks.Safe place.producer (place.cell t) .write
  popper : ∀ h, ring.popper = .read h → clocks.Safe place.consumer (place.cell h) .read

variable [DecidableEq τ] [DecidableEq ι] [DecidableEq κ]

/-- One access of `push`. An age says how far a load looks back. -/
def push (place : RingPlace τ ι κ) (clocks : Clocks τ ι κ) (ring : WeakRing α) (value : α)
    (age : ℕ) : Clocks τ ι κ × WeakRing α × Option (QueueEvent α) :=
  match ring.pusher with
  | .idle =>
      let t := ring.tails (clocks.pick place.producer place.tail age)
      (clocks.load .relaxed place.producer place.tail age,
        { ring with pusher := .loadHead value t }, none)
  | .loadHead value t =>
      let next := (t + 1) &&& ring.mask
      let clocks' := clocks.load .acquire place.producer place.head age
      if next = ring.heads (clocks.pick place.producer place.head age) then
        (clocks', { ring with pusher := .idle }, some (.refused value))
      else (clocks', { ring with pusher := .write value t next }, none)
  | .write value t next =>
      (clocks.access place.producer (place.cell t) .write,
        { ring with
          buffer := Function.update ring.buffer t value
          pusher := .storeTail value next }, none)
  | .storeTail value next =>
      (clocks.store place.producer place.tail,
        { ring with
          tails := Function.update ring.tails (clocks.last place.tail + 1) next
          pusher := .idle }, some (.pushed value))

/-- One access of `pop`. -/
def pop (place : RingPlace τ ι κ) (clocks : Clocks τ ι κ) (ring : WeakRing α) (age : ℕ) :
    Clocks τ ι κ × WeakRing α × Option (QueueEvent α) :=
  match ring.popper with
  | .idle =>
      let h := ring.heads (clocks.pick place.consumer place.head age)
      (clocks.load .relaxed place.consumer place.head age,
        { ring with popper := .loadTail h }, none)
  | .loadTail h =>
      let clocks' := clocks.load .acquire place.consumer place.tail age
      if h = ring.tails (clocks.pick place.consumer place.tail age) then
        (clocks', { ring with popper := .idle }, some .empty)
      else (clocks', { ring with popper := .read h }, none)
  | .read h =>
      (clocks.access place.consumer (place.cell h) .read,
        { ring with popper := .storeHead h (ring.buffer h) }, none)
  | .storeHead h out =>
      (clocks.store place.consumer place.head,
        { ring with
          heads := Function.update ring.heads (clocks.last place.head + 1)
            ((h + 1) &&& ring.mask)
          popper := .idle }, some (.popped out))

/-- A push that loads what was stored last goes as it does where nothing is known. -/
theorem push_forget {place : RingPlace τ ι κ} {clocks : Clocks τ ι κ} {ring : WeakRing α}
    (hsound : clocks.Sound) (value : α) :
    Prod.map Clocks.forget id (ring.push place clocks.forget value 0) =
      Prod.map Clocks.forget id (ring.push place clocks value 0) := by
  unfold push
  rw [clocks.pick_forget, clocks.pick_forget, hsound.pick_zero, hsound.pick_zero]
  cases ring.pusher with
  | loadHead value t =>
      dsimp only
      split <;> rfl
  | _ => rfl

theorem pop_forget {place : RingPlace τ ι κ} {clocks : Clocks τ ι κ} {ring : WeakRing α}
    (hsound : clocks.Sound) :
    Prod.map Clocks.forget id (ring.pop place clocks.forget 0) =
      Prod.map Clocks.forget id (ring.pop place clocks 0) := by
  unfold pop
  rw [clocks.pick_forget, clocks.pick_forget, hsound.pick_zero, hsound.pick_zero]
  cases ring.popper with
  | loadTail h =>
      dsimp only
      split <;> rfl
  | _ => rfl

end WeakRing

namespace RingPlace

variable {place : RingPlace τ ι κ} {bits : ℕ} {clocks next : Clocks τ ι κ}

/-- The stores to the two indices, which carry more and more, and how far the ends are behind
each other. -/
structure Ends (place : RingPlace τ ι κ) (bits : ℕ) (clocks : Clocks τ ι κ) : Prop where
  head_le : clocks.last place.head ≤ clocks.last place.tail
  room : clocks.last place.tail < clocks.last place.head + 2 ^ bits
  tails_ordered : clocks.Ordered place.tail
  heads_ordered : clocks.Ordered place.head
  tails_known : clocks.attached place.tail (clocks.last place.tail) ≤ clocks.view place.producer
  heads_known : clocks.attached place.head (clocks.last place.head) ≤ clocks.view place.consumer
  own_tail : clocks.last place.tail ≤ clocks.view place.producer (.stores place.tail)
  own_head : clocks.last place.head ≤ clocks.view place.consumer (.stores place.head)
  seen_head : clocks.last place.tail + 1 ≤
    clocks.view place.producer (.stores place.head) + 2 ^ bits
  seen_tail : clocks.last place.head ≤ clocks.view place.consumer (.stores place.tail)

theorem ends_initial (place : RingPlace τ ι κ) (bits : ℕ) :
    place.Ends bits (Clocks.initial : Clocks τ ι κ) where
  head_le := Nat.le_refl 0
  room := Nat.lt_of_lt_of_eq (Nat.two_pow_pos bits) (Nat.zero_add _).symm
  tails_ordered _ _ _ _ := le_rfl
  heads_ordered _ _ _ _ := le_rfl
  tails_known := le_rfl
  heads_known := le_rfl
  own_tail := Nat.le_refl 0
  own_head := Nat.le_refl 0
  seen_head := Nat.add_le_add_left Nat.one_le_two_pow 0
  seen_tail := Nat.le_refl 0

/-- The ends stay as they are when neither index is stored to. -/
theorem Ends.evolve (hends : place.Ends bits clocks) (hevolves : clocks.Evolves next)
    (hhead : next.last place.head = clocks.last place.head)
    (htail : next.last place.tail = clocks.last place.tail) : place.Ends bits next where
  head_le := by rw [hhead, htail]; exact hends.head_le
  room := by rw [hhead, htail]; exact hends.room
  tails_ordered := hends.tails_ordered.evolve hevolves htail
  heads_ordered := hends.heads_ordered.evolve hevolves hhead
  tails_known := by
    rw [htail, hevolves.attached _ _ (Nat.le_refl _)]
    exact hends.tails_known.trans (hevolves.view _)
  heads_known := by
    rw [hhead, hevolves.attached _ _ (Nat.le_refl _)]
    exact hends.heads_known.trans (hevolves.view _)
  own_tail := by rw [htail]; exact hends.own_tail.trans (hevolves.view _ _)
  own_head := by rw [hhead]; exact hends.own_head.trans (hevolves.view _ _)
  seen_head := by
    rw [htail]
    exact hends.seen_head.trans (Nat.add_le_add_right (hevolves.view _ _) _)
  seen_tail := by rw [hhead]; exact hends.seen_tail.trans (hevolves.view _ _)

variable [DecidableEq τ] [DecidableEq ι]

theorem Ends.storeTail (hends : place.Ends bits clocks)
    (hroom : clocks.last place.tail + 1 < clocks.last place.head + 2 ^ bits)
    (hseen : clocks.last place.tail + 2 ≤
      clocks.view place.producer (.stores place.head) + 2 ^ bits) :
    place.Ends bits (clocks.store place.producer place.tail) := by
  have hview := clocks.view_le_view_store place.producer place.tail
  have hhead := Clocks.last_store_of_ne place.locations_ne clocks place.producer
  have hattached := Clocks.attached_store_of_ne place.locations_ne clocks place.producer
  constructor
  · rw [hhead, Clocks.last_store_self]
    exact hends.head_le.trans (Nat.le_succ _)
  · rw [hhead, Clocks.last_store_self]
    exact hroom
  · exact hends.tails_ordered.store hends.tails_known
  · exact hends.heads_ordered.evolve (clocks.evolves_store _ _) hhead
  · rw [Clocks.last_store_self, Clocks.attached_store_self]
  · rw [hhead, hattached]
    exact hends.heads_known.trans (hview _)
  · rw [Clocks.last_store_self]
    exact clocks.seen_store_self place.producer place.tail
  · rw [hhead]
    exact hends.own_head.trans (hview _ _)
  · rw [Clocks.last_store_self]
    exact hseen.trans (Nat.add_le_add_right (hview _ _) _)
  · rw [hhead]
    exact hends.seen_tail.trans (hview _ _)

theorem Ends.storeHead (hends : place.Ends bits clocks)
    (hseen : clocks.last place.head + 1 ≤ clocks.view place.consumer (.stores place.tail))
    (hsome : clocks.last place.head < clocks.last place.tail) :
    place.Ends bits (clocks.store place.consumer place.head) := by
  have hview := clocks.view_le_view_store place.consumer place.head
  have htail := Clocks.last_store_of_ne place.locations_ne.symm clocks place.consumer
  have hattached := Clocks.attached_store_of_ne place.locations_ne.symm clocks place.consumer
  constructor
  · rw [htail, Clocks.last_store_self]
    exact hsome
  · rw [htail, Clocks.last_store_self]
    have hroom := hends.room
    omega
  · exact hends.tails_ordered.evolve (clocks.evolves_store _ _) htail
  · exact hends.heads_ordered.store hends.heads_known
  · rw [htail, hattached]
    exact hends.tails_known.trans (hview _)
  · rw [Clocks.last_store_self, Clocks.attached_store_self]
  · rw [htail]
    exact hends.own_tail.trans (hview _ _)
  · rw [Clocks.last_store_self]
    exact clocks.seen_store_self place.consumer place.head
  · rw [htail]
    exact hends.seen_head.trans (Nat.add_le_add_right (hview _ _) _)
  · rw [Clocks.last_store_self]
    exact hseen.trans (hview _ _)

end RingPlace

/-- A cell that the producer has written and not yet published. -/
def Pusher.held : Pusher α → ℕ
  | .storeTail _ _ => 1
  | _ => 0

/-- A cell that the consumer has read and not yet returned. -/
def Popper.held : Popper α → ℕ
  | .storeHead _ _ => 1
  | _ => 0

/-- What a producer in the middle of a push knows. -/
def Pusher.Sees (place : RingPlace τ ι κ) (bits : ℕ) (clocks : Clocks τ ι κ)
    (buffer : ℕ → α) : Pusher α → Prop
  | .idle => True
  | .loadHead _ t => t = clocks.last place.tail % 2 ^ bits
  | .write _ t next =>
      t = clocks.last place.tail % 2 ^ bits ∧
        next = (clocks.last place.tail + 1) % 2 ^ bits ∧
        ∃ j, j ≤ clocks.last place.head ∧ clocks.last place.tail + 1 < j + 2 ^ bits ∧
          j ≤ clocks.view place.producer (.stores place.head) ∧
          clocks.attached place.head j ≤ clocks.view place.producer
  | .storeTail value next =>
      buffer (clocks.last place.tail % 2 ^ bits) = value ∧
        next = (clocks.last place.tail + 1) % 2 ^ bits ∧
        clocks.last place.tail + 1 < clocks.last place.head + 2 ^ bits ∧
        clocks.last place.tail + 2 ≤
          clocks.view place.producer (.stores place.head) + 2 ^ bits ∧
        clocks.Covers (clocks.view place.producer)
          (place.cell (clocks.last place.tail % 2 ^ bits))

/-- What a consumer in the middle of a pop knows. -/
def Popper.Sees (place : RingPlace τ ι κ) (bits : ℕ) (clocks : Clocks τ ι κ)
    (entered : List α) : Popper α → Prop
  | .idle => True
  | .loadTail h => h = clocks.last place.head % 2 ^ bits
  | .read h =>
      h = clocks.last place.head % 2 ^ bits ∧
        ∃ i, i ≤ clocks.last place.tail ∧ clocks.last place.head < i ∧
          i ≤ clocks.view place.consumer (.stores place.tail) ∧
          clocks.attached place.tail i ≤ clocks.view place.consumer
  | .storeHead h out =>
      h = clocks.last place.head % 2 ^ bits ∧ entered[clocks.last place.head]? = some out ∧
        clocks.last place.head + 1 ≤ clocks.view place.consumer (.stores place.tail) ∧
        clocks.attached place.tail (clocks.last place.head + 1) ≤ clocks.view place.consumer ∧
        clocks.Covers (clocks.view place.consumer)
          (place.cell (clocks.last place.head % 2 ^ bits))

/-- The ring carries `entered`: the values that were pushed are in their cells until they are
popped, and each cell is covered by the store that left it to the other end. -/
structure Channel (place : RingPlace τ ι κ) (bits : ℕ) (clocks : Clocks τ ι κ)
    (ring : WeakRing α) (entered : List α) : Prop where
  sound : clocks.Sound
  ends : place.Ends bits clocks
  mask : ring.mask = 2 ^ bits - 1
  count : entered.length = clocks.last place.tail
  tails : ∀ i, i ≤ clocks.last place.tail → ring.tails i = i % 2 ^ bits
  heads : ∀ j, j ≤ clocks.last place.head → ring.heads j = j % 2 ^ bits
  values : ∀ m value, clocks.last place.head ≤ m → entered[m]? = some value →
    ring.buffer (m % 2 ^ bits) = value
  published : ∀ m, clocks.last place.head + ring.popper.held ≤ m → m < clocks.last place.tail →
    clocks.Covers (clocks.attached place.tail (m + 1)) (place.cell (m % 2 ^ bits))
  returned : ∀ m, clocks.last place.tail + ring.pusher.held ≤ m →
    m < clocks.last place.head + 2 ^ bits →
      clocks.Covers (clocks.attached place.head (m + 1 - 2 ^ bits)) (place.cell (m % 2 ^ bits))
  pusher : ring.pusher.Sees place bits clocks ring.buffer
  popper : ring.popper.Sees place bits clocks entered

namespace Channel

variable {place : RingPlace τ ι κ} {bits : ℕ} {clocks next : Clocks τ ι κ} {ring : WeakRing α}
  {entered : List α}

theorem initial [Inhabited α] (place : RingPlace τ ι κ) (bits : ℕ) :
    Channel place bits (Clocks.initial : Clocks τ ι κ) (.initial (2 ^ bits) : WeakRing α) [] where
  sound := Clocks.sound_initial
  ends := place.ends_initial bits
  mask := rfl
  count := rfl
  tails i hi := by
    rw [Nat.le_zero.mp hi, Nat.zero_mod]
    rfl
  heads j hj := by
    rw [Nat.le_zero.mp hj, Nat.zero_mod]
    rfl
  values _ _ _ hnone := nomatch hnone
  published _ _ _ := Clocks.covers_initial _ _
  returned _ _ _ := Clocks.covers_initial _ _
  pusher := trivial
  popper := trivial

theorem lt_of_getElem? (hchannel : Channel place bits clocks ring entered) {m : ℕ} {value : α}
    (hsome : entered[m]? = some value) : m < clocks.last place.tail := by
  rw [← hchannel.count]
  exact (List.getElem?_eq_some_iff.mp hsome).1

/-- What is done elsewhere leaves the ring alone. -/
theorem frame (hchannel : Channel place bits clocks ring entered) (hevolves : clocks.Evolves next)
    (hsound : next.Sound) (hhead : next.last place.head = clocks.last place.head)
    (htail : next.last place.tail = clocks.last place.tail)
    (hcells : ∀ i, next.accessed (place.cell i) = clocks.accessed (place.cell i)) :
    Channel place bits next ring entered where
  sound := hsound
  ends := hchannel.ends.evolve hevolves hhead htail
  mask := hchannel.mask
  count := by rw [htail]; exact hchannel.count
  tails := by rw [htail]; exact hchannel.tails
  heads := by rw [hhead]; exact hchannel.heads
  values := by rw [hhead]; exact hchannel.values
  published m hm hless := by
    rw [hhead] at hm
    rw [htail] at hless
    rw [hevolves.attached _ _ hless]
    exact (hchannel.published m hm hless).congr (hcells _)
  returned m hm hless := by
    rw [htail] at hm
    rw [hhead] at hless
    rw [hevolves.attached _ _ (by omega)]
    exact (hchannel.returned m hm hless).congr (hcells _)
  pusher := by
    have hsees := hchannel.pusher
    cases hpusher : ring.pusher with
    | idle => trivial
    | loadHead value t =>
        rw [hpusher] at hsees
        rw [Pusher.Sees, htail]
        exact hsees
    | write value t after =>
        rw [hpusher] at hsees
        obtain ⟨ht, hafter, j, hj, hroom, hseen, hknown⟩ := hsees
        rw [Pusher.Sees, htail, hhead]
        refine ⟨ht, hafter, j, hj, hroom, hseen.trans (hevolves.view _ _), ?_⟩
        rw [hevolves.attached _ _ hj]
        exact hknown.trans (hevolves.view _)
    | storeTail value after =>
        rw [hpusher] at hsees
        obtain ⟨hvalue, hafter, hroom, hseen, hcovers⟩ := hsees
        rw [Pusher.Sees, htail, hhead]
        exact ⟨hvalue, hafter, hroom, hseen.trans (Nat.add_le_add_right (hevolves.view _ _) _),
          (hcovers.congr (hcells _)).mono (hevolves.view _)⟩
  popper := by
    have hsees := hchannel.popper
    cases hpopper : ring.popper with
    | idle => trivial
    | loadTail h =>
        rw [hpopper] at hsees
        rw [Popper.Sees, hhead]
        exact hsees
    | read h =>
        rw [hpopper] at hsees
        obtain ⟨hh, i, hi, hless, hseen, hknown⟩ := hsees
        rw [Popper.Sees, htail, hhead]
        refine ⟨hh, i, hi, hless, hseen.trans (hevolves.view _ _), ?_⟩
        rw [hevolves.attached _ _ hi]
        exact hknown.trans (hevolves.view _)
    | storeHead h out =>
        rw [hpopper] at hsees
        obtain ⟨hh, hout, hseen, hknown, hcovers⟩ := hsees
        have hless := hchannel.lt_of_getElem? hout
        rw [Popper.Sees, hhead, hevolves.attached _ _ hless]
        exact ⟨hh, hout, hseen.trans (hevolves.view _ _), hknown.trans (hevolves.view _),
          (hcovers.congr (hcells _)).mono (hevolves.view _)⟩

/-- Cells less than one round apart are different. -/
theorem cell_ne {first second : ℕ} (hless : first < second) (hnear : second < first + 2 ^ bits) :
    place.cell (first % 2 ^ bits) ≠ place.cell (second % 2 ^ bits) :=
  fun heq => mod_ne_mod_of_lt hless hnear (place.cell_injective heq)

theorem pick_tail (hchannel : Channel place bits clocks ring entered) (age : ℕ) :
    clocks.pick place.producer place.tail age = clocks.last place.tail :=
  Nat.le_antisymm (hchannel.sound.pick_le _ _ _)
    (hchannel.ends.own_tail.trans (clocks.le_pick _ _ _))

/-- The index that the producer reads is that of the place behind the tail only if no cell is
free as far as it can see. -/
theorem next_eq_iff (hchannel : Channel place bits clocks ring entered) (age : ℕ) :
    (clocks.last place.tail % 2 ^ bits + 1) &&& ring.mask =
        ring.heads (clocks.pick place.producer place.head age) ↔
      clocks.last place.tail + 1 =
        clocks.pick place.producer place.head age + 2 ^ bits := by
  have hpick := hchannel.sound.pick_le place.producer place.head age
  have hseen := clocks.le_pick place.producer place.head age
  have hbehind := hchannel.ends.seen_head
  have hhead := hchannel.ends.head_le
  rw [hchannel.mask, mod_succ_and_mask, hchannel.heads _ hpick]
  constructor
  · intro hsame
    by_contra hne
    exact mod_ne_mod_of_lt (by omega) (by omega) hsame.symm
  · intro hround
    rw [hround, Nat.add_mod_right]

/-- A producer that may write knows all that was done to the cell. -/
theorem covers_write (hchannel : Channel place bits clocks ring entered) {value : α}
    {t after : ℕ} (hpusher : ring.pusher = .write value t after) :
    clocks.Covers (clocks.view place.producer) (place.cell t) := by
  have hsees := hchannel.pusher
  rw [hpusher] at hsees
  obtain ⟨rfl, _, j, hj, hroom, _, hknown⟩ := hsees
  have hfree := hchannel.returned (clocks.last place.tail)
    (by rw [hpusher]; exact Nat.le_refl _) hchannel.ends.room
  exact hfree.mono ((hchannel.ends.heads_ordered _ j (by omega) hj).trans hknown)

theorem pick_head (hchannel : Channel place bits clocks ring entered) (age : ℕ) :
    clocks.pick place.consumer place.head age = clocks.last place.head :=
  Nat.le_antisymm (hchannel.sound.pick_le _ _ _)
    (hchannel.ends.own_head.trans (clocks.le_pick _ _ _))

/-- The index that the consumer reads is its own only if nothing is held as far as it can
see. -/
theorem head_eq_iff (hchannel : Channel place bits clocks ring entered) (age : ℕ) :
    clocks.last place.head % 2 ^ bits =
        ring.tails (clocks.pick place.consumer place.tail age) ↔
      clocks.last place.head = clocks.pick place.consumer place.tail age := by
  have hpick := hchannel.sound.pick_le place.consumer place.tail age
  have hseen := clocks.le_pick place.consumer place.tail age
  have hbehind := hchannel.ends.seen_tail
  have hroom := hchannel.ends.room
  rw [hchannel.tails _ hpick]
  constructor
  · intro hsame
    by_contra hne
    exact mod_ne_mod_of_lt (by omega) (by omega) hsame
  · intro hsame
    rw [← hsame]

/-- A consumer that may read knows all that was published up to its value. -/
theorem attached_le_of_read (hchannel : Channel place bits clocks ring entered) {h : ℕ}
    (hpopper : ring.popper = .read h) :
    clocks.last place.head < clocks.last place.tail ∧
      clocks.attached place.tail (clocks.last place.head + 1) ≤ clocks.view place.consumer := by
  have hsees := hchannel.popper
  rw [hpopper] at hsees
  obtain ⟨_, i, hi, hless, _, hknown⟩ := hsees
  exact ⟨by omega, (hchannel.ends.tails_ordered _ i hless hi).trans hknown⟩

/-- A consumer that may read knows all that was done to the cell. -/
theorem covers_read (hchannel : Channel place bits clocks ring entered) {h : ℕ}
    (hpopper : ring.popper = .read h) :
    clocks.Covers (clocks.view place.consumer) (place.cell h) := by
  obtain ⟨hless, hknown⟩ := hchannel.attached_le_of_read hpopper
  have hheld := hchannel.published (clocks.last place.head)
    (by rw [hpopper]; exact Nat.le_refl _) hless
  have hsees := hchannel.popper
  rw [hpopper] at hsees
  rw [hsees.1]
  exact hheld.mono hknown

/-- What the consumer reads is the value that was pushed. -/
theorem value_read (hchannel : Channel place bits clocks ring entered) {h : ℕ}
    (hpopper : ring.popper = .read h) :
    entered[clocks.last place.head]? = some (ring.buffer h) := by
  have hless := (hchannel.attached_le_of_read hpopper).1
  rw [← hchannel.count] at hless
  have hsees := hchannel.popper
  rw [hpopper] at hsees
  rw [List.getElem?_eq_getElem hless, hsees.1]
  congr 1
  exact (hchannel.values _ _ (Nat.le_refl _) (List.getElem?_eq_getElem hless)).symm

theorem raceFree (hchannel : Channel place bits clocks ring entered) :
    ring.RaceFree place clocks where
  pusher _ _ _ hpusher := (hchannel.covers_write hpusher).safe .write
  popper _ hpopper := (hchannel.covers_read hpopper).safe .read

/-! ## The accesses -/

variable [DecidableEq τ] [DecidableEq ι]

/-- A load leaves the ring alone. -/
theorem load (hchannel : Channel place bits clocks ring entered) (order : LoadOrder) (thread : τ)
    (location : ι) (age : ℕ) :
    Channel place bits (clocks.load order thread location age) ring entered :=
  hchannel.frame (clocks.evolves_load order thread location age)
    (hchannel.sound.load order thread location age) (by rw [Clocks.last_load])
    (by rw [Clocks.last_load]) (fun _ => by rw [Clocks.accessed_load])

theorem beginPush (hchannel : Channel place bits clocks ring entered) (hidle : ring.pusher = .idle)
    (value : α) (age : ℕ) :
    Channel place bits (clocks.load .relaxed place.producer place.tail age)
      { ring with
        pusher := .loadHead value (ring.tails (clocks.pick place.producer place.tail age)) }
      entered := by
  have hloaded := hchannel.load .relaxed place.producer place.tail age
  have hreturned := hloaded.returned
  rw [hidle] at hreturned
  refine { hloaded with returned := hreturned, pusher := ?_ }
  rw [Pusher.Sees, Clocks.last_load, hchannel.pick_tail]
  exact hchannel.tails _ (Nat.le_refl _)

theorem refusePush (hchannel : Channel place bits clocks ring entered) {value : α} {t : ℕ}
    (hpusher : ring.pusher = .loadHead value t) (age : ℕ) :
    Channel place bits (clocks.load .acquire place.producer place.head age)
      { ring with pusher := .idle } entered := by
  have hloaded := hchannel.load .acquire place.producer place.head age
  have hreturned := hloaded.returned
  rw [hpusher] at hreturned
  exact { hloaded with returned := hreturned, pusher := trivial }

theorem admitPush (hchannel : Channel place bits clocks ring entered) {value : α} {t : ℕ}
    (hpusher : ring.pusher = .loadHead value t) (age : ℕ)
    (hfree : (t + 1) &&& ring.mask ≠ ring.heads (clocks.pick place.producer place.head age)) :
    Channel place bits (clocks.load .acquire place.producer place.head age)
      { ring with pusher := .write value t ((t + 1) &&& ring.mask) } entered := by
  have hloaded := hchannel.load .acquire place.producer place.head age
  have hreturned := hloaded.returned
  rw [hpusher] at hreturned
  have hsees := hchannel.pusher
  rw [hpusher] at hsees
  obtain rfl : t = clocks.last place.tail % 2 ^ bits := hsees
  have hpick := hchannel.sound.pick_le place.producer place.head age
  have hseen := clocks.le_pick place.producer place.head age
  have hbehind := hchannel.ends.seen_head
  have hne := (hchannel.next_eq_iff age).not.mp hfree
  refine { hloaded with returned := hreturned, pusher := ?_ }
  rw [Pusher.Sees, Clocks.last_load, Clocks.attached_load, hchannel.mask, mod_succ_and_mask]
  exact ⟨rfl, rfl, clocks.pick place.producer place.head age, hpick, by omega,
    clocks.pick_le_view_load .acquire place.producer place.head age,
    clocks.attached_le_view_load place.producer place.head age⟩

theorem storePush (hchannel : Channel place bits clocks ring entered) {value : α} {after : ℕ}
    (hpusher : ring.pusher = .storeTail value after) :
    Channel place bits (clocks.store place.producer place.tail)
      { ring with
        tails := Function.update ring.tails (clocks.last place.tail + 1) after
        pusher := .idle } (entered ++ [value]) := by
  have hreturned := hchannel.returned
  rw [hpusher] at hreturned
  have hsees := hchannel.pusher
  rw [hpusher] at hsees
  obtain ⟨hvalue, rfl, hroom, hseen, hcovers⟩ := hsees
  have hevolves := clocks.evolves_store place.producer place.tail
  have hhead := Clocks.last_store_of_ne place.locations_ne clocks place.producer
  have hattached := Clocks.attached_store_of_ne place.locations_ne clocks place.producer
  refine
    { sound := hchannel.sound.store _ _
      ends := hchannel.ends.storeTail hroom hseen
      mask := hchannel.mask
      count := ?_
      tails := fun i hi => ?_
      heads := by rw [hhead]; exact hchannel.heads
      values := fun m held hm hheld => ?_
      published := fun m hm hless => ?_
      returned := fun m hm hless => ?_
      pusher := trivial
      popper := ?_ }
  · rw [List.length_append, hchannel.count, Clocks.last_store_self]
    rfl
  · rw [Clocks.last_store_self] at hi
    dsimp only
    by_cases hnew : i = clocks.last place.tail + 1
    · rw [hnew, Function.update_self]
    · rw [Function.update_of_ne hnew]
      exact hchannel.tails i (by omega)
  · rw [hhead] at hm
    rcases Nat.lt_or_ge m entered.length with hold | hlast
    · rw [List.getElem?_append_left hold] at hheld
      exact hchannel.values m held hm hheld
    · rw [List.getElem?_append_right hlast] at hheld
      have hbound := (List.getElem?_eq_some_iff.mp hheld).1
      rw [List.length_singleton] at hbound
      obtain rfl : m = clocks.last place.tail := by
        rw [← hchannel.count]
        omega
      rw [hchannel.count, Nat.sub_self] at hheld
      cases hheld
      exact hvalue
  · rw [hhead] at hm
    rw [Clocks.last_store_self] at hless
    rcases Nat.lt_or_ge m (clocks.last place.tail) with hold | hlast
    · rw [Clocks.attached_store_of_le hold]
      exact hchannel.published m hm hold
    · obtain rfl : m = clocks.last place.tail := by omega
      rw [Clocks.attached_store_self]
      exact hcovers.mono (hevolves.view _)
  · rw [Clocks.last_store_self] at hm
    rw [hhead] at hless
    rw [hattached]
    exact hreturned m hm hless
  · have hpopper := hchannel.popper
    dsimp only
    cases hcase : ring.popper with
    | idle => trivial
    | loadTail h =>
        rw [hcase] at hpopper
        rw [Popper.Sees, hhead]
        exact hpopper
    | read h =>
        rw [hcase] at hpopper
        obtain ⟨hh, i, hi, hless, hbeen, hknown⟩ := hpopper
        rw [Popper.Sees, hhead, Clocks.last_store_self]
        refine ⟨hh, i, hi.trans (Nat.le_succ _), hless, hbeen.trans (hevolves.view _ _), ?_⟩
        rw [Clocks.attached_store_of_le hi]
        exact hknown.trans (hevolves.view _)
    | storeHead h out =>
        rw [hcase] at hpopper
        obtain ⟨hh, hout, hbeen, hknown, hcell⟩ := hpopper
        have hless := hchannel.lt_of_getElem? hout
        rw [Popper.Sees, hhead, Clocks.attached_store_of_le hless]
        refine ⟨hh, ?_, hbeen.trans (hevolves.view _ _), hknown.trans (hevolves.view _),
          hcell.mono (hevolves.view _)⟩
        rw [List.getElem?_append_left (List.getElem?_eq_some_iff.mp hout).1]
        exact hout

theorem beginPop (hchannel : Channel place bits clocks ring entered) (hidle : ring.popper = .idle)
    (age : ℕ) :
    Channel place bits (clocks.load .relaxed place.consumer place.head age)
      { ring with
        popper := .loadTail (ring.heads (clocks.pick place.consumer place.head age)) }
      entered := by
  have hloaded := hchannel.load .relaxed place.consumer place.head age
  have hpublished := hloaded.published
  rw [hidle] at hpublished
  refine { hloaded with published := hpublished, popper := ?_ }
  rw [Popper.Sees, Clocks.last_load, hchannel.pick_head]
  exact hchannel.heads _ (Nat.le_refl _)

theorem missPop (hchannel : Channel place bits clocks ring entered) {h : ℕ}
    (hpopper : ring.popper = .loadTail h) (age : ℕ) :
    Channel place bits (clocks.load .acquire place.consumer place.tail age)
      { ring with popper := .idle } entered := by
  have hloaded := hchannel.load .acquire place.consumer place.tail age
  have hpublished := hloaded.published
  rw [hpopper] at hpublished
  exact { hloaded with published := hpublished, popper := trivial }

theorem admitPop (hchannel : Channel place bits clocks ring entered) {h : ℕ}
    (hpopper : ring.popper = .loadTail h) (age : ℕ)
    (hsome : h ≠ ring.tails (clocks.pick place.consumer place.tail age)) :
    Channel place bits (clocks.load .acquire place.consumer place.tail age)
      { ring with popper := .read h } entered := by
  have hloaded := hchannel.load .acquire place.consumer place.tail age
  have hpublished := hloaded.published
  rw [hpopper] at hpublished
  have hsees := hchannel.popper
  rw [hpopper] at hsees
  obtain rfl : h = clocks.last place.head % 2 ^ bits := hsees
  have hpick := hchannel.sound.pick_le place.consumer place.tail age
  have hseen := clocks.le_pick place.consumer place.tail age
  have hbehind := hchannel.ends.seen_tail
  have hne := (hchannel.head_eq_iff age).not.mp hsome
  refine { hloaded with published := hpublished, popper := ?_ }
  rw [Popper.Sees, Clocks.last_load, Clocks.attached_load]
  exact ⟨rfl, clocks.pick place.consumer place.tail age, hpick, by omega,
    clocks.pick_le_view_load .acquire place.consumer place.tail age,
    clocks.attached_le_view_load place.consumer place.tail age⟩

theorem storePop (hchannel : Channel place bits clocks ring entered) {h : ℕ} {out : α}
    (hpopper : ring.popper = .storeHead h out) :
    Channel place bits (clocks.store place.consumer place.head)
      { ring with
        heads := Function.update ring.heads (clocks.last place.head + 1) ((h + 1) &&& ring.mask)
        popper := .idle } entered := by
  have hpublished := hchannel.published
  rw [hpopper] at hpublished
  have hsees := hchannel.popper
  rw [hpopper] at hsees
  obtain ⟨rfl, hout, hseen, _, hcovers⟩ := hsees
  have hsome := hchannel.lt_of_getElem? hout
  have hevolves := clocks.evolves_store place.consumer place.head
  have htail := Clocks.last_store_of_ne place.locations_ne.symm clocks place.consumer
  have hattached := Clocks.attached_store_of_ne place.locations_ne.symm clocks place.consumer
  refine
    { sound := hchannel.sound.store _ _
      ends := hchannel.ends.storeHead hseen hsome
      mask := hchannel.mask
      count := by rw [htail]; exact hchannel.count
      tails := by rw [htail]; exact hchannel.tails
      heads := fun j hj => ?_
      values := fun m held hm => ?_
      published := fun m hm hless => ?_
      returned := fun m hm hless => ?_
      pusher := ?_
      popper := trivial }
  · rw [Clocks.last_store_self] at hj
    dsimp only
    by_cases hnew : j = clocks.last place.head + 1
    · rw [hnew, Function.update_self, hchannel.mask, mod_succ_and_mask]
    · rw [Function.update_of_ne hnew]
      exact hchannel.heads j (by omega)
  · rw [Clocks.last_store_self] at hm
    exact hchannel.values m held (Nat.le_of_succ_le hm)
  · rw [Clocks.last_store_self] at hm
    rw [htail] at hless
    rw [hattached]
    exact hpublished m hm hless
  · rw [htail] at hm
    rw [Clocks.last_store_self] at hless
    rcases Nat.lt_or_ge m (clocks.last place.head + 2 ^ bits) with hold | hlast
    · rw [Clocks.attached_store_of_le (by omega)]
      exact hchannel.returned m hm hold
    · obtain rfl : m = clocks.last place.head + 2 ^ bits := by omega
      have hidx : clocks.last place.head + 2 ^ bits + 1 - 2 ^ bits =
          clocks.last place.head + 1 := by omega
      rw [hidx, Clocks.attached_store_self, Nat.add_mod_right]
      exact hcovers.mono (hevolves.view _)
  · have hpusher := hchannel.pusher
    dsimp only
    cases hcase : ring.pusher with
    | idle => trivial
    | loadHead value t =>
        rw [hcase] at hpusher
        rw [Pusher.Sees, htail]
        exact hpusher
    | write value t after =>
        rw [hcase] at hpusher
        obtain ⟨ht, hafter, j, hj, hfree, hbeen, hknown⟩ := hpusher
        rw [Pusher.Sees, htail, Clocks.last_store_self]
        refine ⟨ht, hafter, j, hj.trans (Nat.le_succ _), hfree,
          hbeen.trans (hevolves.view _ _), ?_⟩
        rw [Clocks.attached_store_of_le hj]
        exact hknown.trans (hevolves.view _)
    | storeTail value after =>
        rw [hcase] at hpusher
        obtain ⟨hheld, hafter, hfree, hbeen, hcell⟩ := hpusher
        rw [Pusher.Sees, htail, Clocks.last_store_self]
        exact ⟨hheld, hafter, by omega,
          hbeen.trans (Nat.add_le_add_right (hevolves.view _ _) _),
          hcell.mono (hevolves.view _)⟩

variable [DecidableEq κ]

theorem writePush (hchannel : Channel place bits clocks ring entered) {value : α} {t after : ℕ}
    (hpusher : ring.pusher = .write value t after) :
    Channel place bits (clocks.access place.producer (place.cell t) .write)
      { ring with
        buffer := Function.update ring.buffer t value
        pusher := .storeTail value after } entered := by
  have hcovers := hchannel.covers_write hpusher
  have hreturned := hchannel.returned
  rw [hpusher] at hreturned
  have hsees := hchannel.pusher
  rw [hpusher] at hsees
  obtain ⟨rfl, hafter, j, hj, hroom, hseen, hknown⟩ := hsees
  have hevolves := clocks.evolves_access place.producer
    (place.cell (clocks.last place.tail % 2 ^ bits)) .write
  have hfull := hchannel.ends.room
  refine
    { sound := hchannel.sound.access _ _ _
      ends := hchannel.ends.evolve hevolves rfl rfl
      mask := hchannel.mask
      count := hchannel.count
      tails := hchannel.tails
      heads := hchannel.heads
      values := fun m held hm hheld => ?_
      published := fun m hm hless => ?_
      returned := fun m hm hless => ?_
      pusher := ?_
      popper := ?_ }
  · have hless := hchannel.lt_of_getElem? hheld
    rw [Clocks.last_access] at hm
    dsimp only
    rw [Function.update_of_ne (mod_ne_mod_of_lt hless (by omega))]
    exact hchannel.values m held hm hheld
  · rw [Clocks.last_access] at hm hless
    refine (hchannel.published m hm hless).congr ?_
    exact Clocks.accessed_access_of_ne (cell_ne hless (by omega)) clocks _ _
  · rw [Clocks.last_access] at hm hless
    have hm : clocks.last place.tail + 1 ≤ m := hm
    have hhead := hchannel.ends.head_le
    refine (hreturned m (Nat.le_of_succ_le hm) hless).congr ?_
    exact Clocks.accessed_access_of_ne (cell_ne hm (by omega)).symm clocks _ _
  · refine ⟨Function.update_self .., hafter, ?_, ?_, hcovers.access .write⟩
    · rw [Clocks.last_access]
      omega
    · have hbeen : clocks.last place.tail + 2 ≤
          clocks.view place.producer (.stores place.head) + 2 ^ bits := by omega
      exact hbeen.trans (Nat.add_le_add_right (hevolves.view _ _) _)
  · have hpopper := hchannel.popper
    dsimp only
    cases hcase : ring.popper with
    | idle => trivial
    | loadTail h =>
        rw [hcase] at hpopper
        exact hpopper
    | read h =>
        rw [hcase] at hpopper
        obtain ⟨hh, i, hi, hless, hbeen, hold⟩ := hpopper
        exact ⟨hh, i, hi, hless, hbeen.trans (hevolves.view _ _), hold.trans (hevolves.view _)⟩
    | storeHead h out =>
        rw [hcase] at hpopper
        obtain ⟨hh, hout, hbeen, hknown, hcell⟩ := hpopper
        have hless := hchannel.lt_of_getElem? hout
        refine ⟨hh, hout, hbeen.trans (hevolves.view _ _), hknown.trans (hevolves.view _), ?_⟩
        refine (hcell.congr ?_).mono (hevolves.view _)
        exact Clocks.accessed_access_of_ne (cell_ne hless (by omega)) clocks _ _

theorem readPop (hchannel : Channel place bits clocks ring entered) {h : ℕ}
    (hpopper : ring.popper = .read h) :
    Channel place bits (clocks.access place.consumer (place.cell h) .read)
      { ring with popper := .storeHead h (ring.buffer h) } entered := by
  have hcovers := hchannel.covers_read hpopper
  have hvalue := hchannel.value_read hpopper
  have hpublished := hchannel.published
  rw [hpopper] at hpublished
  have hsees := hchannel.popper
  rw [hpopper] at hsees
  obtain ⟨rfl, i, hi, hbehind, hseen, hknown⟩ := hsees
  have hevolves := clocks.evolves_access place.consumer
    (place.cell (clocks.last place.head % 2 ^ bits)) .read
  have hroom := hchannel.ends.room
  refine
    { sound := hchannel.sound.access _ _ _
      ends := hchannel.ends.evolve hevolves rfl rfl
      mask := hchannel.mask
      count := hchannel.count
      tails := hchannel.tails
      heads := hchannel.heads
      values := hchannel.values
      published := fun m hm hless => ?_
      returned := fun m hm hless => ?_
      pusher := ?_
      popper := ?_ }
  · rw [Clocks.last_access] at hm hless
    have hm : clocks.last place.head + 1 ≤ m := hm
    refine (hpublished m (Nat.le_of_succ_le hm) hless).congr ?_
    exact Clocks.accessed_access_of_ne (cell_ne hm (by omega)).symm clocks _ _
  · rw [Clocks.last_access] at hm hless
    refine (hchannel.returned m hm hless).congr ?_
    exact Clocks.accessed_access_of_ne (cell_ne (by omega) hless).symm clocks _ _
  · have hpusher := hchannel.pusher
    dsimp only
    cases hcase : ring.pusher with
    | idle => trivial
    | loadHead value t =>
        rw [hcase] at hpusher
        exact hpusher
    | write value t after =>
        rw [hcase] at hpusher
        obtain ⟨ht, hafter, j, hj, hfree, hbeen, hold⟩ := hpusher
        exact ⟨ht, hafter, j, hj, hfree, hbeen.trans (hevolves.view _ _),
          hold.trans (hevolves.view _)⟩
    | storeTail value after =>
        rw [hcase] at hpusher
        obtain ⟨hheld, hafter, hfree, hbeen, hcell⟩ := hpusher
        refine ⟨hheld, hafter, hfree,
          hbeen.trans (Nat.add_le_add_right (hevolves.view _ _) _), ?_⟩
        refine (hcell.congr ?_).mono (hevolves.view _)
        exact Clocks.accessed_access_of_ne (cell_ne (by omega) hroom).symm clocks _ _
  · have hbeen : clocks.last place.head + 1 ≤
        clocks.view place.consumer (.stores place.tail) := by omega
    exact ⟨rfl, hvalue, hbeen.trans (hevolves.view _ _),
      (hchannel.attached_le_of_read hpopper).2.trans (hevolves.view _), hcovers.access .read⟩

end Channel

/-- The value of the push in hand. -/
def Pusher.value : Pusher α → Option α
  | .idle => none
  | .loadHead value _ => some value
  | .write value _ _ => some value
  | .storeTail value _ => some value

theorem Pusher.eq_idle_of_value {pusher : Pusher α} (hnone : pusher.value = none) :
    pusher = .idle := by
  cases pusher with
  | idle => rfl
  | _ => cases hnone

/-- An access of a push of `value` leaves what was pushed, or it answers. A push that is refused
has read an index of the head with which the ring is full. -/
inductive PushMove (place : RingPlace τ ι κ) (bits : ℕ) (clocks : Clocks τ ι κ)
    (entered : List α) (value : α) (next : Clocks τ ι κ) (ring : WeakRing α) :
    Option (QueueEvent α) → Prop
  | silent (head : next.last place.head = clocks.last place.head)
      (busy : ring.pusher.value = some value)
      (channel : Channel place bits next ring entered) :
      PushMove place bits clocks entered value next ring none
  | pushed (head : next.last place.head = clocks.last place.head) (idle : ring.pusher = .idle)
      (carried : next.attached place.tail (entered.length + 1) = next.view place.producer)
      (channel : Channel place bits next ring (entered ++ [value])) :
      PushMove place bits clocks entered value next ring (some (.pushed value))
  | refused (head : next.last place.head = clocks.last place.head) (idle : ring.pusher = .idle)
      (read : ℕ) (seen : clocks.view place.producer (.stores place.head) ≤ read)
      (made : read ≤ clocks.last place.head) (full : entered.length + 1 = read + 2 ^ bits)
      (channel : Channel place bits next ring entered) :
      PushMove place bits clocks entered value next ring (some (.refused value))

/-- An access of a pop leaves what was popped, or it answers. A pop that misses has read an
index of the tail with which the ring is empty. -/
inductive PopMove (place : RingPlace τ ι κ) (bits : ℕ) (clocks : Clocks τ ι κ)
    (entered : List α) (next : Clocks τ ι κ) (ring : WeakRing α) : Option (QueueEvent α) → Prop
  | silent (head : next.last place.head = clocks.last place.head)
      (channel : Channel place bits next ring entered) :
      PopMove place bits clocks entered next ring none
  | popped (out : α) (first : entered[clocks.last place.head]? = some out)
      (head : next.last place.head = clocks.last place.head + 1)
      (learnt : clocks.attached place.tail (clocks.last place.head + 1) ≤
        next.view place.consumer)
      (channel : Channel place bits next ring entered) :
      PopMove place bits clocks entered next ring (some (.popped out))
  | empty (head : next.last place.head = clocks.last place.head)
      (seen : clocks.view place.consumer (.stores place.tail) ≤ clocks.last place.head)
      (channel : Channel place bits next ring entered) :
      PopMove place bits clocks entered next ring (some .empty)

namespace Channel

variable {place : RingPlace τ ι κ} {bits : ℕ} {clocks : Clocks τ ι κ} {ring : WeakRing α}
  {entered : List α} [DecidableEq τ] [DecidableEq ι] [DecidableEq κ]

theorem push (hchannel : Channel place bits clocks ring entered) (value : α) (age : ℕ) :
    PushMove place bits clocks entered (ring.pusher.value.getD value)
      (ring.push place clocks value age).1 (ring.push place clocks value age).2.1
      (ring.push place clocks value age).2.2 := by
  have hhead := Clocks.last_store_of_ne place.locations_ne clocks place.producer
  unfold WeakRing.push
  cases hpusher : ring.pusher with
  | idle => exact .silent (by rw [Clocks.last_load]) rfl (hchannel.beginPush hpusher value age)
  | loadHead value t =>
      have hsees := hchannel.pusher
      rw [hpusher] at hsees
      obtain rfl : t = clocks.last place.tail % 2 ^ bits := hsees
      dsimp only
      split
      case isTrue hsame =>
          refine .refused (by rw [Clocks.last_load]) rfl
            (clocks.pick place.producer place.head age) (clocks.le_pick _ _ _)
            (hchannel.sound.pick_le _ _ _) ?_ (hchannel.refusePush hpusher age)
          rw [hchannel.count]
          exact (hchannel.next_eq_iff age).mp hsame
      case isFalse hother =>
          exact .silent (by rw [Clocks.last_load]) rfl (hchannel.admitPush hpusher age hother)
  | write value t after => exact .silent rfl rfl (hchannel.writePush hpusher)
  | storeTail value after =>
      refine .pushed hhead rfl ?_ (hchannel.storePush hpusher)
      rw [hchannel.count]
      exact clocks.attached_store_self place.producer place.tail

theorem pop (hchannel : Channel place bits clocks ring entered) (age : ℕ) :
    PopMove place bits clocks entered (ring.pop place clocks age).1
      (ring.pop place clocks age).2.1 (ring.pop place clocks age).2.2 := by
  unfold WeakRing.pop
  cases hpopper : ring.popper with
  | idle => exact .silent (by rw [Clocks.last_load]) (hchannel.beginPop hpopper age)
  | loadTail h =>
      have hsees := hchannel.popper
      rw [hpopper] at hsees
      obtain rfl : h = clocks.last place.head % 2 ^ bits := hsees
      dsimp only
      split
      case isTrue hsame =>
          refine .empty (by rw [Clocks.last_load]) ?_ (hchannel.missPop hpopper age)
          rw [(hchannel.head_eq_iff age).mp hsame]
          exact clocks.le_pick _ _ _
      case isFalse hother =>
          exact .silent (by rw [Clocks.last_load]) (hchannel.admitPop hpopper age hother)
  | read h => exact .silent rfl (hchannel.readPop hpopper)
  | storeHead h out =>
      have hsees := hchannel.popper
      rw [hpopper] at hsees
      obtain ⟨_, hout, _, hknown, _⟩ := hsees
      exact .popped out hout (clocks.last_store_self place.consumer place.head)
        (hknown.trans (clocks.view_le_view_store _ _ _)) (hchannel.storePop hpopper)

end Channel

namespace WeakRing

variable [DecidableEq τ] [DecidableEq ι] [DecidableEq κ] (place : RingPlace τ ι κ)
  (clocks : Clocks τ ι κ) (ring : WeakRing α)

/-- `push` stores to the tail and uses the cells of the buffer. -/
theorem push_act (value : α) (age : ℕ) :
    Clocks.Act place.producer (· = place.tail) (fun cell => ∃ i, cell = place.cell i) clocks
      (ring.push place clocks value age).1 := by
  unfold push
  cases ring.pusher with
  | idle => exact .relaxed place.tail age rfl
  | loadHead value t =>
      dsimp only
      split <;> exact .acquire place.head age
  | write value t next => exact .access _ .write ⟨t, rfl⟩
  | storeTail value next => exact .store _ rfl

/-- `pop` stores to the head and uses the cells of the buffer. -/
theorem pop_act (age : ℕ) :
    Clocks.Act place.consumer (· = place.head) (fun cell => ∃ i, cell = place.cell i) clocks
      (ring.pop place clocks age).1 := by
  unfold pop
  cases ring.popper with
  | idle => exact .relaxed place.head age rfl
  | loadTail h =>
      dsimp only
      split <;> exact .acquire place.tail age
  | read h => exact .access _ .read ⟨h, rfl⟩
  | storeHead h out => exact .store _ rfl

theorem pusher_pop (age : ℕ) : (ring.pop place clocks age).2.1.pusher = ring.pusher := by
  unfold pop
  cases ring.popper with
  | loadTail h =>
      dsimp only
      split <;> rfl
  | _ => rfl

end WeakRing

/-! ## The ring on its own -/

/-- The two threads at a ring. -/
inductive RingEnd
  | producer
  | consumer
  deriving DecidableEq, Repr

/-- The two indices of a ring. -/
inductive RingIndex
  | head
  | tail
  deriving DecidableEq, Repr

/-- A memory with nothing but a ring. -/
def ringPlace : RingPlace RingEnd RingIndex ℕ where
  producer := .producer
  consumer := .consumer
  head := .head
  tail := .tail
  cell i := i
  threads_ne := RingEnd.noConfusion
  locations_ne := RingIndex.noConfusion
  cell_injective _ _ heq := heq

structure RingMemory (α : Type) where
  clocks : Clocks RingEnd RingIndex ℕ := .initial
  ring : WeakRing α

/-- One access of the thread whose turn it is, whose load looks as far back as the age says. -/
def RingMemory.step (memory : RingMemory α) (turn : RingTurn α × ℕ) :
    Pass (RingMemory α) (QueueEvent α) :=
  let (clocks, ring, event) :=
    match turn.1 with
    | .producer value => memory.ring.push ringPlace memory.clocks value turn.2
    | .consumer => memory.ring.pop ringPlace memory.clocks turn.2
  { state := { clocks, ring }, answers := event.toList }

/-- Both threads on a new ring. -/
def runWeakRing [Inhabited α] (capacity : ℕ) (turns : List (RingTurn α × ℕ)) :
    RingMemory α × List (QueueEvent α) :=
  runUntil RingMemory.step { ring := .initial capacity } turns

namespace RingMemory

/-- The ring carries what was pushed, and what was popped is the front of it. -/
structure Carries (bits : ℕ) (memory : RingMemory α) (events : List (QueueEvent α)) : Prop where
  channel : Channel ringPlace bits memory.clocks memory.ring (enteredValues events)
  left : leftValues events = (enteredValues events).take (memory.clocks.last .head)

variable {bits : ℕ} {memory : RingMemory α} {events : List (QueueEvent α)}

theorem carries_initial [Inhabited α] (bits : ℕ) :
    ({ ring := .initial (2 ^ bits) } : RingMemory α).Carries bits [] where
  channel := .initial ringPlace bits
  left := List.take_nil.symm

/-- The values of one more answer. -/
theorem values_append (events : List (QueueEvent α)) (event : Option (QueueEvent α)) :
    enteredValues (events ++ event.toList) =
        enteredValues events ++ (event.bind QueueEvent.entered).toList ∧
      leftValues (events ++ event.toList) =
        leftValues events ++ (event.bind QueueEvent.left).toList := by
  unfold enteredValues leftValues
  rw [List.filterMap_append, List.filterMap_append]
  cases event with
  | none => exact ⟨rfl, rfl⟩
  | some event => cases event <;> exact ⟨rfl, rfl⟩

/-- An answer that moves no value. -/
theorem Carries.same (hcarries : memory.Carries bits events)
    {clocks : Clocks RingEnd RingIndex ℕ} {ring : WeakRing α} {event : Option (QueueEvent α)}
    (hnothing : event.bind QueueEvent.entered = none ∧ event.bind QueueEvent.left = none)
    (hhead : clocks.last ringPlace.head = memory.clocks.last ringPlace.head)
    (hchannel : Channel ringPlace bits clocks ring (enteredValues events)) :
    ({ clocks, ring } : RingMemory α).Carries bits (events ++ event.toList) := by
  obtain ⟨hentered, hleft⟩ := values_append events event
  rw [hnothing.1, Option.toList_none, List.append_nil] at hentered
  rw [hnothing.2, Option.toList_none, List.append_nil, hcarries.left] at hleft
  refine ⟨hentered.symm ▸ hchannel, ?_⟩
  rw [hleft, hentered]
  exact congrArg (List.take · _) hhead.symm

theorem Carries.push (hcarries : memory.Carries bits events) (value : α) (age : ℕ) :
    (memory.step (.producer value, age)).state.Carries bits
      (events ++ (memory.step (.producer value, age)).answers) := by
  have hmove := hcarries.channel.push value age
  have hle : memory.clocks.last .head ≤ (enteredValues events).length := by
    rw [hcarries.channel.count]
    exact hcarries.channel.ends.head_le
  unfold RingMemory.step
  dsimp only
  generalize memory.ring.push ringPlace memory.clocks value age = result at hmove ⊢
  generalize memory.ring.pusher.value.getD value = value at hmove
  obtain ⟨clocks, ring, event⟩ := result
  dsimp only at hmove ⊢
  cases hmove with
  | silent head _ channel => exact hcarries.same ⟨rfl, rfl⟩ head channel
  | refused head _ _ _ _ _ channel => exact hcarries.same ⟨rfl, rfl⟩ head channel
  | pushed head _ _ channel =>
      obtain ⟨hentered, hleft⟩ := values_append events (some (.pushed value))
      refine ⟨hentered.symm ▸ channel, ?_⟩
      rw [hleft, hentered, hcarries.left, show clocks.last .head = memory.clocks.last .head
        from head, List.take_append_of_le_length hle]
      exact List.append_nil _

theorem Carries.pop (hcarries : memory.Carries bits events) (age : ℕ) :
    (memory.step (.consumer, age)).state.Carries bits
      (events ++ (memory.step (.consumer, age)).answers) := by
  have hmove := hcarries.channel.pop age
  unfold RingMemory.step
  dsimp only
  generalize memory.ring.pop ringPlace memory.clocks age = result at hmove ⊢
  obtain ⟨clocks, ring, event⟩ := result
  dsimp only at hmove ⊢
  cases hmove with
  | silent head channel => exact hcarries.same ⟨rfl, rfl⟩ head channel
  | empty head _ channel => exact hcarries.same ⟨rfl, rfl⟩ head channel
  | popped out first head _ channel =>
      obtain ⟨hentered, hleft⟩ := values_append events (some (.popped out))
      change _ = enteredValues events ++ [] at hentered
      rw [List.append_nil] at hentered
      refine ⟨hentered.symm ▸ channel, ?_⟩
      rw [hleft, hentered, hcarries.left, show clocks.last .head = memory.clocks.last .head + 1
        from head, List.take_add_one]
      exact congrArg (_ ++ Option.toList ·) first.symm

theorem Carries.step (hcarries : memory.Carries bits events) (turn : RingTurn α × ℕ) :
    (memory.step turn).state.Carries bits (events ++ (memory.step turn).answers) := by
  obtain ⟨turn, age⟩ := turn
  cases turn with
  | producer value => exact hcarries.push value age
  | consumer => exact hcarries.pop age

end RingMemory

theorem runWeakRing_carries [Inhabited α] (bits : ℕ) (turns : List (RingTurn α × ℕ)) :
    (runWeakRing (2 ^ bits) turns).1.Carries bits (runWeakRing (2 ^ bits) turns).2 := by
  have hrun : ∃ past, past <+: turns ∧
      (runWeakRing (2 ^ bits) turns).1.Carries bits (runWeakRing (2 ^ bits) turns).2 :=
    runUntil_invariant (fun _ (memory : RingMemory α) events => memory.Carries bits events)
      (RingMemory.carries_initial bits) fun _ _ _ turn _ hcarries => hcarries.step turn
  obtain ⟨_, _, hcarries⟩ := hrun
  exact hcarries

/-- A ring of some capacity whose two threads need not see the last stores is still a
first-in first-out channel without races. A push is refused only with an index of the head
that was stored and is not older than what the producer had seen, and a pop misses only what
its thread had not seen. -/
structure ReleaseFifo (capacity : ℕ) (memory : RingMemory α) (events : List (QueueEvent α)) :
    Prop where
  order : leftValues events <+: enteredValues events
  bound : (enteredValues events).length ≤ (leftValues events).length + (capacity - 1)
  intact : ∀ i value, (leftValues events).length ≤ i → (enteredValues events)[i]? = some value →
    memory.ring.buffer (i % capacity) = value
  raceFree : memory.ring.RaceFree ringPlace memory.clocks
  full : ∀ next age value, (memory.step (.producer next, age)).answers = [.refused value] →
    ∃ read, memory.clocks.view .producer (.stores .head) ≤ read ∧
      read ≤ (leftValues events).length ∧
      (enteredValues events).length = read + (capacity - 1)
  empty : ∀ age, (memory.step (.consumer, age)).answers = [.empty] →
    memory.clocks.view .consumer (.stores .tail) ≤ (leftValues events).length

theorem RingMemory.Carries.releaseFifo {bits : ℕ} {memory : RingMemory α}
    {events : List (QueueEvent α)} (hcarries : memory.Carries bits events) :
    ReleaseFifo (2 ^ bits) memory events := by
  have hchannel := hcarries.channel
  have hcount : (enteredValues events).length = memory.clocks.last .tail := hchannel.count
  have hbehind : memory.clocks.last .head ≤ memory.clocks.last .tail := hchannel.ends.head_le
  have hroom : memory.clocks.last .tail < memory.clocks.last .head + 2 ^ bits :=
    hchannel.ends.room
  have hleft : (leftValues events).length = memory.clocks.last .head := by
    rw [hcarries.left, List.length_take]
    omega
  refine ⟨?_, ?_, ?_, hchannel.raceFree, ?_, ?_⟩
  · rw [hcarries.left]
    exact List.take_prefix _ _
  · omega
  · intro i value hi hvalue
    exact hchannel.values i value (hleft ▸ hi) hvalue
  · intro next age value hrefused
    have hmove := hchannel.push next age
    change (memory.ring.push ringPlace memory.clocks next age).2.2.toList = _ at hrefused
    generalize (memory.ring.push ringPlace memory.clocks next age).2.2 = event at hrefused hmove
    cases hmove with
    | refused _ _ read seen made full _ =>
        refine ⟨read, seen, hleft ▸ made, ?_⟩
        have hpositive := Nat.two_pow_pos bits
        omega
    | _ => simp at hrefused
  · intro age hempty
    have hmove := hchannel.pop age
    change (memory.ring.pop ringPlace memory.clocks age).2.2.toList = _ at hempty
    generalize (memory.ring.pop ringPlace memory.clocks age).2.2 = event at hempty hmove
    cases hmove with
    | empty _ seen _ => exact hleft ▸ seen
    | _ => simp at hempty

/-- Whatever the capacity of a ring, the order in which the two threads get on and the stores
that their loads read, the ring is a first-in first-out channel without races. -/
theorem weakRing_releaseFifo [Inhabited α] {capacity : ℕ} {ring : SpscRing α}
    (hcreate : SpscRing.create capacity = some ring) (turns : List (RingTurn α × ℕ)) :
    ReleaseFifo capacity (runWeakRing capacity turns).1
      (runWeakRing capacity turns).2 := by
  obtain ⟨⟨bits, rfl⟩, _⟩ := SpscRing.create_eq_some_iff.mp hcreate
  exact (runWeakRing_carries bits turns).releaseFifo

/-- A producer that still reads the first head is refused although the value was popped. -/
theorem weakRing_releaseFifo_stale :
    ReleaseFifo 2
      (runWeakRing 2 [(.producer 7, 0), (.producer 7, 0), (.producer 7, 0), (.producer 7, 0),
        (.consumer, 0), (.consumer, 0), (.consumer, 0), (.consumer, 0), (.producer 8, 0),
        (.producer 8, 1)]).1
      (runWeakRing 2 [(.producer 7, 0), (.producer 7, 0), (.producer 7, 0), (.producer 7, 0),
        (.consumer, 0), (.consumer, 0), (.consumer, 0), (.consumer, 0), (.producer 8, 0),
        (.producer 8, 1)]).2 :=
  weakRing_releaseFifo (SpscRing.create_eq_some_iff.mpr ⟨⟨1, rfl⟩, rfl⟩) _

example : (runWeakRing 2 [(.producer 7, 0), (.producer 7, 0), (.producer 7, 0), (.producer 7, 0),
    (.consumer, 0), (.consumer, 0), (.consumer, 0), (.consumer, 0), (.producer 8, 0),
    (.producer 8, 1)]).2 = [.pushed 7, .popped 7, .refused 8] := by
  decide

/-- A ring and its threads, as they are when every load sees the last store. -/
structure RingMemory.Fresh (memory : RingMemory α) (threads : RingThreads α) : Prop where
  mask : threads.ring.mask = memory.ring.mask
  head : threads.ring.head = memory.ring.heads (memory.clocks.last .head)
  tail : threads.ring.tail = memory.ring.tails (memory.clocks.last .tail)
  buffer : threads.ring.buffer = memory.ring.buffer
  pusher : threads.pusher = memory.ring.pusher
  popper : threads.popper = memory.ring.popper

namespace RingMemory.Fresh

variable {memory : RingMemory α} {threads : RingThreads α}

/-- A load that sees the last store does what it does when there is one order of all
accesses. -/
theorem step (hfresh : memory.Fresh threads) (hsound : memory.clocks.Sound)
    (turn : RingTurn α) :
    (memory.step (turn, 0)).state.Fresh (threads.step turn).state ∧
      (memory.step (turn, 0)).answers = (threads.step turn).answers := by
  obtain ⟨hmask, hhead, htail, hbuffer, hpusher, hpopper⟩ := hfresh
  have hpickHead : ∀ thread, memory.clocks.pick thread ringPlace.head 0 =
      memory.clocks.last .head := fun thread => hsound.pick_zero thread .head
  have hpickTail : ∀ thread, memory.clocks.pick thread ringPlace.tail 0 =
      memory.clocks.last .tail := fun thread => hsound.pick_zero thread .tail
  have hheadStore : (memory.clocks.store ringPlace.producer ringPlace.tail).last .head =
      memory.clocks.last .head :=
    Clocks.last_store_of_ne ringPlace.locations_ne memory.clocks _
  have htailStore : (memory.clocks.store ringPlace.consumer ringPlace.head).last .tail =
      memory.clocks.last .tail :=
    Clocks.last_store_of_ne ringPlace.locations_ne.symm memory.clocks _
  cases turn with
  | producer value =>
      simp only [RingMemory.step, WeakRing.push, RingThreads.step, RingThreads.push, hpusher]
      cases hcase : memory.ring.pusher with
      | idle =>
          refine ⟨⟨hmask, ?_, ?_, hbuffer, ?_, hpopper⟩, rfl⟩
          · rw [Clocks.last_load, hhead]
          · rw [Clocks.last_load, htail]
          · dsimp only
            rw [hpickTail, htail]
      | loadHead value t =>
          dsimp only
          rw [hpickHead, hmask, hhead]
          split
          · exact ⟨⟨hmask, by rw [Clocks.last_load, hhead], by rw [Clocks.last_load, htail],
              hbuffer, rfl, hpopper⟩, rfl⟩
          · exact ⟨⟨hmask, by rw [Clocks.last_load, hhead], by rw [Clocks.last_load, htail],
              hbuffer, rfl, hpopper⟩, rfl⟩
      | write value t next =>
          refine ⟨⟨hmask, hhead, htail, ?_, rfl, hpopper⟩, rfl⟩
          funext i
          dsimp only
          rw [Function.update_apply, hbuffer]
      | storeTail value next =>
          refine ⟨⟨hmask, ?_, ?_, hbuffer, rfl, hpopper⟩, rfl⟩
          · dsimp only
            rw [hheadStore, hhead]
          · change next = Function.update memory.ring.tails _ next (_ + 1)
            rw [Function.update_self]
  | consumer =>
      simp only [RingMemory.step, WeakRing.pop, RingThreads.step, RingThreads.pop, hpopper]
      cases hcase : memory.ring.popper with
      | idle =>
          refine ⟨⟨hmask, ?_, ?_, hbuffer, hpusher, ?_⟩, rfl⟩
          · rw [Clocks.last_load, hhead]
          · rw [Clocks.last_load, htail]
          · dsimp only
            rw [hpickHead, hhead]
      | loadTail h =>
          dsimp only
          rw [hpickTail, htail]
          split
          · exact ⟨⟨hmask, by rw [Clocks.last_load, hhead], by rw [Clocks.last_load, htail],
              hbuffer, hpusher, rfl⟩, rfl⟩
          · exact ⟨⟨hmask, by rw [Clocks.last_load, hhead], by rw [Clocks.last_load, htail],
              hbuffer, hpusher, rfl⟩, rfl⟩
      | read h => exact ⟨⟨hmask, hhead, htail, hbuffer, hpusher, by rw [hbuffer]⟩, rfl⟩
      | storeHead h out =>
          refine ⟨⟨hmask, ?_, ?_, hbuffer, hpusher, rfl⟩, rfl⟩
          · change _ = Function.update memory.ring.heads _ ((h + 1) &&& memory.ring.mask) (_ + 1)
            rw [Function.update_self, ← hmask]
          · dsimp only
            rw [htailStore, htail]

end RingMemory.Fresh

/-- The threads never stop by themselves. -/
theorem RingThreads.finished_step (threads : RingThreads α) (turn : RingTurn α) :
    (threads.step turn).finished = false := by
  cases turn with
  | producer value =>
      change (threads.push value).finished = false
      unfold RingThreads.push
      cases threads.pusher with
      | loadHead value t =>
          dsimp only
          split <;> rfl
      | _ => rfl
  | consumer =>
      change threads.pop.finished = false
      unfold RingThreads.pop
      cases threads.popper with
      | loadTail h =>
          dsimp only
          split <;> rfl
      | _ => rfl

/-- With loads that see the last store the threads answer as they do when there is one order
of all accesses. -/
theorem runWeakRing_fresh [Inhabited α] (bits : ℕ) (turns : List (RingTurn α)) :
    (runWeakRing (2 ^ bits) (turns.map fun turn => (turn, 0))).2 =
      (runRing (.initial (2 ^ bits)) turns).2 := by
  suffices hfrom : ∀ (memory : RingMemory α) (threads : RingThreads α) events,
      memory.Carries bits events → memory.Fresh threads →
        (runUntil RingMemory.step memory (turns.map fun turn => (turn, 0))).2 =
          (runUntil RingThreads.step threads turns).2 from
    hfrom _ _ [] (RingMemory.carries_initial bits) ⟨rfl, rfl, rfl, rfl, rfl, rfl⟩
  induction turns with
  | nil => exact fun _ _ _ _ _ => rfl
  | cons turn turns ih =>
      intro memory threads events hcarries hfresh
      obtain ⟨hnext, hanswers⟩ := hfresh.step hcarries.channel.sound turn
      rw [List.map_cons, runUntil_of_open rfl, runUntil_of_open (threads.finished_step turn),
        hanswers, ih _ _ _ (hcarries.step (turn, 0)) hnext]

end Orderbook
