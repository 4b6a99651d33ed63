/-
# Release and acquire

Threads share atomic locations and plain cells. A load of a location need not read the
last store to it: it may read any store that is not older than one the thread has already
seen. A store attaches to itself all that its thread knows, and a load that acquires learns
what is attached to the store it reads. Nothing else passes from one thread to another.

An access to a cell must not race: what other threads did to the cell before has to be known
to the thread that makes the access. Here only knowledge is modelled. Of each thread it is
counted how often it accessed cells and how many stores to each location it has seen; values
are left to the program, which keeps them by the number of the store.

Stores are numbered in the order in which they are made. That is the modification order of a
location that one thread stores to, and of one that is changed by exchanges only; the model
is meant for these.
-/

import Mathlib.Order.Lattice
import Mathlib.Logic.Function.Basic

namespace Orderbook.Math

universe u v w

/-- What is counted: the accesses of a thread to cells, and the stores to a location. -/
inductive Tally (τ : Type u) (ι : Type v)
  | accesses (thread : τ)
  | stores (location : ι)
  deriving DecidableEq, Repr

/-- How much of each is known. -/
abbrev View (τ : Type u) (ι : Type v) := Tally τ ι → ℕ

/-- What is done to a cell. -/
inductive Access
  | read
  | write
  deriving DecidableEq, Repr

/-- What the threads know, what is attached to the stores, and when each thread last read
and wrote each cell. -/
structure Clocks (τ : Type u) (ι : Type v) (κ : Type w) where
  view : τ → View τ ι
  last : ι → ℕ
  attached : ι → ℕ → View τ ι
  accessed : κ → Access → τ → ℕ

/-- The orders of a load. -/
inductive LoadOrder
  | relaxed
  | acquire
  deriving DecidableEq, Repr

namespace Clocks

variable {τ : Type u} {ι : Type v} {κ : Type w}

/-- Before the threads start: the store number 0 is the initial value. -/
def initial : Clocks τ ι κ where
  view _ _ := 0
  last _ := 0
  attached _ _ _ := 0
  accessed _ _ _ := 0

/-- All that happened to a cell is in the view. -/
def Covers (clocks : Clocks τ ι κ) (view : View τ ι) (cell : κ) : Prop :=
  ∀ access thread, clocks.accessed cell access thread ≤ view (.accesses thread)

/-- All that the other threads did to a cell is in the view. -/
def CoversOthers (clocks : Clocks τ ι κ) (self : τ) (view : View τ ι) (cell : κ) : Prop :=
  ∀ access thread, thread ≠ self → clocks.accessed cell access thread ≤ view (.accesses thread)

/-- An access of the thread to the cell does not race: a read with no write, and a write with
no access at all. -/
def Safe (clocks : Clocks τ ι κ) (thread : τ) (cell : κ) : Access → Prop
  | .read => ∀ other, clocks.accessed cell .write other ≤ clocks.view thread (.accesses other)
  | .write => clocks.Covers (clocks.view thread) cell

/-- Threads only learn, and a store keeps what is attached to it. -/
structure Evolves (clocks next : Clocks τ ι κ) : Prop where
  view : ∀ thread, clocks.view thread ≤ next.view thread
  last : ∀ location, clocks.last location ≤ next.last location
  attached : ∀ location idx, idx ≤ clocks.last location →
    next.attached location idx = clocks.attached location idx

/-- Nobody knows more than what was done, every store knows of itself and every thread knows
what it did. -/
structure Sound (clocks : Clocks τ ι κ) : Prop where
  seen_le : ∀ thread location, clocks.view thread (.stores location) ≤ clocks.last location
  attached_le : ∀ location idx other, idx ≤ clocks.last location →
    clocks.attached location idx (.stores other) ≤ clocks.last other
  self_le : ∀ location idx, idx ≤ clocks.last location →
    idx ≤ clocks.attached location idx (.stores location)
  own : ∀ thread cell access,
    clocks.accessed cell access thread ≤ clocks.view thread (.accesses thread)

/-- The stores to a location carry more and more. -/
def Ordered (clocks : Clocks τ ι κ) (location : ι) : Prop :=
  ∀ first second, first ≤ second → second ≤ clocks.last location →
    clocks.attached location first ≤ clocks.attached location second

/-- Something holds of what every thread knows and of what every store carries. -/
structure Everywhere (clocks : Clocks τ ι κ) (holds : View τ ι → Prop) : Prop where
  view : ∀ thread, holds (clocks.view thread)
  attached : ∀ location idx, idx ≤ clocks.last location → holds (clocks.attached location idx)

theorem sound_initial : (initial : Clocks τ ι κ).Sound :=
  ⟨fun _ _ => Nat.le_refl 0, fun _ _ _ _ => Nat.le_refl 0, fun _ _ hle => hle,
    fun _ _ _ => Nat.le_refl 0⟩

section Covering

variable {clocks next : Clocks τ ι κ} {thread self : τ} {cell : κ} {view view' : View τ ι}

theorem covers_initial (view : View τ ι) (cell : κ) : (initial : Clocks τ ι κ).Covers view cell :=
  fun _ _ => Nat.zero_le _

theorem Covers.mono (hcovers : clocks.Covers view cell) (hle : view ≤ view') :
    clocks.Covers view' cell :=
  fun access thread => (hcovers access thread).trans (hle _)

theorem CoversOthers.mono (hcovers : clocks.CoversOthers self view cell) (hle : view ≤ view') :
    clocks.CoversOthers self view' cell :=
  fun access thread hne => (hcovers access thread hne).trans (hle _)

theorem Covers.others (hcovers : clocks.Covers view cell) (self : τ) :
    clocks.CoversOthers self view cell :=
  fun access thread _ => hcovers access thread

/-- A thread that knows all that happened to a cell may access it in any way. -/
theorem Covers.safe (hcovers : clocks.Covers (clocks.view thread) cell) (access : Access) :
    clocks.Safe thread cell access := by
  cases access with
  | read => exact hcovers .write
  | write => exact hcovers

/-- A thread knows what it did itself. -/
theorem CoversOthers.covers (hcovers : clocks.CoversOthers thread (clocks.view thread) cell)
    (hsound : clocks.Sound) : clocks.Covers (clocks.view thread) cell := by
  intro access other
  by_cases hself : other = thread
  · rw [hself]
    exact hsound.own thread cell access
  · exact hcovers access other hself

theorem Covers.congr (hcovers : clocks.Covers view cell)
    (hsame : next.accessed cell = clocks.accessed cell) : next.Covers view cell := by
  unfold Covers
  rw [hsame]
  exact hcovers

theorem CoversOthers.congr (hcovers : clocks.CoversOthers self view cell)
    (hsame : next.accessed cell = clocks.accessed cell) : next.CoversOthers self view cell := by
  unfold CoversOthers
  rw [hsame]
  exact hcovers

end Covering

section Operations

variable {clocks : Clocks τ ι κ} {thread other : τ} {location place : ι} {cell cell' : κ}
  {news : View τ ι}

theorem Evolves.trans {next later : Clocks τ ι κ} (hfirst : clocks.Evolves next)
    (hsecond : next.Evolves later) : clocks.Evolves later where
  view thread := (hfirst.view thread).trans (hsecond.view thread)
  last location := (hfirst.last location).trans (hsecond.last location)
  attached location idx hle := by
    rw [hsecond.attached location idx (hle.trans (hfirst.last location)),
      hfirst.attached location idx hle]

/-- The store that a load reads: the one that is `age` stores before the last, or the latest
that the thread has seen. -/
def pick (clocks : Clocks τ ι κ) (thread : τ) (location : ι) (age : ℕ) : ℕ :=
  max (clocks.view thread (.stores location)) (clocks.last location - age)

theorem le_pick (clocks : Clocks τ ι κ) (thread : τ) (location : ι) (age : ℕ) :
    clocks.view thread (.stores location) ≤ clocks.pick thread location age :=
  Nat.le_max_left _ _

theorem Sound.pick_le (hsound : clocks.Sound) (thread : τ) (location : ι) (age : ℕ) :
    clocks.pick thread location age ≤ clocks.last location :=
  Nat.max_le.mpr ⟨hsound.seen_le thread location, Nat.sub_le _ _⟩

/-- A load that looks at the last store reads it. -/
theorem Sound.pick_zero (hsound : clocks.Sound) (thread : τ) (location : ι) :
    clocks.pick thread location 0 = clocks.last location :=
  Nat.max_eq_right (hsound.seen_le thread location)

/-- The stores that were made, without what is known of them. Where every load reads the last
store, nothing else decides how the program goes on. -/
def forget (clocks : Clocks τ ι κ) : Clocks τ ι κ :=
  { initial with last := clocks.last }

@[simp]
theorem last_forget (clocks : Clocks τ ι κ) : clocks.forget.last = clocks.last := rfl

theorem pick_forget (clocks : Clocks τ ι κ) (thread : τ) (location : ι) :
    clocks.forget.pick thread location 0 = clocks.last location :=
  Nat.max_eq_right (Nat.zero_le _)

variable [DecidableEq τ]

/-- A thread learns something. -/
def learn (clocks : Clocks τ ι κ) (thread : τ) (news : View τ ι) : Clocks τ ι κ :=
  { clocks with view := Function.update clocks.view thread (clocks.view thread ⊔ news) }

@[simp]
theorem view_learn_self (clocks : Clocks τ ι κ) (thread : τ) (news : View τ ι) :
    (clocks.learn thread news).view thread = clocks.view thread ⊔ news :=
  Function.update_self ..

theorem view_learn_of_ne (hne : other ≠ thread) (clocks : Clocks τ ι κ) (news : View τ ι) :
    (clocks.learn thread news).view other = clocks.view other :=
  Function.update_of_ne hne ..

theorem evolves_learn (clocks : Clocks τ ι κ) (thread : τ) (news : View τ ι) :
    clocks.Evolves (clocks.learn thread news) where
  view other := by
    by_cases hself : other = thread
    · rw [hself, view_learn_self]
      exact le_sup_left
    · rw [view_learn_of_ne hself]
  last _ := Nat.le_refl _
  attached _ _ _ := rfl

/-- Learning keeps the clocks sound when no store is seen that was not made. -/
theorem Sound.learn (hsound : clocks.Sound)
    (hnews : ∀ location, news (.stores location) ≤ clocks.last location) :
    (clocks.learn thread news).Sound where
  seen_le other location := by
    by_cases hself : other = thread
    · rw [hself, view_learn_self]
      exact Nat.max_le.mpr ⟨hsound.seen_le thread location, hnews location⟩
    · rw [view_learn_of_ne hself]
      exact hsound.seen_le other location
  attached_le := hsound.attached_le
  self_le := hsound.self_le
  own other cell access :=
    (hsound.own other cell access).trans
      ((clocks.evolves_learn thread news).view other (.accesses other))

variable [DecidableEq ι]

/-- Having seen a store. -/
def sight (location : ι) (idx : ℕ) : View τ ι :=
  fun tally => if tally = .stores location then idx else 0

def load (clocks : Clocks τ ι κ) (order : LoadOrder) (thread : τ) (location : ι) (age : ℕ) :
    Clocks τ ι κ :=
  let idx := clocks.pick thread location age
  match order with
  | .relaxed => clocks.learn thread (sight location idx)
  | .acquire => clocks.learn thread (sight location idx ⊔ clocks.attached location idx)

theorem sight_le_iff {view : View τ ι} {idx : ℕ} :
    sight location idx ≤ view ↔ idx ≤ view (.stores location) := by
  constructor
  · intro hle
    have hhere := hle (.stores location)
    rwa [sight, if_pos rfl] at hhere
  · intro hle tally
    unfold sight
    split
    · rename_i heq
      rw [heq]
      exact hle
    · exact Nat.zero_le _

theorem evolves_load (clocks : Clocks τ ι κ) (order : LoadOrder) (thread : τ) (location : ι)
    (age : ℕ) : clocks.Evolves (clocks.load order thread location age) := by
  cases order with
  | relaxed => exact clocks.evolves_learn thread _
  | acquire => exact clocks.evolves_learn thread _

@[simp]
theorem accessed_load (clocks : Clocks τ ι κ) (order : LoadOrder) (thread : τ) (location : ι)
    (age : ℕ) : (clocks.load order thread location age).accessed = clocks.accessed := by
  cases order <;> rfl

@[simp]
theorem last_load (clocks : Clocks τ ι κ) (order : LoadOrder) (thread : τ) (location : ι)
    (age : ℕ) : (clocks.load order thread location age).last = clocks.last := by
  cases order <;> rfl

@[simp]
theorem attached_load (clocks : Clocks τ ι κ) (order : LoadOrder) (thread : τ) (location : ι)
    (age : ℕ) : (clocks.load order thread location age).attached = clocks.attached := by
  cases order <;> rfl

theorem view_load_of_ne (hne : other ≠ thread) (clocks : Clocks τ ι κ) (order : LoadOrder)
    (location : ι) (age : ℕ) :
    (clocks.load order thread location age).view other = clocks.view other := by
  cases order with
  | relaxed => exact view_learn_of_ne hne clocks _
  | acquire => exact view_learn_of_ne hne clocks _

/-- A load has seen the store that it read. -/
theorem pick_le_view_load (clocks : Clocks τ ι κ) (order : LoadOrder) (thread : τ) (location : ι)
    (age : ℕ) : clocks.pick thread location age ≤
      (clocks.load order thread location age).view thread (.stores location) := by
  apply sight_le_iff.mp
  cases order with
  | relaxed =>
      rw [load, view_learn_self]
      exact le_sup_right
  | acquire =>
      rw [load, view_learn_self]
      exact le_sup_left.trans le_sup_right

/-- A load that acquires knows what is attached to the store that it read. -/
theorem attached_le_view_load (clocks : Clocks τ ι κ) (thread : τ) (location : ι) (age : ℕ) :
    clocks.attached location (clocks.pick thread location age) ≤
      (clocks.load .acquire thread location age).view thread := by
  rw [load, view_learn_self]
  exact le_sup_right.trans le_sup_right

theorem Sound.load (hsound : clocks.Sound) (order : LoadOrder) (thread : τ) (location : ι)
    (age : ℕ) : (clocks.load order thread location age).Sound := by
  have hpick := hsound.pick_le thread location age
  have hsight : ∀ place : ι,
      (sight location (clocks.pick thread location age) : View τ ι) (.stores place) ≤
        clocks.last place := by
    intro place
    unfold sight
    split
    · rename_i heq
      cases heq
      exact hpick
    · exact Nat.zero_le _
  cases order with
  | relaxed => exact hsound.learn hsight
  | acquire =>
      apply hsound.learn
      intro place
      exact Nat.max_le.mpr ⟨hsight place, hsound.attached_le location _ place hpick⟩

/-- A store that releases. -/
def store (clocks : Clocks τ ι κ) (thread : τ) (location : ι) : Clocks τ ι κ :=
  let idx := clocks.last location + 1
  let view := clocks.view thread ⊔ sight location idx
  { clocks with
    view := Function.update clocks.view thread view
    last := Function.update clocks.last location idx
    attached := Function.update clocks.attached location
      (Function.update (clocks.attached location) idx view) }

@[simp]
theorem last_store_self (clocks : Clocks τ ι κ) (thread : τ) (location : ι) :
    (clocks.store thread location).last location = clocks.last location + 1 :=
  Function.update_self ..

theorem last_store_of_ne (hne : place ≠ location) (clocks : Clocks τ ι κ) (thread : τ) :
    (clocks.store thread location).last place = clocks.last place :=
  Function.update_of_ne hne ..

theorem attached_store_of_ne (hne : place ≠ location) (clocks : Clocks τ ι κ) (thread : τ) :
    (clocks.store thread location).attached place = clocks.attached place :=
  Function.update_of_ne hne ..

theorem view_store_of_ne (hne : other ≠ thread) (clocks : Clocks τ ι κ) (location : ι) :
    (clocks.store thread location).view other = clocks.view other :=
  Function.update_of_ne hne ..

/-- A store attaches what its thread knows then. -/
theorem attached_store_self (clocks : Clocks τ ι κ) (thread : τ) (location : ι) :
    (clocks.store thread location).attached location (clocks.last location + 1) =
      (clocks.store thread location).view thread := by
  rw [store]
  dsimp only
  rw [Function.update_self, Function.update_self, Function.update_self]

theorem attached_store_of_le {idx : ℕ} (hle : idx ≤ clocks.last location) :
    (clocks.store thread location).attached location idx = clocks.attached location idx := by
  rw [store]
  dsimp only
  rw [Function.update_self, Function.update_of_ne (Nat.ne_of_lt (Nat.lt_succ_of_le hle))]

theorem view_le_view_store (clocks : Clocks τ ι κ) (thread : τ) (location : ι) (other : τ) :
    clocks.view other ≤ (clocks.store thread location).view other := by
  by_cases hself : other = thread
  · rw [hself, store]
    dsimp only
    rw [Function.update_self]
    exact le_sup_left
  · rw [view_store_of_ne hself]

/-- A thread has seen its own store. -/
theorem seen_store_self (clocks : Clocks τ ι κ) (thread : τ) (location : ι) :
    clocks.last location + 1 ≤ (clocks.store thread location).view thread (.stores location) := by
  apply sight_le_iff.mp
  rw [store]
  dsimp only
  rw [Function.update_self]
  exact le_sup_right

theorem evolves_store (clocks : Clocks τ ι κ) (thread : τ) (location : ι) :
    clocks.Evolves (clocks.store thread location) where
  view := clocks.view_le_view_store thread location
  last place := by
    by_cases hself : place = location
    · rw [hself, last_store_self]
      exact Nat.le_succ _
    · rw [last_store_of_ne hself]
  attached place idx hle := by
    by_cases hself : place = location
    · subst hself
      exact attached_store_of_le hle
    · rw [attached_store_of_ne hself]

@[simp]
theorem accessed_store (clocks : Clocks τ ι κ) (thread : τ) (location : ι) :
    (clocks.store thread location).accessed = clocks.accessed := rfl

omit [DecidableEq τ] [DecidableEq ι] in
theorem Ordered.evolve {next : Clocks τ ι κ} (hordered : clocks.Ordered location)
    (hevolves : clocks.Evolves next) (hlast : next.last location = clocks.last location) :
    next.Ordered location := by
  intro first second hle hsecond
  rw [hlast] at hsecond
  rw [hevolves.attached _ _ (hle.trans hsecond), hevolves.attached _ _ hsecond]
  exact hordered first second hle hsecond

/-- A store by a thread that knows what the store before it carries. -/
theorem Ordered.store (hordered : clocks.Ordered location)
    (hknown : clocks.attached location (clocks.last location) ≤ clocks.view thread) :
    (clocks.store thread location).Ordered location := by
  intro first second hle hsecond
  rw [last_store_self] at hsecond
  rcases Nat.lt_or_ge (clocks.last location) second with hnew | hold
  · obtain rfl : second = clocks.last location + 1 := Nat.le_antisymm hsecond hnew
    rcases Nat.lt_or_ge (clocks.last location) first with hsame | hless
    · obtain rfl : first = clocks.last location + 1 := Nat.le_antisymm hle hsame
      exact le_rfl
    · rw [attached_store_self, attached_store_of_le hless]
      exact ((hordered first _ hless (Nat.le_refl _)).trans hknown).trans
        (clocks.view_le_view_store thread location thread)
  · rw [attached_store_of_le hold, attached_store_of_le (hle.trans hold)]
    exact hordered first second hle hold

theorem Sound.store (hsound : clocks.Sound) (thread : τ) (location : ι) :
    (clocks.store thread location).Sound := by
  have hlast := (clocks.evolves_store thread location).last
  have hview : ∀ place, (clocks.store thread location).view thread (.stores place) ≤
      (clocks.store thread location).last place := by
    intro place
    have hseen := (hsound.seen_le thread place).trans (hlast place)
    rw [Clocks.store] at hseen ⊢
    dsimp only at hseen ⊢
    rw [Function.update_self]
    refine Nat.max_le.mpr ⟨hseen, ?_⟩
    unfold sight
    split
    · rename_i heq
      cases heq
      rw [Function.update_self]
    · exact Nat.zero_le _
  constructor
  · intro other place
    by_cases hself : other = thread
    · rw [hself]
      exact hview place
    · rw [view_store_of_ne hself]
      exact (hsound.seen_le other place).trans (hlast place)
  · intro place idx other hidx
    by_cases hself : place = location
    · subst hself
      rw [last_store_self] at hidx
      rcases Nat.lt_or_ge (clocks.last place) idx with hnew | hold
      · obtain rfl : idx = clocks.last place + 1 := Nat.le_antisymm hidx hnew
        rw [attached_store_self]
        exact hview other
      · rw [attached_store_of_le hold]
        exact (hsound.attached_le place idx other hold).trans (hlast other)
    · rw [last_store_of_ne hself] at hidx
      rw [attached_store_of_ne hself]
      exact (hsound.attached_le place idx other hidx).trans (hlast other)
  · intro place idx hidx
    by_cases hself : place = location
    · subst hself
      rw [last_store_self] at hidx
      rcases Nat.lt_or_ge (clocks.last place) idx with hnew | hold
      · obtain rfl : idx = clocks.last place + 1 := Nat.le_antisymm hidx hnew
        rw [attached_store_self]
        exact clocks.seen_store_self thread place
      · rw [attached_store_of_le hold]
        exact hsound.self_le place idx hold
    · rw [last_store_of_ne hself] at hidx
      rw [attached_store_of_ne hself]
      exact hsound.self_le place idx hidx
  · intro other cell access
    exact (hsound.own other cell access).trans
      (clocks.view_le_view_store thread location other (.accesses other))

/-- An exchange that succeeds: it acquires from the last store and releases. -/
def exchange (clocks : Clocks τ ι κ) (thread : τ) (location : ι) : Clocks τ ι κ :=
  (clocks.load .acquire thread location 0).store thread location

theorem evolves_exchange (clocks : Clocks τ ι κ) (thread : τ) (location : ι) :
    clocks.Evolves (clocks.exchange thread location) :=
  (clocks.evolves_load .acquire thread location 0).trans (evolves_store _ thread location)

theorem Sound.exchange (hsound : clocks.Sound) (thread : τ) (location : ι) :
    (clocks.exchange thread location).Sound :=
  (hsound.load .acquire thread location 0).store thread location

@[simp]
theorem accessed_exchange (clocks : Clocks τ ι κ) (thread : τ) (location : ι) :
    (clocks.exchange thread location).accessed = clocks.accessed := rfl

@[simp]
theorem last_exchange_self (clocks : Clocks τ ι κ) (thread : τ) (location : ι) :
    (clocks.exchange thread location).last location = clocks.last location + 1 := by
  rw [exchange, last_store_self, last_load]

theorem last_exchange_of_ne (hne : place ≠ location) (clocks : Clocks τ ι κ) (thread : τ) :
    (clocks.exchange thread location).last place = clocks.last place := by
  rw [exchange, last_store_of_ne hne, last_load]

theorem view_exchange_of_ne (hne : other ≠ thread) (clocks : Clocks τ ι κ) (location : ι) :
    (clocks.exchange thread location).view other = clocks.view other := by
  rw [exchange, view_store_of_ne hne, view_load_of_ne hne]

/-- An exchange attaches what its thread knows then. -/
theorem attached_exchange_self (clocks : Clocks τ ι κ) (thread : τ) (location : ι) :
    (clocks.exchange thread location).attached location (clocks.last location + 1) =
      (clocks.exchange thread location).view thread := by
  rw [exchange, ← attached_store_self, last_load]

/-- A thread has seen its own exchange. -/
theorem seen_exchange_self (clocks : Clocks τ ι κ) (thread : τ) (location : ι) :
    clocks.last location + 1 ≤
      (clocks.exchange thread location).view thread (.stores location) := by
  have hseen := (clocks.load .acquire thread location 0).seen_store_self thread location
  rwa [last_load] at hseen

/-- An exchange knows what is attached to the store before it. -/
theorem Sound.attached_le_view_exchange (hsound : clocks.Sound) (thread : τ) (location : ι) :
    clocks.attached location (clocks.last location) ≤
      (clocks.exchange thread location).view thread := by
  have hload := clocks.attached_le_view_load thread location 0
  rw [hsound.pick_zero] at hload
  exact hload.trans (view_le_view_store _ thread location thread)

/-- A thread counts one more access. -/
def tick (clocks : Clocks τ ι κ) (thread : τ) : Clocks τ ι κ :=
  clocks.learn thread fun tally =>
    if tally = .accesses thread then clocks.view thread (.accesses thread) + 1 else 0

theorem evolves_tick (clocks : Clocks τ ι κ) (thread : τ) : clocks.Evolves (clocks.tick thread) :=
  clocks.evolves_learn thread _

theorem Sound.tick (hsound : clocks.Sound) (thread : τ) : (clocks.tick thread).Sound :=
  hsound.learn fun _ => Nat.zero_le _

variable [DecidableEq κ]

def access (clocks : Clocks τ ι κ) (thread : τ) (cell : κ) (access : Access) : Clocks τ ι κ :=
  let clocks := clocks.tick thread
  { clocks with
    accessed := Function.update clocks.accessed cell
      (Function.update (clocks.accessed cell) access
        (Function.update (clocks.accessed cell access) thread
          (clocks.view thread (.accesses thread)))) }

theorem evolves_access (clocks : Clocks τ ι κ) (thread : τ) (cell : κ) (access : Access) :
    clocks.Evolves (clocks.access thread cell access) :=
  ⟨(clocks.evolves_tick thread).view, fun _ => Nat.le_refl _, fun _ _ _ => rfl⟩

theorem view_access_of_ne (hne : other ≠ thread) (clocks : Clocks τ ι κ) (cell : κ)
    (access : Access) : (clocks.access thread cell access).view other = clocks.view other :=
  view_learn_of_ne hne clocks _

@[simp]
theorem last_access (clocks : Clocks τ ι κ) (thread : τ) (cell : κ) (access : Access) :
    (clocks.access thread cell access).last = clocks.last := rfl

@[simp]
theorem attached_access (clocks : Clocks τ ι κ) (thread : τ) (cell : κ) (access : Access) :
    (clocks.access thread cell access).attached = clocks.attached := rfl

theorem accessed_access_of_ne (hne : cell' ≠ cell) (clocks : Clocks τ ι κ) (thread : τ)
    (access : Access) : (clocks.access thread cell access).accessed cell' = clocks.accessed cell' :=
  Function.update_of_ne hne ..

/-- What is recorded of an access is the number of accesses of its thread. -/
theorem accessed_access_self (clocks : Clocks τ ι κ) (thread : τ) (cell : κ)
    (access kind : Access) (other : τ) :
    (clocks.access thread cell access).accessed cell kind other =
      if kind = access ∧ other = thread then
        (clocks.access thread cell access).view thread (.accesses thread)
      else clocks.accessed cell kind other := by
  have hcell : (clocks.access thread cell access).accessed cell =
      Function.update (clocks.accessed cell) access
        (Function.update (clocks.accessed cell access) thread
          ((clocks.access thread cell access).view thread (.accesses thread))) :=
    Function.update_self ..
  rw [hcell]
  by_cases hkind : kind = access
  · subst hkind
    rw [Function.update_self]
    by_cases hself : other = thread
    · rw [hself, Function.update_self, if_pos ⟨rfl, rfl⟩]
    · rw [Function.update_of_ne hself, if_neg fun h => hself h.2]
  · rw [Function.update_of_ne hkind, if_neg fun h => hkind h.1]

/-- An access by the thread itself is covered by what it knows then. -/
theorem Covers.access (hcovers : clocks.Covers (clocks.view thread) cell) (access : Access) :
    (clocks.access thread cell access).Covers
      ((clocks.access thread cell access).view thread) cell := by
  intro kind other
  rw [accessed_access_self]
  split
  · rename_i hself
    rw [hself.2]
  · exact (hcovers kind other).trans
      ((clocks.evolves_access thread cell access).view thread (.accesses other))

/-- An access of a thread is nothing that another thread did. -/
theorem CoversOthers.access {view : View τ ι} (hcovers : clocks.CoversOthers thread view cell)
    (access : Access) : (clocks.access thread cell access).CoversOthers thread view cell := by
  intro kind other hne
  rw [accessed_access_self, if_neg fun h => hne h.2]
  exact hcovers kind other hne

theorem Sound.access (hsound : clocks.Sound) (thread : τ) (cell : κ) (access : Access) :
    (clocks.access thread cell access).Sound := by
  have htick := hsound.tick thread
  refine ⟨htick.seen_le, htick.attached_le, htick.self_le, fun other cell' kind => ?_⟩
  by_cases hcell : cell' = cell
  · subst hcell
    rw [accessed_access_self]
    split
    · rename_i hself
      rw [hself.2]
    · exact htick.own other cell' kind
  · rw [accessed_access_of_ne hcell]
    exact htick.own other cell' kind

/-! ## One access -/

/-- One access of a thread that stores to some of the locations and uses some of the cells. What
it does not store to itself it loads with acquire. -/
inductive Act (thread : τ) (locations : ι → Prop) (cells : κ → Prop) (clocks : Clocks τ ι κ) :
    Clocks τ ι κ → Prop
  | relaxed (location : ι) (age : ℕ) (hlocation : locations location) :
      Act thread locations cells clocks (clocks.load .relaxed thread location age)
  | acquire (location : ι) (age : ℕ) :
      Act thread locations cells clocks (clocks.load .acquire thread location age)
  | store (location : ι) (hlocation : locations location) :
      Act thread locations cells clocks (clocks.store thread location)
  | exchange (location : ι) (hlocation : locations location) :
      Act thread locations cells clocks (clocks.exchange thread location)
  | access (cell : κ) (kind : Access) (hcell : cells cell) :
      Act thread locations cells clocks (clocks.access thread cell kind)

namespace Act

variable {next : Clocks τ ι κ} {locations : ι → Prop} {cells : κ → Prop}

theorem evolves (hact : Act thread locations cells clocks next) : clocks.Evolves next := by
  cases hact with
  | relaxed location age => exact clocks.evolves_load .relaxed thread location age
  | acquire location age => exact clocks.evolves_load .acquire thread location age
  | store location => exact clocks.evolves_store thread location
  | exchange location => exact clocks.evolves_exchange thread location
  | access cell kind => exact clocks.evolves_access thread cell kind

theorem sound (hact : Act thread locations cells clocks next) (hsound : clocks.Sound) :
    next.Sound := by
  cases hact with
  | relaxed location age => exact hsound.load .relaxed thread location age
  | acquire location age => exact hsound.load .acquire thread location age
  | store location => exact hsound.store thread location
  | exchange location => exact hsound.exchange thread location
  | access cell kind => exact hsound.access thread cell kind

/-- The other locations get no store. -/
theorem last_eq (hact : Act thread locations cells clocks next) (hother : ¬ locations place) :
    next.last place = clocks.last place := by
  cases hact with
  | relaxed location age => rw [last_load]
  | acquire location age => rw [last_load]
  | store location hlocation =>
      have hne : place ≠ location := fun hsame => hother (hsame ▸ hlocation)
      exact last_store_of_ne hne clocks thread
  | exchange location hlocation =>
      have hne : place ≠ location := fun hsame => hother (hsame ▸ hlocation)
      exact last_exchange_of_ne hne clocks thread
  | access cell kind => rfl

/-- The other cells are not used. -/
theorem accessed_eq (hact : Act thread locations cells clocks next) (hother : ¬ cells cell) :
    next.accessed cell = clocks.accessed cell := by
  cases hact with
  | relaxed location age => rw [accessed_load]
  | acquire location age => rw [accessed_load]
  | store location => rfl
  | exchange location => rfl
  | access used kind hcell =>
      have hne : cell ≠ used := fun hsame => hother (hsame ▸ hcell)
      exact accessed_access_of_ne hne clocks thread kind

/-- The other threads learn nothing. -/
theorem view_eq (hact : Act thread locations cells clocks next) (hother : other ≠ thread) :
    next.view other = clocks.view other := by
  cases hact with
  | relaxed location age => exact view_load_of_ne hother clocks .relaxed location age
  | acquire location age => exact view_load_of_ne hother clocks .acquire location age
  | store location => exact view_store_of_ne hother clocks location
  | exchange location => exact view_exchange_of_ne hother clocks location
  | access cell kind => exact view_access_of_ne hother clocks cell kind

end Act

namespace Everywhere

variable {holds : View τ ι → Prop} {next : Clocks τ ι κ} {locations : ι → Prop} {cells : κ → Prop}

omit [DecidableEq ι] [DecidableEq κ] in
theorem learn (hevery : clocks.Everywhere holds) (hnews : holds (clocks.view thread ⊔ news)) :
    (clocks.learn thread news).Everywhere holds where
  view other := by
    by_cases hself : other = thread
    · rw [hself, view_learn_self]
      exact hnews
    · rw [view_learn_of_ne hself]
      exact hevery.view other
  attached := hevery.attached

omit [DecidableEq κ] in
/-- A store knows of itself, so that a load which acquires learns what is attached to it and
nothing else. -/
theorem acquire (hevery : clocks.Everywhere holds) (hsound : clocks.Sound)
    (hjoin : ∀ view news, holds view → holds news → holds (view ⊔ news)) (thread : τ)
    (location : ι) (age : ℕ) :
    (clocks.load .acquire thread location age).Everywhere holds := by
  have hpick := hsound.pick_le thread location age
  refine hevery.learn ?_
  rw [sup_eq_right.mpr (sight_le_iff.mpr (hsound.self_le location _ hpick))]
  exact hjoin _ _ (hevery.view thread) (hevery.attached location _ hpick)

omit [DecidableEq κ] in
theorem store (hevery : clocks.Everywhere holds)
    (hnew : holds (clocks.view thread ⊔ sight location (clocks.last location + 1))) :
    (clocks.store thread location).Everywhere holds := by
  have hview : (clocks.store thread location).view thread =
      clocks.view thread ⊔ sight location (clocks.last location + 1) :=
    Function.update_self ..
  constructor
  · intro other
    by_cases hself : other = thread
    · rw [hself, hview]
      exact hnew
    · rw [view_store_of_ne hself]
      exact hevery.view other
  · intro place idx hidx
    by_cases hself : place = location
    · subst hself
      rw [last_store_self] at hidx
      rcases Nat.lt_or_ge (clocks.last place) idx with hlast | hold
      · obtain rfl : idx = clocks.last place + 1 := Nat.le_antisymm hidx hlast
        rw [attached_store_self, hview]
        exact hnew
      · rw [attached_store_of_le hold]
        exact hevery.attached place idx hold
    · rw [last_store_of_ne hself] at hidx
      rw [attached_store_of_ne hself]
      exact hevery.attached place idx hidx

/-- What holds everywhere goes on to do so, if views can be joined and the stores of the thread
keep it. -/
theorem act (hevery : clocks.Everywhere holds) (hsound : clocks.Sound)
    (hjoin : ∀ view news, holds view → holds news → holds (view ⊔ news))
    (hstores : ∀ view view', (∀ place, view' (.stores place) = view (.stores place)) →
      holds view → holds view')
    (hact : Act thread locations cells clocks next)
    (hrelaxed : ∀ place, locations place → ∀ idx, idx ≤ clocks.last place →
      holds (clocks.view thread ⊔ sight place idx))
    (hstore : ∀ place, locations place → ∀ view, clocks.view thread ≤ view → holds view →
      holds (view ⊔ sight place (clocks.last place + 1))) :
    next.Everywhere holds := by
  cases hact with
  | relaxed place age hplace =>
      exact hevery.learn (hrelaxed place hplace _ (hsound.pick_le thread place age))
  | acquire place age => exact hevery.acquire hsound hjoin thread place age
  | store place hplace =>
      exact hevery.store (hstore place hplace _ le_rfl (hevery.view thread))
  | exchange place hplace =>
      have hload := hevery.acquire hsound hjoin thread place 0
      refine hload.store ?_
      rw [last_load]
      exact hstore place hplace _ ((clocks.evolves_load .acquire thread place 0).view thread)
        (hload.view thread)
  | access cell kind =>
      have htick : (clocks.tick thread).Everywhere holds := by
        refine hevery.learn (hstores (clocks.view thread) _ (fun place => ?_) (hevery.view thread))
        exact Nat.max_eq_left (Nat.zero_le _)
      exact ⟨htick.view, htick.attached⟩

end Everywhere

end Operations

end Clocks

end Orderbook.Math
