/-
# Packets are delivered once and in order

Datagrams may be lost, repeated, reordered and refused by a full ring. The packets
that reach the ring nevertheless carry sequence numbers that only grow, and a
packet is taken for a duplicate only when the tracker has been past it.
-/

import Mathlib.Order.CompletePartialOrder
import Mathlib.Order.Interval.Set.Disjoint
import Orderbook.Feed.Sequence

namespace Orderbook

open Orderbook.Math

/-- The sequence numbers of the messages of a packet. -/
def Accepted.range (entry : Accepted) : Set ℕ := Set.Ico entry.first entry.next

/-- Along the chain every packet ends before all later ones start. -/
theorem Tracked.pairwise {headers : List MoldHeader} {tracker : Tracker} {log : List Accepted}
    (htracked : Tracked headers tracker log) :
    log.Pairwise fun entry later => entry.next ≤ later.first := by
  have hchain : log.IsChain fun entry later => entry.next ≤ later.first := by
    apply htracked.chain.imp
    rintro entry later (⟨hfirst, _⟩ | ⟨hless, _⟩)
    · exact hfirst.ge
    · exact hless.le
  have : Trans (fun entry later : Accepted => entry.next ≤ later.first)
      (fun entry later : Accepted => entry.next ≤ later.first)
      (fun entry later : Accepted => entry.next ≤ later.first) := by
    constructor
    intro entry between later hfirst hsecond
    exact hfirst.trans ((Nat.le_add_right _ _).trans hsecond)
  exact List.isChain_iff_pairwise.mp hchain

/-- No accepted packet is ahead of the tracker. -/
theorem Tracked.next_le {headers : List MoldHeader} {tracker : Tracker} {log : List Accepted}
    (htracked : Tracked headers tracker log) {entry : Accepted} (hentry : entry ∈ log) :
    entry.next ≤ tracker.nextExpected.toNat := by
  have hpairwise := htracked.pairwise
  obtain ⟨before, last, rfl⟩ : ∃ before last, log = before ++ [last] :=
    (List.eq_nil_or_concat' log).resolve_left (List.ne_nil_of_mem hentry)
  rw [(htracked.last last List.getLast?_concat).1]
  rcases List.mem_append.mp hentry with hold | hnew
  · have hlast := (List.pairwise_append.mp hpairwise).2.2 entry hold last List.mem_cons_self
    exact hlast.trans (Nat.le_add_right _ _)
  · rw [List.mem_singleton.mp hnew]

/-- Once a session is started the expected sequence number never falls. -/
def Advances (state later : FeedState) : Prop :=
  state.sessionInit = true →
    later.sessionInit = true ∧ state.nextExpected ≤ later.nextExpected

theorem Tracks.advances {state : FeedState} {header : Option MoldHeader}
    {pass : Pass FeedState Accepted} (hhandled : Tracks state.tracker header pass)
    (hrange : ∀ hdr, header = some hdr → hdr.InRange) : Advances state pass.state := by
  intro hinit
  have hstart := fun hdr => Tracker.initSession_of_init
    (show state.tracker.sessionInit = true from hinit) hdr
  have hfields : ∀ {tracker : Tracker}, pass.state.tracker = tracker →
      pass.state.sessionInit = tracker.sessionInit ∧
        pass.state.nextExpected = tracker.nextExpected := by
    rintro _ rfl
    exact ⟨rfl, rfl⟩
  cases hhandled with
  | unseen htracker _ =>
      obtain ⟨hsession, hnext⟩ := hfields htracker
      rw [hsession, hnext]
      exact ⟨hinit, UInt64.le_refl _⟩
  | refused hdr hverdict htracker _ =>
      obtain ⟨hsession, hnext⟩ := hfields htracker
      rw [hsession, hnext, (Tracker.after_of_refused hverdict).2.1, hstart]
      exact ⟨Tracker.sessionInit_after _ _, UInt64.le_refl _⟩
  | accepted hdr entry hverdict htracker _ _ _ =>
      obtain ⟨hsession, hnext⟩ := hfields htracker
      have hle := (Tracker.of_accepted hverdict).1
      rw [hstart] at hle
      have hafter : (state.tracker.after hdr).nextExpected =
          hdr.sequenceNumber + hdr.messageCount.toUInt64 := by
        unfold Tracker.after
        rw [hverdict]
      rw [hsession, hnext, hafter]
      refine ⟨Tracker.sessionInit_after _ _, UInt64.le_iff_toNat_le.mpr ?_⟩
      rw [(hrange hdr rfl).toNat_next]
      exact (UInt64.le_iff_toNat_le.mp hle).trans (Nat.le_add_right _ _)

theorem Tracks.verdict_of_duplicate {tracker : Tracker} {header : Option MoldHeader}
    {pass : Pass FeedState Accepted} (hhandled : Tracks tracker header pass)
    (hignored : pass.state.tracker.duplicatesIgnored ≠ tracker.duplicatesIgnored) :
    ∃ hdr, header = some hdr ∧ tracker.verdict hdr = .duplicate := by
  have hinit : ∀ hdr, (tracker.initSession hdr).duplicatesIgnored =
      tracker.duplicatesIgnored := by
    intro hdr
    unfold Tracker.initSession
    split <;> rfl
  have hafter : ∀ hdr, tracker.verdict hdr ≠ .duplicate →
      (tracker.after hdr).duplicatesIgnored = tracker.duplicatesIgnored := by
    intro hdr hverdict
    rw [← hinit hdr]
    unfold Tracker.after
    cases hresult : tracker.verdict hdr with
    | duplicate => exact absurd hresult hverdict
    | _ => rfl
  cases hhandled with
  | unseen htracker _ => exact absurd (congrArg Tracker.duplicatesIgnored htracker) hignored
  | refused hdr _ htracker _ =>
      refine ⟨hdr, rfl, ?_⟩
      by_contra hverdict
      exact hignored ((congrArg Tracker.duplicatesIgnored htracker).trans (hafter hdr hverdict))
  | accepted hdr entry hverdict htracker _ _ _ =>
      have hnot : tracker.verdict hdr ≠ .duplicate := by
        rw [hverdict]
        decide
      exact absurd ((congrArg Tracker.duplicatesIgnored htracker).trans (hafter hdr hnot))
        hignored

/-- A packet is taken for a duplicate only when it is behind a packet that was
accepted or behind the start of the session. -/
theorem Tracked.behind_of_duplicate {headers : List MoldHeader} {tracker : Tracker}
    {log : List Accepted} (htracked : Tracked headers tracker log) {hdr : MoldHeader}
    (hverdict : tracker.verdict hdr = .duplicate) :
    (∃ entry ∈ log, hdr.sequenceNumber.toNat < entry.next) ∨
      ∃ first, headers.head? = some first ∧ hdr.sequenceNumber < first.sequenceNumber := by
  have hless : hdr.sequenceNumber < (tracker.initSession hdr).nextExpected := by
    unfold Tracker.verdict at hverdict
    split at hverdict
    · cases hverdict
    · split at hverdict
      · cases hverdict
      · split at hverdict
        · assumption
        · cases hverdict
  cases headers with
  | nil =>
      have hinit : ¬ tracker.sessionInit = true := fun h => htracked.started.mp h rfl
      rw [Tracker.initSession, if_neg hinit] at hless
      exact absurd hless (UInt64.lt_irrefl _)
  | cons first rest =>
      have hinit := htracked.started.mpr (List.cons_ne_nil first rest)
      rw [Tracker.initSession_of_init hinit] at hless
      rcases List.eq_nil_or_concat' log with hlog | ⟨before, last, rfl⟩
      · rw [htracked.empty hlog first rfl] at hless
        exact .inr ⟨first, rfl, hless⟩
      · have hnext := (htracked.last last List.getLast?_concat).1
        refine .inl ⟨last, List.mem_append_right _ List.mem_cons_self, ?_⟩
        rw [← hnext]
        exact UInt64.lt_iff_toNat_lt.mp hless

/-- In every run of the socket loop, whatever is received and whatever fails: the
packets pushed carry disjoint and growing ranges of sequence numbers, the expected
sequence number never falls once the session is started and never is below the end
of a packet pushed, and a datagram counts as a duplicate only if it is behind a
packet accepted before it or behind the first header seen. -/
theorem packets_delivered_once (turns : List RecvTurn)
    (hrange : ∀ turn ∈ turns, ∀ hdr, turn.header = some hdr → hdr.InRange) :
    ((runFeedHandler turns).2.filter Accepted.pushed).Pairwise (fun entry later =>
      Disjoint entry.range later.range ∧ entry.first < later.first) ∧
    (∀ past, past <+: turns → (runFeedHandler past).1.sessionInit = true →
      (runFeedHandler past).1.nextExpected ≤ (runFeedHandler turns).1.nextExpected) ∧
    (∀ entry ∈ (runFeedHandler turns).2, entry.pushed = true →
      entry.next ≤ (runFeedHandler turns).1.nextExpected.toNat) ∧
    ∀ past turn, past ++ [turn] <+: turns →
      (receive (runFeedHandler past).1 turn).state.stats.duplicatesIgnored ≠
        (runFeedHandler past).1.stats.duplicatesIgnored →
      ∃ hdr, turn.header = some hdr ∧
        ((∃ entry ∈ (runFeedHandler past).2, hdr.sequenceNumber.toNat < entry.next) ∨
          ∃ first, (past.filterMap RecvTurn.header).head? = some first ∧
            hdr.sequenceNumber < first.sequenceNumber) := by
  obtain ⟨_, _, htracked⟩ := tracked_run receive_handled hrange
  refine ⟨?_, ?_, ?_, ?_⟩
  · apply (htracked.pairwise.imp_of_mem _).filter
    intro entry later hentry _ hle
    have hcount := htracked.counts entry hentry
    have hfirst : entry.first < entry.next := Nat.lt_add_of_pos_right hcount
    have hbounds : min entry.next later.next ≤ max entry.first later.first :=
      (min_le_left _ _).trans (hle.trans (le_max_right _ _))
    exact ⟨Set.Ico_disjoint_Ico.mpr hbounds, hfirst.trans_le hle⟩
  · intro past hpast hinit
    have hadvances : Advances (runFeedHandler past).1 (runFeedHandler turns).1 := by
      apply runUntil_prefix _ _ hpast
      · intro state turn hturn
        exact (receive_handled state turn).advances (hrange turn hturn)
      · exact fun state hinit => ⟨hinit, UInt64.le_refl _⟩
      · intro first second third hfirst hsecond hinit
        obtain ⟨hinit', hle⟩ := hfirst hinit
        obtain ⟨hinit'', hle'⟩ := hsecond hinit'
        exact ⟨hinit'', UInt64.le_trans hle hle'⟩
    exact (hadvances hinit).2
  · exact fun entry hentry _ => htracked.next_le hentry
  · intro past turn hpast hignored
    obtain ⟨hdr, hheader, hverdict⟩ := (receive_handled _ turn).verdict_of_duplicate hignored
    refine ⟨hdr, hheader, ?_⟩
    have hrange' : ∀ turn ∈ past, ∀ hdr, turn.header = some hdr → hdr.InRange :=
      fun other hother => hrange other (hpast.subset (List.mem_append_left _ hother))
    obtain ⟨taken, ⟨rest, htaken⟩, htracked⟩ := tracked_run receive_handled hrange'
    rcases htracked.behind_of_duplicate hverdict with hbehind | ⟨first, hfirst, hless⟩
    · exact .inl hbehind
    · refine .inr ⟨first, ?_, hless⟩
      rw [← htaken, List.filterMap_append, List.head?_append, hfirst]
      rfl

theorem packets_delivered_once_fullRing :
    ((runFeedHandler (fullRing 2)).2.filter Accepted.pushed).Pairwise fun entry later =>
      Disjoint entry.range later.range ∧ entry.first < later.first :=
  (packets_delivered_once (fullRing 2) (fullRing_inRange 2 (by decide)).1).1

end Orderbook
