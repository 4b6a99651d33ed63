/-
# Sequence numbers of accepted packets

Whatever arrives, the packets a handler accepts follow each other: each starts
where the one before it ended, or later, and then one gap was counted. Everything
the handlers promise about order, duplicates and gaps is read off that chain.

The chain is made of the accepted packets. A packet that is accepted and then
dropped, because the ring is full or because the pool is exhausted after the
check, has already moved the tracker on, so the hole it leaves in front of the
next packet is not counted.
-/

import Mathlib.Data.List.Chain
import Orderbook.Feed.FeedHandler

namespace Orderbook

open Orderbook.Math

/-- The part of the state that sequence tracking reads and writes. -/
structure Tracker where
  activeSession : Vector UInt8 10
  sessionInit : Bool
  nextExpected : UInt64
  gapsDetected : ℕ
  duplicatesIgnored : ℕ
  endOfSession : ℕ
  deriving DecidableEq, Repr

namespace FeedState

def tracker (state : FeedState) : Tracker where
  activeSession := state.activeSession
  sessionInit := state.sessionInit
  nextExpected := state.nextExpected
  gapsDetected := state.stats.gapsDetected
  duplicatesIgnored := state.stats.duplicatesIgnored
  endOfSession := state.stats.endOfSession

@[simp]
theorem tracker_countReceived (state : FeedState) (bytes : ℕ) :
    (state.countReceived bytes).tracker = state.tracker := rfl

/-- The end of the session is counted as such, and not as a gap or a duplicate. -/
theorem track_of_end (state : FeedState) (hdr : MoldHeader)
    (hend : hdr.messageCount = kMoldEndOfSession) :
    ∃ next : FeedState, state.track hdr = (next, .endOfSession) ∧
      next.stats.endOfSession = state.stats.endOfSession + 1 ∧
      next.stats.gapsDetected = state.stats.gapsDetected ∧
      next.stats.duplicatesIgnored = state.stats.duplicatesIgnored := by
  have hstats : (state.initSession hdr).stats = state.stats := by
    unfold initSession
    split <;> rfl
  unfold track
  dsimp only
  rw [if_pos hend]
  exact ⟨_, rfl, by rw [hstats], by rw [hstats], by rw [hstats]⟩

end FeedState

namespace Tracker

def initSession (tracker : Tracker) (hdr : MoldHeader) : Tracker :=
  if tracker.sessionInit then tracker
  else
    { tracker with
      activeSession := hdr.session
      sessionInit := true
      nextExpected := hdr.sequenceNumber }

/-- What the sequence check makes of a header. -/
def verdict (tracker : Tracker) (hdr : MoldHeader) : Verdict :=
  if hdr.messageCount = kMoldEndOfSession then .endOfSession
  else if hdr.messageCount = kMoldHeartbeat then .heartbeat
  else if hdr.sequenceNumber < (tracker.initSession hdr).nextExpected then .duplicate
  else .accepted

/-- The tracker after a header. -/
def after (tracker : Tracker) (hdr : MoldHeader) : Tracker :=
  let started := tracker.initSession hdr
  match tracker.verdict hdr with
  | .endOfSession => { started with endOfSession := started.endOfSession + 1 }
  | .heartbeat => started
  | .duplicate => { started with duplicatesIgnored := started.duplicatesIgnored + 1 }
  | .accepted =>
      { started with
        gapsDetected :=
          started.gapsDetected + if started.nextExpected < hdr.sequenceNumber then 1 else 0
        nextExpected := hdr.sequenceNumber + hdr.messageCount.toUInt64 }

end Tracker

namespace FeedState

theorem tracker_initSession (state : FeedState) (hdr : MoldHeader) :
    (state.initSession hdr).tracker = state.tracker.initSession hdr := by
  have hinit : state.tracker.sessionInit = state.sessionInit := rfl
  unfold initSession Tracker.initSession
  rw [hinit]
  split <;> rfl

/-- The sequence check depends on the tracker only. -/
theorem track_eq (state : FeedState) (hdr : MoldHeader) :
    (state.track hdr).2 = state.tracker.verdict hdr ∧
      (state.track hdr).1.tracker = state.tracker.after hdr := by
  have hinit := state.tracker_initSession hdr
  have hnext : (state.initSession hdr).nextExpected =
      (state.tracker.initSession hdr).nextExpected := congrArg Tracker.nextExpected hinit
  unfold track Tracker.after Tracker.verdict
  dsimp only
  rw [← hnext, ← hinit]
  generalize state.initSession hdr = started
  split
  · exact ⟨rfl, rfl⟩
  · split
    · exact ⟨rfl, rfl⟩
    · split
      · exact ⟨rfl, rfl⟩
      · rename_i hnotLess
        refine ⟨rfl, ?_⟩
        unfold resync tracker
        by_cases hgap : hdr.sequenceNumber > started.nextExpected
        · simp [hgap]
        · have hsame : started.nextExpected = hdr.sequenceNumber :=
            UInt64.le_antisymm (UInt64.not_lt.mp hnotLess) (UInt64.not_lt.mp hgap)
          simp [hsame]

end FeedState

/-- What a turn does when it sees a header, or none. -/
inductive Tracks (tracker : Tracker) : Option MoldHeader → Pass FeedState Accepted → Prop
  | unseen {pass : Pass FeedState Accepted} (htracker : pass.state.tracker = tracker)
      (hanswers : pass.answers = []) : Tracks tracker none pass
  | refused (hdr : MoldHeader) {pass : Pass FeedState Accepted}
      (hverdict : tracker.verdict hdr ≠ .accepted)
      (htracker : pass.state.tracker = tracker.after hdr)
      (hanswers : pass.answers = []) : Tracks tracker (some hdr) pass
  | accepted (hdr : MoldHeader) {pass : Pass FeedState Accepted} (entry : Accepted)
      (hverdict : tracker.verdict hdr = .accepted)
      (htracker : pass.state.tracker = tracker.after hdr)
      (hanswers : pass.answers = [entry]) (hheader : entry.header = hdr)
      (hgaps : entry.gapsDetected = (tracker.after hdr).gapsDetected) :
      Tracks tracker (some hdr) pass

/-- What the two loops do once a header is parsed. -/
theorem handled_track (state : FeedState) (bytes : ℕ) (hdr : MoldHeader) (data : List UInt8)
    (ref : PacketRef) (tWire : UInt64) (sentinel pushed : Bool) :
    Tracks state.tracker (some hdr)
      (match (state.countReceived bytes).track hdr with
        | (state, .endOfSession) => endSession state tWire sentinel
        | (state, .heartbeat) => { state }
        | (state, .duplicate) => { state }
        | (state, .accepted) => pushPacket state hdr data ref pushed) := by
  obtain ⟨hverdict, htracker⟩ := (state.countReceived bytes).track_eq hdr
  rw [FeedState.tracker_countReceived] at hverdict htracker
  generalize (state.countReceived bytes).track hdr = result at hverdict htracker ⊢
  obtain ⟨next, verdict⟩ := result
  dsimp only at hverdict htracker
  cases verdict with
  | endOfSession => exact .refused hdr (by rw [← hverdict]; decide) htracker rfl
  | heartbeat => exact .refused hdr (by rw [← hverdict]; decide) htracker rfl
  | duplicate => exact .refused hdr (by rw [← hverdict]; decide) htracker rfl
  | accepted =>
      refine .accepted hdr _ hverdict.symm ?_ rfl rfl (congrArg Tracker.gapsDetected htracker)
      rw [← htracker]
      unfold pushPacket
      cases pushed <;> rfl

/-- The header a turn of the socket loop gets to see. -/
def RecvTurn.header (turn : RecvTurn) : Option MoldHeader :=
  match turn.recv with
  | .failed _ => none
  | .datagram payload =>
      if turn.slotIdx = kPoolInvalid ∨ (received payload).length < kMoldHeaderBytes then none
      else some (parseMoldHeader (.ofList (received payload)))

theorem receive_handled (state : FeedState) (turn : RecvTurn) :
    Tracks state.tracker turn.header (receive state turn) := by
  unfold receive RecvTurn.header
  cases hrecv : turn.recv with
  | failed interrupted =>
      by_cases hslot : turn.slotIdx = kPoolInvalid
      · rw [if_pos hslot]
        exact .unseen rfl rfl
      · rw [if_neg hslot]
        exact .unseen rfl rfl
  | datagram payload =>
      by_cases hslot : turn.slotIdx = kPoolInvalid
      · rw [if_pos hslot]
        dsimp only
        rw [if_pos (.inl hslot)]
        split <;> exact .unseen rfl rfl
      · rw [if_neg hslot]
        dsimp only
        by_cases hshort : (received payload).length < kMoldHeaderBytes
        · rw [if_pos hshort, if_pos (.inr hshort)]
          exact .unseen rfl rfl
        · rw [if_neg hshort, if_neg fun h => h.elim hslot hshort]
          exact handled_track state _ _ _ _ _ _ _

/-- The header a frame shows to the frame loop. -/
def FrameTurn.header (port : UInt16) (turn : FrameTurn) : Option MoldHeader :=
  (moldPacket port turn.frame).map fun moldPkt => parseMoldHeader (.ofList moldPkt)

theorem receiveFrame_handled (port : UInt16) (state : FeedState) (turn : FrameTurn) :
    Tracks state.tracker (turn.header port) (receiveFrame port state turn) := by
  unfold receiveFrame FrameTurn.header
  cases moldPacket port turn.frame with
  | none => exact .unseen rfl rfl
  | some moldPkt => exact handled_track state _ _ _ _ _ _ _

namespace Accepted

/-- The sequence number of the first message. -/
def first (entry : Accepted) : ℕ := entry.header.sequenceNumber.toNat

/-- The sequence number after the last message. -/
def next (entry : Accepted) : ℕ := entry.header.next

/-- The packet accepted next starts where this one ends, or a gap is counted in
front of it. -/
def Follows (entry later : Accepted) : Prop :=
  (later.first = entry.next ∧ later.gapsDetected = entry.gapsDetected) ∨
    (entry.next < later.first ∧ later.gapsDetected = entry.gapsDetected + 1)

end Accepted

/-- A packet whose sequence numbers fit. -/
def MoldHeader.InRange (header : MoldHeader) : Prop := header.next < 2 ^ 64

/-- How the tracker stands to the headers seen and the packets accepted so far. -/
structure Tracked (headers : List MoldHeader) (tracker : Tracker) (log : List Accepted) :
    Prop where
  started : tracker.sessionInit = true ↔ headers ≠ []
  chain : log.IsChain Accepted.Follows
  counts : ∀ entry ∈ log, 0 < entry.header.messageCount.toNat
  seen : ∀ entry ∈ log, entry.header ∈ headers
  last : ∀ entry, log.getLast? = some entry →
    tracker.nextExpected.toNat = entry.next ∧ tracker.gapsDetected = entry.gapsDetected
  empty : log = [] → ∀ header, headers.head? = some header →
    tracker.nextExpected = header.sequenceNumber

theorem tracked_initial : Tracked [] (FeedState.tracker {}) [] where
  started := by decide
  chain := .nil
  counts := by simp
  seen := by simp
  last := by simp
  empty := by simp

theorem Tracker.initSession_of_init {tracker : Tracker} (hinit : tracker.sessionInit = true)
    (hdr : MoldHeader) : tracker.initSession hdr = tracker := if_pos hinit

@[simp]
theorem Tracker.sessionInit_initSession (tracker : Tracker) (hdr : MoldHeader) :
    (tracker.initSession hdr).sessionInit = true := by
  unfold initSession
  split
  · assumption
  · rfl

theorem Tracker.sessionInit_after (tracker : Tracker) (hdr : MoldHeader) :
    (tracker.after hdr).sessionInit = true := by
  unfold after
  cases tracker.verdict hdr <;> exact tracker.sessionInit_initSession hdr

/-- Starting the session keeps the tracker in step with the packets accepted. -/
theorem Tracked.initSession {headers : List MoldHeader} {tracker : Tracker}
    {log : List Accepted} (htracked : Tracked headers tracker log) (hdr : MoldHeader) :
    Tracked (headers ++ [hdr]) (tracker.initSession hdr) log := by
  refine ⟨by simp, htracked.chain, htracked.counts,
    fun entry hentry => List.mem_append_left _ (htracked.seen entry hentry), ?_, ?_⟩
  · intro entry hlast
    have hmem := htracked.seen entry (List.mem_of_getLast? hlast)
    have hinit := htracked.started.mpr (List.ne_nil_of_mem hmem)
    rw [tracker.initSession_of_init hinit]
    exact htracked.last entry hlast
  · intro hlog header hhead
    cases headers with
    | nil =>
        have hinit : ¬ tracker.sessionInit = true := fun h => htracked.started.mp h rfl
        rw [Tracker.initSession, if_neg hinit]
        cases hhead
        rfl
    | cons first rest =>
        have hinit := htracked.started.mpr (List.cons_ne_nil first rest)
        rw [tracker.initSession_of_init hinit]
        exact htracked.empty hlog header hhead

/-- A header that is not accepted leaves the expected sequence number and the gap
counter as they are. -/
theorem Tracker.after_of_refused {tracker : Tracker} {hdr : MoldHeader}
    (hverdict : tracker.verdict hdr ≠ .accepted) :
    (tracker.after hdr).sessionInit = (tracker.initSession hdr).sessionInit ∧
      (tracker.after hdr).nextExpected = (tracker.initSession hdr).nextExpected ∧
      (tracker.after hdr).gapsDetected = (tracker.initSession hdr).gapsDetected := by
  unfold Tracker.after
  cases hresult : tracker.verdict hdr with
  | accepted => exact absurd hresult hverdict
  | _ => exact ⟨rfl, rfl, rfl⟩

/-- An accepted header is not behind, and holds messages. -/
theorem Tracker.of_accepted {tracker : Tracker} {hdr : MoldHeader}
    (hverdict : tracker.verdict hdr = .accepted) :
    (tracker.initSession hdr).nextExpected ≤ hdr.sequenceNumber ∧
      0 < hdr.messageCount.toNat := by
  unfold Tracker.verdict at hverdict
  split at hverdict
  · cases hverdict
  · split at hverdict
    · cases hverdict
    · rename_i hcount
      split at hverdict
      · cases hverdict
      · rename_i hnotLess
        refine ⟨UInt64.not_lt.mp hnotLess, Nat.pos_of_ne_zero fun hzero => hcount ?_⟩
        exact UInt16.toNat_inj.mp hzero

theorem MoldHeader.InRange.toNat_next {hdr : MoldHeader} (hrange : hdr.InRange) :
    (hdr.sequenceNumber + hdr.messageCount.toUInt64).toNat = hdr.next := by
  rw [UInt64.toNat_add, UInt16.toNat_toUInt64]
  exact Nat.mod_eq_of_lt hrange

/-- Every turn keeps the chain. -/
theorem Tracked.handled {headers : List MoldHeader} {tracker : Tracker} {log : List Accepted}
    {header : Option MoldHeader} {pass : Pass FeedState Accepted}
    (htracked : Tracked headers tracker log)
    (hrange : ∀ hdr, header = some hdr → hdr.InRange)
    (hhandled : Tracks tracker header pass) :
    Tracked (headers ++ header.toList) pass.state.tracker (log ++ pass.answers) := by
  cases hhandled with
  | unseen htracker hanswers =>
      rw [htracker, hanswers, List.append_nil, Option.toList_none, List.append_nil]
      exact htracked
  | refused hdr hverdict htracker hanswers =>
      have hstarted := htracked.initSession hdr
      obtain ⟨hinit, hnext, hgaps⟩ := Tracker.after_of_refused hverdict
      rw [htracker, hanswers, List.append_nil, Option.toList_some]
      refine ⟨?_, hstarted.chain, hstarted.counts, hstarted.seen, ?_, ?_⟩
      · rw [hinit]
        exact hstarted.started
      · rw [hnext, hgaps]
        exact hstarted.last
      · rw [hnext]
        exact hstarted.empty
  | accepted hdr entry hverdict htracker hanswers hheader hgaps =>
      have hstarted := htracked.initSession hdr
      obtain ⟨hnotBehind, hcount⟩ := Tracker.of_accepted hverdict
      have hafter : (tracker.after hdr).gapsDetected =
            (tracker.initSession hdr).gapsDetected +
              (if (tracker.initSession hdr).nextExpected < hdr.sequenceNumber then 1 else 0) ∧
          (tracker.after hdr).nextExpected =
            hdr.sequenceNumber + hdr.messageCount.toUInt64 := by
        unfold Tracker.after
        rw [hverdict]
        exact ⟨rfl, rfl⟩
      rw [htracker, hanswers, Option.toList_some]
      refine ⟨?_, ?_, ?_, ?_, ?_, ?_⟩
      · simp [tracker.sessionInit_after hdr]
      · rw [List.isChain_append]
        refine ⟨hstarted.chain, .singleton _, ?_⟩
        intro previous hprevious later hlater
        obtain rfl : entry = later := Option.some.inj hlater
        obtain ⟨hnext, hsame⟩ := hstarted.last previous hprevious
        have hle := UInt64.le_iff_toNat_le.mp hnotBehind
        have hfirst : entry.first = hdr.sequenceNumber.toNat := by rw [Accepted.first, hheader]
        rw [Accepted.Follows, hgaps, hafter.1, hsame, hfirst, ← hnext]
        by_cases hgap : (tracker.initSession hdr).nextExpected < hdr.sequenceNumber
        · rw [if_pos hgap]
          exact .inr ⟨UInt64.lt_iff_toNat_lt.mp hgap, rfl⟩
        · rw [if_neg hgap]
          have hge := Nat.le_of_not_lt fun h => hgap (UInt64.lt_iff_toNat_lt.mpr h)
          exact .inl ⟨Nat.le_antisymm hge hle, rfl⟩
      · intro other hother
        rcases List.mem_append.mp hother with hold | hnew
        · exact hstarted.counts other hold
        · rw [List.mem_singleton.mp hnew, hheader]
          exact hcount
      · intro other hother
        rcases List.mem_append.mp hother with hold | hnew
        · exact hstarted.seen other hold
        · rw [List.mem_singleton.mp hnew, hheader]
          exact List.mem_append_right _ (List.mem_singleton.mpr rfl)
      · intro other hlast
        rw [List.getLast?_concat, Option.some.injEq] at hlast
        rw [← hlast, hgaps, Accepted.next, hheader, hafter.2, (hrange hdr rfl).toNat_next]
        exact ⟨rfl, rfl⟩
      · intro hempty
        simp at hempty

/-- In every run the tracker stands in step with the headers seen and the packets
accepted. -/
theorem tracked_run {ι : Type} {header : ι → Option MoldHeader}
    {body : FeedState → ι → Pass FeedState Accepted}
    (hbody : ∀ state turn, Tracks state.tracker (header turn) (body state turn))
    {turns : List ι} (hrange : ∀ turn ∈ turns, ∀ hdr, header turn = some hdr → hdr.InRange) :
    ∃ past, past <+: turns ∧ Tracked (past.filterMap header)
      (runUntil body {} turns).1.tracker (runUntil body {} turns).2 := by
  refine runUntil_invariant
    (fun past (state : FeedState) log => Tracked (past.filterMap header) state.tracker log)
    tracked_initial ?_
  intro past state log turn hturn htracked
  have hmem : turn ∈ turns := hturn.subset (List.mem_append_right _ List.mem_cons_self)
  have hheaders : (past ++ [turn]).filterMap header =
      past.filterMap header ++ (header turn).toList := by
    rw [List.filterMap_append]
    cases hheader : header turn with
    | none => simp [hheader]
    | some hdr => simp [hheader]
  rw [hheaders]
  exact htracked.handled (hrange turn hmem) (hbody state turn)

/-! ## Holes -/

/-- Two packets that were pushed one after the other, and the packets that were
accepted between them and dropped. -/
structure PushedNext (log : List Accepted) (entry : Accepted) (dropped : List Accepted)
    (later : Accepted) : Prop where
  split : ∃ before after, log = before ++ entry :: (dropped ++ later :: after)
  pushed : entry.pushed = true ∧ later.pushed = true
  dropped : ∀ other ∈ dropped, other.pushed = false

/-- A hole between two packets is counted between their pushes. -/
def HoleCounted (entry later : Accepted) : Prop :=
  later.first ≠ entry.next → entry.gapsDetected < later.gapsDetected

/-- Some header starts past the end of the header in front of it. -/
def Jumps : List MoldHeader → Prop
  | header :: later :: headers =>
      header.next < later.sequenceNumber.toNat ∨ Jumps (later :: headers)
  | _ => False

/-- Along the chain the gap counter never falls. It grows where a packet starts past the
end of the one before it, and while it stays the packets leave no room. -/
theorem chain_between {entry later : Accepted} {dropped : List Accepted}
    (hchain : (entry :: (dropped ++ [later])).IsChain Accepted.Follows) :
    entry.gapsDetected ≤ later.gapsDetected ∧
      (entry.gapsDetected < later.gapsDetected ↔
        Jumps ((entry :: (dropped ++ [later])).map Accepted.header)) ∧
      (later.gapsDetected = entry.gapsDetected → later.first =
        entry.next + (dropped.map fun other => other.header.messageCount.toNat).sum) := by
  induction dropped generalizing entry with
  | nil =>
      rw [List.nil_append, List.isChain_pair] at hchain
      change _ ∧ (_ ↔ entry.next < later.first ∨ False) ∧ _
      rw [or_false]
      rcases hchain with ⟨hfirst, hgaps⟩ | ⟨hjump, hgaps⟩
      · exact ⟨hgaps.ge, by omega, fun _ => hfirst⟩
      · exact ⟨by omega, by omega, fun hsame => by omega⟩
  | cons other dropped ih =>
      rw [List.cons_append, List.isChain_cons_cons] at hchain
      obtain ⟨hle, hjumps, hsame⟩ := ih hchain.2
      change _ ∧ (_ ↔ entry.next < other.first ∨
        Jumps ((other :: (dropped ++ [later])).map Accepted.header)) ∧ _
      rw [← hjumps, List.map_cons, List.sum_cons]
      rcases hchain.1 with ⟨hfirst, hgaps⟩ | ⟨hjump, hgaps⟩
      · refine ⟨by omega, by omega, fun hstay => ?_⟩
        have hnext : other.next = other.first + other.header.messageCount.toNat := rfl
        rw [hsame (by omega), hnext, hfirst, Nat.add_assoc]
      · exact ⟨by omega, by omega, fun hstay => by omega⟩

/-- A hole between two pushes is counted exactly when nothing was dropped between
them or another hole is between the packets accepted there. -/
theorem Tracked.holeCounted_iff {headers : List MoldHeader} {tracker : Tracker}
    {log : List Accepted} (htracked : Tracked headers tracker log) {entry later : Accepted}
    {dropped : List Accepted} (hnext : PushedNext log entry dropped later) :
    HoleCounted entry later ↔
      dropped = [] ∨ Jumps ((entry :: (dropped ++ [later])).map Accepted.header) := by
  obtain ⟨before, after, rfl⟩ := hnext.split
  have hchain : (entry :: (dropped ++ [later])).IsChain Accepted.Follows := by
    have hright := htracked.chain.right_of_append
    rw [show entry :: (dropped ++ later :: after) = (entry :: (dropped ++ [later])) ++ after by
      simp] at hright
    exact hright.left_of_append
  obtain ⟨hle, hjumps, hstay⟩ := chain_between hchain
  rw [← hjumps]
  constructor
  · intro hcounted
    by_cases hgap : entry.gapsDetected < later.gapsDetected
    · exact .inr hgap
    · left
      have hfirst := hstay (by omega)
      cases dropped with
      | nil => rfl
      | cons other rest =>
          have hpositive := htracked.counts other (by simp)
          rw [List.map_cons, List.sum_cons] at hfirst
          exact absurd (hcounted (by omega)) hgap
  · rintro (rfl | hgap) hhole
    · rcases Nat.lt_or_eq_of_le hle with hless | hsame
      · exact hless
      · exact absurd (hstay hsame.symm) hhole
    · exact hgap

/-- In every run of either loop, whatever is received and whatever fails, a hole
between two packets pushed one after the other is counted if and only if no packet
that was accepted between them was dropped, or some packet accepted behind the first, up
to the second, starts past the end of the one accepted before it. -/
theorem hole_counted_iff (turns : List RecvTurn) (port : UInt16)
    (batches : List (List FrameTurn)) (entry : Accepted) (dropped : List Accepted)
    (later : Accepted) :
    ((∀ turn ∈ turns, ∀ hdr, turn.header = some hdr → hdr.InRange) →
      PushedNext (runFeedHandler turns).2 entry dropped later →
        (HoleCounted entry later ↔
          dropped = [] ∨ Jumps ((entry :: (dropped ++ [later])).map Accepted.header))) ∧
    ((∀ turn ∈ batches.flatten, ∀ hdr, turn.header port = some hdr → hdr.InRange) →
      PushedNext (runFeedHandlerXdp port batches).2 entry dropped later →
        (HoleCounted entry later ↔
          dropped = [] ∨ Jumps ((entry :: (dropped ++ [later])).map Accepted.header))) := by
  constructor
  · intro hrange hnext
    obtain ⟨_, _, htracked⟩ := tracked_run receive_handled hrange
    exact htracked.holeCounted_iff hnext
  · intro hrange hnext
    obtain ⟨_, _, htracked⟩ := tracked_run (receiveFrame_handled port) hrange
    exact htracked.holeCounted_iff hnext

/-- A packet of one message. -/
def oneMessage (sequenceNumber : UInt64) : MoldHeader where
  session := Vector.replicate 10 0
  sequenceNumber
  messageCount := 1

/-- A turn of the socket loop that receives a packet. -/
def receiveTurn (hdr : MoldHeader) (pushed : Bool) : RecvTurn where
  slotIdx := 0
  recv := .datagram hdr.wire
  pushed

/-- A UDP datagram in an Ethernet frame. Fields that no one reads are zero. -/
def udpFrame (port : UInt16) (payload : List UInt8) : List UInt8 :=
  List.replicate 12 0 ++ wire16 ethPIp ++
    (0x45 :: List.replicate 8 0 ++ [ipProtoUdp] ++ List.replicate 10 0) ++
    ([0, 0] ++ wire16 port ++ [0, 0, 0, 0]) ++ payload

/-- A frame that brings a packet to port 1. -/
def frameTurn (hdr : MoldHeader) (pushed : Bool) : FrameTurn where
  frame := udpFrame 1 hdr.wire
  slotIdx := 0
  pushed

/-- An accepted packet of these runs. -/
def acceptedOne (hdr : MoldHeader) (gapsDetected : ℕ) (pushed : Bool) : Accepted where
  header := hdr
  data := hdr.wire
  ref := ⟨0, 0⟩
  gapsDetected
  pushed

/-- Three packets of one message, the second of which the full ring does not take. The
second and third follow each other. -/
def fullRing (second : UInt64) : List RecvTurn :=
  [receiveTurn (oneMessage 1) true, receiveTurn (oneMessage second) false,
    receiveTurn (oneMessage (second + 1)) true]

/-- The same in one batch of frames. -/
def fullRingFrames (second : UInt64) : List FrameTurn :=
  [frameTurn (oneMessage 1) true, frameTurn (oneMessage second) false,
    frameTurn (oneMessage (second + 1)) true]

theorem fullRing_inRange : ∀ second ∈ [(2 : UInt64), 3],
    (∀ turn ∈ fullRing second, ∀ hdr, turn.header = some hdr → hdr.InRange) ∧
      ∀ turn ∈ [fullRingFrames second].flatten, ∀ hdr, turn.header 1 = some hdr →
        hdr.InRange := by
  have hrange : ∀ sequenceNumber ∈ [(1 : UInt64), 2, 3, 4], ∀ hdr,
      some (oneMessage sequenceNumber) = some hdr → hdr.InRange := by
    intro sequenceNumber hmem hdr hsome
    obtain rfl := Option.some.inj hsome
    have hbound : [(1 : UInt64), 2, 3, 4].Forall fun other =>
        (oneMessage other).next < 2 ^ 64 := by decide
    exact List.forall_iff_forall_mem.mp hbound sequenceNumber hmem
  have hturns : [(2 : UInt64), 3].Forall fun second => ∀ turn ∈ fullRing second,
      ∃ sequenceNumber ∈ [(1 : UInt64), 2, 3, 4],
        turn.header = some (oneMessage sequenceNumber) := by decide +kernel
  have hframes : [(2 : UInt64), 3].Forall fun second => ∀ turn ∈ [fullRingFrames second].flatten,
      ∃ sequenceNumber ∈ [(1 : UInt64), 2, 3, 4],
        turn.header 1 = some (oneMessage sequenceNumber) := by decide +kernel
  rw [List.forall_iff_forall_mem] at hturns hframes
  intro second hsecond
  constructor
  · intro turn hturn hdr hsome
    obtain ⟨sequenceNumber, hmem, hheader⟩ := hturns second hsecond turn hturn
    exact hrange sequenceNumber hmem hdr (hheader.symm.trans hsome)
  · intro turn hturn hdr hsome
    obtain ⟨sequenceNumber, hmem, hheader⟩ := hframes second hsecond turn hturn
    exact hrange sequenceNumber hmem hdr (hheader.symm.trans hsome)

/-- The packets accepted in these runs. -/
def fullRingLog (second : UInt64) (gapsDetected : ℕ) : List Accepted :=
  [acceptedOne (oneMessage 1) 0 true, acceptedOne (oneMessage second) gapsDetected false,
    acceptedOne (oneMessage (second + 1)) gapsDetected true]

theorem fullRing_log : ∀ run ∈ [((2 : UInt64), 0), (3, 1)],
    (runFeedHandler (fullRing run.1)).2 = fullRingLog run.1 run.2 ∧
      (runFeedHandlerXdp 1 [fullRingFrames run.1]).2 = fullRingLog run.1 run.2 := by
  decide +kernel

theorem fullRingLog_pushedNext (second : UInt64) (gapsDetected : ℕ) :
    PushedNext (fullRingLog second gapsDetected) (acceptedOne (oneMessage 1) 0 true)
      [acceptedOne (oneMessage second) gapsDetected false]
      (acceptedOne (oneMessage (second + 1)) gapsDetected true) :=
  ⟨⟨[], [], rfl⟩, ⟨rfl, rfl⟩, fun _ hother => by rw [List.mem_singleton.mp hother]; rfl⟩

theorem fullRing_pushedNext : ∀ run ∈ [((2 : UInt64), 0), (3, 1)],
    PushedNext (runFeedHandler (fullRing run.1)).2 (acceptedOne (oneMessage 1) 0 true)
        [acceptedOne (oneMessage run.1) run.2 false]
        (acceptedOne (oneMessage (run.1 + 1)) run.2 true) ∧
      PushedNext (runFeedHandlerXdp 1 [fullRingFrames run.1]).2
        (acceptedOne (oneMessage 1) 0 true) [acceptedOne (oneMessage run.1) run.2 false]
        (acceptedOne (oneMessage (run.1 + 1)) run.2 true) := by
  intro run hrun
  obtain ⟨hlog, hlogXdp⟩ := fullRing_log run hrun
  rw [hlog, hlogXdp]
  exact ⟨fullRingLog_pushedNext _ _, fullRingLog_pushedNext _ _⟩

/-- The hole in front of the third packet is not counted by either loop. -/
theorem hole_not_counted :
    (∃ turns entry dropped later,
      (∀ turn ∈ turns, ∀ hdr, turn.header = some hdr → hdr.InRange) ∧
        PushedNext (runFeedHandler turns).2 entry dropped later ∧ ¬ HoleCounted entry later) ∧
    ∃ port batches entry dropped later,
      (∀ turn ∈ batches.flatten, ∀ hdr, turn.header port = some hdr → hdr.InRange) ∧
        PushedNext (runFeedHandlerXdp port batches).2 entry dropped later ∧
        ¬ HoleCounted entry later := by
  have hhole : ¬ HoleCounted (acceptedOne (oneMessage 1) 0 true)
      (acceptedOne (oneMessage 3) 0 true) := by
    intro hcounted
    exact Nat.lt_irrefl 0 (hcounted (by decide))
  obtain ⟨hrange, hrangeXdp⟩ := fullRing_inRange 2 (by decide)
  obtain ⟨hnext, hnextXdp⟩ := fullRing_pushedNext (2, 0) (by decide)
  exact ⟨⟨_, _, _, _, hrange, hnext, hhole⟩, ⟨_, _, _, _, _, hrangeXdp, hnextXdp, hhole⟩⟩

/-- Where packet 2 is dropped the hole is not counted. Where packet 2 is lost on its way
and packet 3 is dropped, it is. -/
theorem hole_counted_iff_fullRing :
    (PushedNext (runFeedHandler (fullRing 2)).2 (acceptedOne (oneMessage 1) 0 true)
        [acceptedOne (oneMessage 2) 0 false] (acceptedOne (oneMessage 3) 0 true) ∧
      ¬ HoleCounted (acceptedOne (oneMessage 1) 0 true) (acceptedOne (oneMessage 3) 0 true)) ∧
    PushedNext (runFeedHandlerXdp 1 [fullRingFrames 3]).2 (acceptedOne (oneMessage 1) 0 true)
        [acceptedOne (oneMessage 3) 1 false] (acceptedOne (oneMessage 4) 1 true) ∧
      HoleCounted (acceptedOne (oneMessage 1) 0 true) (acceptedOne (oneMessage 4) 1 true) := by
  have hsteady : ¬ ([acceptedOne (oneMessage 2) 0 false] = [] ∨
      Jumps [oneMessage 1, oneMessage 2, oneMessage 3]) := by
    rintro (hnone | hjump | hjump | hnever)
    · cases hnone
    · exact absurd hjump (by decide)
    · exact absurd hjump (by decide)
    · exact hnever
  have hjumps : Jumps [oneMessage 1, oneMessage 3, oneMessage 4] := .inl (by decide)
  have hdropped := (fullRing_pushedNext (2, 0) (by decide)).1
  have hlost := (fullRing_pushedNext (3, 1) (by decide)).2
  have hsocket := (hole_counted_iff (fullRing 2) 1 [fullRingFrames 3] _ _ _).1
    (fullRing_inRange 2 (by decide)).1 hdropped
  have hframes := (hole_counted_iff (fullRing 2) 1 [fullRingFrames 3] _ _ _).2
    (fullRing_inRange 3 (by decide)).2 hlost
  exact ⟨⟨hdropped, hsocket.not.mpr hsteady⟩, hlost, hframes.mpr (.inr hjumps)⟩

end Orderbook
