/-
# Sessions

Every packet names its session. The handlers note the name in the first packet
and never compare another one with it, so a packet of another session goes through
the same sequence check as a packet of the first. Only a heartbeat comes out of
that check without a trace.

The runs here are those in which nothing stands in the way of a packet: the pool
has a slot for every datagram and the ring has room for it.
-/

import Orderbook.Feed.Sequence

namespace Orderbook

open Orderbook.Math

/-- A datagram and the slot that the pool gives for it. -/
structure Datagram where
  payload : List UInt8
  slotIdx : UInt32
  tWire : UInt64
  acquired : slotIdx ≠ kPoolInvalid
  deriving DecidableEq, Repr

namespace Datagram

variable (datagram : Datagram)

/-- The turn that receives a datagram, with room in the ring. -/
def turn : RecvTurn where
  slotIdx := datagram.slotIdx
  recv := .datagram datagram.payload
  tWire := datagram.tWire
  pushed := true

/-- The header of a datagram that is long enough to have one. -/
def header : Option MoldHeader := datagram.turn.header

/-- The datagram starts with the name of a session. -/
def OfSession (session : Vector UInt8 10) : Prop :=
  datagram.payload.take 10 = session.toList
  deriving Decidable

end Datagram

/-- One turn of the loop on a datagram. -/
def receiveDatagram (state : FeedState) (datagram : Datagram) : Pass FeedState Accepted :=
  receive state datagram.turn

/-- What a turn does once the header is parsed. -/
def dispatch (state : FeedState) (hdr : MoldHeader) (data : List UInt8) (ref : PacketRef)
    (sentinel pushed : Bool) : Pass FeedState Accepted :=
  match state.track hdr with
  | (state, .endOfSession) => endSession state ref.tWireCycles sentinel
  | (state, .heartbeat) => { state }
  | (state, .duplicate) => { state }
  | (state, .accepted) => pushPacket state hdr data ref pushed

/-- A turn that gets a slot and a whole header dispatches on it. -/
theorem receive_eq_dispatch (state : FeedState) {turn : RecvTurn} {payload : List UInt8}
    (hslot : turn.slotIdx ≠ kPoolInvalid) (hrecv : turn.recv = .datagram payload)
    (hlong : ¬ (received payload).length < kMoldHeaderBytes) :
    receive state turn =
      dispatch (state.countReceived (received payload).length)
        (parseMoldHeader (.ofList (received payload))) (received payload)
        ⟨turn.slotIdx, turn.tWire⟩ turn.pushed turn.pushed := by
  unfold receive
  rw [if_neg hslot, hrecv]
  dsimp only
  rw [if_neg hlong]
  rfl

/-- A turn that gets too few bytes for a header does nothing. -/
theorem receive_of_short (state : FeedState) {turn : RecvTurn} {payload : List UInt8}
    (hslot : turn.slotIdx ≠ kPoolInvalid) (hrecv : turn.recv = .datagram payload)
    (hshort : (received payload).length < kMoldHeaderBytes) :
    receive state turn = { state } := by
  unfold receive
  rw [if_neg hslot, hrecv]
  dsimp only
  rw [if_pos hshort]

/-- What a dispatch answers and whether it ends the loop is decided by the tracker. -/
theorem dispatch_congr {state state' : FeedState} (htracker : state.tracker = state'.tracker)
    (hdr : MoldHeader) (data : List UInt8) (ref : PacketRef) (sentinel pushed : Bool) :
    (dispatch state hdr data ref sentinel pushed).finished =
        (dispatch state' hdr data ref sentinel pushed).finished ∧
      (dispatch state hdr data ref sentinel pushed).answers =
        (dispatch state' hdr data ref sentinel pushed).answers ∧
      (dispatch state hdr data ref sentinel pushed).state.tracker =
        (dispatch state' hdr data ref sentinel pushed).state.tracker := by
  obtain ⟨hverdict, hnext⟩ := state.track_eq hdr
  obtain ⟨hverdict', hnext'⟩ := state'.track_eq hdr
  rw [← htracker, ← hverdict] at hverdict'
  rw [← htracker, ← hnext] at hnext'
  unfold dispatch
  generalize state.track hdr = result at hverdict' hnext' ⊢
  generalize state'.track hdr = result' at hverdict' hnext' ⊢
  obtain ⟨next, verdict⟩ := result
  obtain ⟨next', verdict'⟩ := result'
  dsimp only at hverdict' hnext'
  subst hverdict'
  cases verdict' with
  | endOfSession => exact ⟨rfl, rfl, hnext'.symm⟩
  | heartbeat => exact ⟨rfl, rfl, hnext'.symm⟩
  | duplicate => exact ⟨rfl, rfl, hnext'.symm⟩
  | accepted =>
      have hgaps : next'.stats.gapsDetected = next.stats.gapsDetected :=
        congrArg Tracker.gapsDetected hnext'
      cases pushed with
      | false => exact ⟨rfl, by simp only [pushPacket, hgaps], hnext'.symm⟩
      | true => exact ⟨rfl, by simp only [pushPacket, hgaps], hnext'.symm⟩

/-- The next number expected and the counters of gaps, duplicates and session ends. -/
def FeedState.progress (state : FeedState) : UInt64 × ℕ × ℕ × ℕ :=
  (state.nextExpected, state.stats.gapsDetected, state.stats.duplicatesIgnored,
    state.stats.endOfSession)

theorem FeedState.progress_congr {state state' : FeedState}
    (htracker : state.tracker = state'.tracker) : state.progress = state'.progress :=
  congrArg (fun tracker : Tracker => (tracker.nextExpected, tracker.gapsDetected,
    tracker.duplicatesIgnored, tracker.endOfSession)) htracker

/-- Once the session has started a heartbeat leaves no trace. -/
theorem dispatch_of_heartbeat {state : FeedState} (hinit : state.sessionInit = true)
    {hdr : MoldHeader} (hcount : hdr.messageCount = kMoldHeartbeat) (data : List UInt8)
    (ref : PacketRef) (sentinel pushed : Bool) :
    dispatch state hdr data ref sentinel pushed = { state } := by
  have hstarted : state.initSession hdr = state := if_pos hinit
  have htrack : state.track hdr = (state, .heartbeat) := by
    unfold FeedState.track
    dsimp only
    rw [hstarted, hcount, if_neg (by decide), if_pos rfl]
  rw [dispatch, htrack]

/-- Any other packet is pushed, or counted as a duplicate or as the end of the
session. -/
theorem dispatch_of_not_heartbeat {state : FeedState} (hinit : state.sessionInit = true)
    {hdr : MoldHeader} (hcount : hdr.messageCount ≠ kMoldHeartbeat) (data : List UInt8)
    (ref : PacketRef) (sentinel pushed : Bool)
    (hprogress : (dispatch state hdr data ref sentinel pushed).state.progress = state.progress) :
    ∃ gaps, (dispatch state hdr data ref sentinel pushed).answers =
      [⟨hdr, data, ref, gaps, pushed⟩] := by
  have hstarted : state.initSession hdr = state := if_pos hinit
  unfold dispatch FeedState.track at hprogress ⊢
  dsimp only at hprogress ⊢
  rw [hstarted] at hprogress ⊢
  by_cases hend : hdr.messageCount = kMoldEndOfSession
  · rw [if_pos hend] at hprogress
    have hmore := congrArg (fun progress => progress.2.2.2) hprogress
    exact absurd hmore (Nat.succ_ne_self _)
  · rw [if_neg hend, if_neg hcount] at hprogress ⊢
    by_cases hbehind : hdr.sequenceNumber < state.nextExpected
    · rw [if_pos hbehind] at hprogress
      have hmore := congrArg (fun progress => progress.2.2.1) hprogress
      exact absurd hmore (Nat.succ_ne_self _)
    · rw [if_neg hbehind]
      exact ⟨_, rfl⟩

namespace Datagram

variable {datagram : Datagram} {hdr : MoldHeader}

theorem header_eq (datagram : Datagram) :
    datagram.header =
      if (received datagram.payload).length < kMoldHeaderBytes then none
      else some (parseMoldHeader (.ofList (received datagram.payload))) := by
  unfold header RecvTurn.header
  simp only [turn, datagram.acquired, false_or]

theorem receive_of_none (hheader : datagram.header = none) (state : FeedState) :
    receiveDatagram state datagram = { state } := by
  rw [header_eq] at hheader
  split at hheader
  case isTrue hshort => exact receive_of_short state datagram.acquired rfl hshort
  case isFalse => cases hheader

theorem receive_of_some (hheader : datagram.header = some hdr) (state : FeedState) :
    receiveDatagram state datagram =
      dispatch (state.countReceived (received datagram.payload).length) hdr
        (received datagram.payload) ⟨datagram.slotIdx, datagram.tWire⟩ true true := by
  rw [header_eq] at hheader
  split at hheader
  case isTrue => cases hheader
  case isFalse hlong =>
      cases hheader
      exact receive_eq_dispatch state datagram.acquired rfl hlong

theorem take_received (payload : List UInt8) : (received payload).take 10 = payload.take 10 := by
  rw [received, List.take_take]
  rfl

/-- The session in the header is what the datagram starts with. -/
theorem ofSession_iff (hheader : datagram.header = some hdr) (session : Vector UInt8 10) :
    datagram.OfSession session ↔ hdr.session = session := by
  rw [header_eq] at hheader
  split at hheader
  case isTrue => cases hheader
  case isFalse hlong =>
      cases hheader
      have hname : datagram.payload.take 10 =
          (parseMoldHeader (.ofList (received datagram.payload))).session.toList := by
        rw [← take_received]
        generalize received datagram.payload = data at hlong
        have hbound : 20 ≤ data.length := Nat.le_of_not_lt hlong
        apply List.ext_getElem
        · simp only [List.length_take, Vector.length_toList]
          omega
        · intro i hi hi'
          rw [List.length_take] at hi
          rw [Vector.length_toList] at hi'
          rw [List.getElem_take, Vector.getElem_toList]
          change _ = (Vector.ofFn fun j : Fin 10 => Memory.ofList data j)[i]
          rw [Vector.getElem_ofFn, Memory.ofList, List.getD_eq_getElem _ _ (by omega)]
      rw [OfSession, hname]
      exact Vector.toList_inj

/-- Equal trackers stay equal, and lead to the same answers. -/
theorem receive_congr {state state' : FeedState} (htracker : state.tracker = state'.tracker)
    (datagram : Datagram) :
    (receiveDatagram state datagram).finished = (receiveDatagram state' datagram).finished ∧
      (receiveDatagram state datagram).answers = (receiveDatagram state' datagram).answers ∧
      (receiveDatagram state datagram).state.tracker =
        (receiveDatagram state' datagram).state.tracker := by
  cases hheader : datagram.header with
  | none =>
      rw [receive_of_none hheader, receive_of_none hheader]
      exact ⟨rfl, rfl, htracker⟩
  | some hdr =>
      rw [receive_of_some hheader, receive_of_some hheader]
      apply dispatch_congr
      exact htracker

/-- The packet that a turn accepts is the datagram, and the ring takes it. -/
theorem of_mem_answers {state : FeedState} {entry : Accepted}
    (hentry : entry ∈ (receiveDatagram state datagram).answers) :
    entry.data = received datagram.payload ∧ entry.pushed = true := by
  cases hheader : datagram.header with
  | none =>
      rw [receive_of_none hheader] at hentry
      cases hentry
  | some hdr =>
      rw [receive_of_some hheader, dispatch] at hentry
      split at hentry
      case h_4 =>
          rw [List.mem_singleton.mp hentry]
          exact ⟨rfl, rfl⟩
      all_goals cases hentry

/-- A packet starts the session. -/
theorem sessionInit_receive (hheader : datagram.header = some hdr) (state : FeedState) :
    (receiveDatagram state datagram).state.sessionInit = true := by
  have hafter : (receiveDatagram state datagram).state.tracker = state.tracker.after hdr := by
    have htracks := receive_handled state datagram.turn
    rw [← header, hheader] at htracks
    cases htracks with
    | refused _ _ htracker _ => exact htracker
    | accepted _ _ _ htracker _ _ _ => exact htracker
  have hinit := state.tracker.sessionInit_after hdr
  rwa [← hafter] at hinit

end Datagram

/-! ## Datagrams of other sessions -/

/-- The header of the first datagram that has one. -/
def firstHeader (datagrams : List Datagram) : Option MoldHeader :=
  datagrams.findSome? Datagram.header

/-- The session has started, or the next packet starts it. -/
def Starts (session : Vector UInt8 10) (state : FeedState) (datagrams : List Datagram) : Prop :=
  state.sessionInit = false →
    ∀ hdr, firstHeader datagrams = some hdr → hdr.session = session

namespace Starts

variable {session : Vector UInt8 10} {state : FeedState} {datagram : Datagram}
  {datagrams : List Datagram}

theorem next (hstarts : Starts session state (datagram :: datagrams)) :
    Starts session (receiveDatagram state datagram).state datagrams := by
  intro hinit hdr hfirst
  cases hheader : datagram.header with
  | none =>
      rw [Datagram.receive_of_none hheader] at hinit
      apply hstarts hinit
      rw [firstHeader, List.findSome?_cons, hheader]
      exact hfirst
  | some own =>
      rw [Datagram.sessionInit_receive hheader] at hinit
      cases hinit

/-- A packet of another session is never the first. -/
theorem sessionInit (hstarts : Starts session state (datagram :: datagrams)) {hdr : MoldHeader}
    (hheader : datagram.header = some hdr) (hforeign : ¬ datagram.OfSession session) :
    state.sessionInit = true := by
  cases hinit : state.sessionInit with
  | true => rfl
  | false =>
      have hown := hstarts hinit hdr (by rw [firstHeader, List.findSome?_cons, hheader])
      exact absurd ((Datagram.ofSession_iff hheader session).mpr hown) hforeign

end Starts

/-- The loop on datagrams. -/
def runDatagrams (datagrams : List Datagram) : FeedState × List Accepted :=
  runFeedHandler (datagrams.map Datagram.turn)

theorem runDatagrams_eq (datagrams : List Datagram) :
    runDatagrams datagrams = runUntil receiveDatagram {} datagrams :=
  runUntil_map receive Datagram.turn {} datagrams

/-- Of the packets of other sessions that the loop takes, all are heartbeats. -/
def OnlyHeartbeats (session : Vector UInt8 10) (state : FeedState)
    (datagrams : List Datagram) : Prop :=
  ∀ datagram ∈ taken receiveDatagram state datagrams, ¬ datagram.OfSession session →
    ∀ hdr, datagram.header = some hdr → hdr.messageCount = kMoldHeartbeat

namespace OnlyHeartbeats

variable {session : Vector UInt8 10} {state : FeedState} {datagram : Datagram}
  {datagrams : List Datagram}

theorem of_prefix {past : List Datagram} (hpast : past <+: datagrams)
    (hheartbeats : OnlyHeartbeats session state datagrams) : OnlyHeartbeats session state past :=
  fun datagram hdatagram =>
    hheartbeats datagram ((taken_mono receiveDatagram state hpast).subset hdatagram)

/-- A loop that goes on takes the datagrams behind. -/
theorem cons_iff (hopen : (receiveDatagram state datagram).finished = false) :
    OnlyHeartbeats session state (datagram :: datagrams) ↔
      (¬ datagram.OfSession session →
        ∀ hdr, datagram.header = some hdr → hdr.messageCount = kMoldHeartbeat) ∧
      OnlyHeartbeats session (receiveDatagram state datagram).state datagrams := by
  have htaken : taken receiveDatagram state (datagram :: datagrams) =
      datagram :: taken receiveDatagram (receiveDatagram state datagram).state datagrams := by
    rw [taken, hopen]
    rfl
  rw [OnlyHeartbeats, htaken, List.forall_mem_cons]
  rfl

/-- A heartbeat of another session, or a datagram without a header, leaves the
tracker as it is. -/
theorem receive_silent (hstarts : Starts session state (datagram :: datagrams))
    (hheartbeat : ∀ hdr, datagram.header = some hdr → hdr.messageCount = kMoldHeartbeat)
    (hforeign : ¬ datagram.OfSession session) :
    ∃ next : FeedState, receiveDatagram state datagram = { state := next } ∧
      next.tracker = state.tracker := by
  cases hheader : datagram.header with
  | none => exact ⟨state, Datagram.receive_of_none hheader state, rfl⟩
  | some hdr =>
      have hinit : (state.countReceived (received datagram.payload).length).sessionInit = true :=
        hstarts.sessionInit hheader hforeign
      rw [Datagram.receive_of_some hheader]
      exact ⟨_, dispatch_of_heartbeat hinit (hheartbeat hdr hheader) _ _ _ _, rfl⟩

/-- Then the loop does what it does without the packets of other sessions, and
accepts none of them. -/
theorem run (hheartbeats : OnlyHeartbeats session state datagrams) {state' : FeedState}
    (htracker : state.tracker = state'.tracker) (hstarts : Starts session state datagrams) :
    (runUntil receiveDatagram state datagrams).1.tracker =
        (runUntil receiveDatagram state'
          (datagrams.filter fun datagram => datagram.OfSession session)).1.tracker ∧
      (runUntil receiveDatagram state datagrams).2 =
        (runUntil receiveDatagram state'
          (datagrams.filter fun datagram => datagram.OfSession session)).2 ∧
      ∀ entry ∈ (runUntil receiveDatagram state datagrams).2,
        entry.data.take 10 = session.toList := by
  induction datagrams generalizing state state' with
  | nil => exact ⟨htracker, rfl, fun entry hentry => nomatch hentry⟩
  | cons datagram datagrams ih =>
      by_cases hown : datagram.OfSession session
      · obtain ⟨hfinished, hanswers, hnext⟩ := datagram.receive_congr htracker
        have hentries : ∀ entry ∈ (receiveDatagram state datagram).answers,
            entry.data.take 10 = session.toList := by
          intro entry hentry
          rw [(Datagram.of_mem_answers hentry).1, Datagram.take_received]
          exact hown
        rw [List.filter_cons_of_pos (by simpa using hown)]
        cases hopen : (receiveDatagram state datagram).finished with
        | true =>
            rw [runUntil_of_finished hopen, runUntil_of_finished (hfinished.symm.trans hopen)]
            exact ⟨hnext, hanswers, hentries⟩
        | false =>
            rw [runUntil_of_open hopen, runUntil_of_open (hfinished.symm.trans hopen)]
            obtain ⟨hlast, hlog, hrest⟩ :=
              ih ((cons_iff hopen).mp hheartbeats).2 hnext hstarts.next
            refine ⟨hlast, by rw [hanswers, hlog], fun entry hentry => ?_⟩
            rcases List.mem_append.mp hentry with hhere | hlater
            · exact hentries entry hhere
            · exact hrest entry hlater
      · have hheartbeat := hheartbeats datagram List.mem_cons_self hown
        obtain ⟨next, hpass, hsame⟩ := receive_silent hstarts hheartbeat hown
        have hopen : (receiveDatagram state datagram).finished = false := by rw [hpass]
        have hbehind := ((cons_iff hopen).mp hheartbeats).2
        have hlater := hstarts.next
        rw [List.filter_cons_of_neg (by simpa using hown), runUntil_of_open hopen]
        rw [hpass] at hbehind hlater ⊢
        exact ih hbehind (hsame.trans htracker) hlater

/-- The loop does what it does without the packets of other sessions, and accepts
none of them, only if they are all heartbeats. -/
theorem of_run {state' : FeedState} (htracker : state.tracker = state'.tracker)
    (hstarts : Starts session state datagrams)
    (hevolution : ∀ past, past <+: datagrams →
      (runUntil receiveDatagram state past).1.progress =
        (runUntil receiveDatagram state'
          (past.filter fun datagram => datagram.OfSession session)).1.progress)
    (hown : ∀ entry ∈ (runUntil receiveDatagram state datagrams).2,
      entry.data.take 10 = session.toList) :
    OnlyHeartbeats session state datagrams := by
  induction datagrams generalizing state state' with
  | nil => exact fun datagram hdatagram => nomatch hdatagram
  | cons datagram datagrams ih =>
      have hentries : ∀ entry ∈ (receiveDatagram state datagram).answers,
          entry.data.take 10 = session.toList := fun entry hentry =>
        hown entry (answers_subset_runUntil receiveDatagram state datagram datagrams hentry)
      by_cases hkept : datagram.OfSession session
      · obtain ⟨hfinished, hanswers, hnext⟩ := datagram.receive_congr htracker
        cases hopen : (receiveDatagram state datagram).finished with
        | true =>
            intro other hother hforeign
            rw [taken, hopen] at hother
            rw [List.mem_singleton.mp hother] at hforeign
            exact absurd hkept hforeign
        | false =>
            rw [cons_iff hopen]
            rw [runUntil_of_open hopen] at hown
            refine ⟨fun hforeign => absurd hkept hforeign, ih hnext hstarts.next ?_
              fun entry hentry => hown entry (List.mem_append_right _ hentry)⟩
            intro past hpast
            have hhere := hevolution (datagram :: past) (List.cons_prefix_cons.mpr ⟨rfl, hpast⟩)
            rw [List.filter_cons_of_pos (by simpa using hkept), runUntil_of_open hopen,
              runUntil_of_open (hfinished.symm.trans hopen)] at hhere
            exact hhere
      · have hprogress : (receiveDatagram state datagram).state.progress = state.progress := by
          have hhere := hevolution [datagram] (List.cons_prefix_cons.mpr ⟨rfl, List.nil_prefix⟩)
          rw [List.filter_cons_of_neg (by simpa using hkept), runUntil_singleton] at hhere
          exact hhere.trans (FeedState.progress_congr htracker).symm
        have hheartbeat : ∀ hdr, datagram.header = some hdr →
            hdr.messageCount = kMoldHeartbeat := by
          intro hdr hheader
          by_contra hcount
          have hinit : (state.countReceived (received datagram.payload).length).sessionInit =
            true := hstarts.sessionInit hheader hkept
          rw [Datagram.receive_of_some hheader] at hprogress hentries
          obtain ⟨gaps, hanswers⟩ := dispatch_of_not_heartbeat hinit hcount _ _ _ _ hprogress
          rw [hanswers, List.forall_mem_singleton, Datagram.take_received] at hentries
          exact hkept hentries
        obtain ⟨next, hpass, hsame⟩ := receive_silent hstarts hheartbeat hkept
        have hopen : (receiveDatagram state datagram).finished = false := by rw [hpass]
        have hnext : (receiveDatagram state datagram).state.tracker = state'.tracker := by
          rw [hpass]
          exact hsame.trans htracker
        rw [cons_iff hopen]
        rw [runUntil_of_open hopen] at hown
        refine ⟨fun _ => hheartbeat, ih hnext hstarts.next ?_
          fun entry hentry => hown entry (List.mem_append_right _ hentry)⟩
        intro past hpast
        have hhere := hevolution (datagram :: past) (List.cons_prefix_cons.mpr ⟨rfl, hpast⟩)
        rw [List.filter_cons_of_neg (by simpa using hkept), runUntil_of_open hopen] at hhere
        exact hhere

end OnlyHeartbeats

/-- The packets that the ring took. -/
def pushedPackets (log : List Accepted) : List (List UInt8) :=
  (log.filter Accepted.pushed).map Accepted.data

theorem mem_pushedPackets {log : List Accepted} {packet : List UInt8} :
    packet ∈ pushedPackets log ↔ ∃ entry ∈ log, entry.pushed = true ∧ entry.data = packet := by
  simp [pushedPackets, and_assoc]

/-- Without the datagrams of other sessions the same packets of the session are
pushed and the sequence check goes through the same values; none of the others is
pushed. -/
structure ForeignIgnored (session : Vector UInt8 10) (datagrams : List Datagram) : Prop where
  packets :
    (pushedPackets (runDatagrams datagrams).2).filter (fun packet =>
        packet.take 10 = session.toList) =
      (pushedPackets (runDatagrams
        (datagrams.filter fun datagram => datagram.OfSession session)).2).filter (fun packet =>
        packet.take 10 = session.toList)
  evolution : ∀ past, past <+: datagrams →
    (runDatagrams past).1.progress =
      (runDatagrams (past.filter fun datagram => datagram.OfSession session)).1.progress
  foreign : ∀ packet ∈ pushedPackets (runDatagrams datagrams).2,
    packet.take 10 = session.toList

/-- Every packet that a run of datagrams accepts is pushed. -/
theorem pushed_of_mem_runDatagrams {datagrams : List Datagram} {entry : Accepted}
    (hentry : entry ∈ (runDatagrams datagrams).2) : entry.pushed = true := by
  rw [runDatagrams_eq] at hentry
  have hkept : ∃ past, past <+: datagrams ∧
      ∀ entry ∈ (runUntil receiveDatagram {} datagrams).2, entry.pushed = true := by
    refine runUntil_invariant
      (fun _ (_ : FeedState) (log : List Accepted) => ∀ entry ∈ log, entry.pushed = true)
      (fun entry hnone => nomatch hnone) ?_
    intro past state log datagram _ hlog other hother
    rcases List.mem_append.mp hother with hold | hnew
    · exact hlog other hold
    · exact (Datagram.of_mem_answers hnew).2
  obtain ⟨_, _, hpushed⟩ := hkept
  exact hpushed entry hentry

/-- Datagrams of other sessions have no effect if and only if those of them that
the loop takes, and that have a header, are heartbeats. -/
theorem foreign_ignored_iff (session : Vector UInt8 10) (datagrams : List Datagram)
    (hsession : (firstHeader datagrams).map MoldHeader.session = some session) :
    ForeignIgnored session datagrams ↔ OnlyHeartbeats session {} datagrams := by
  have hstarts : Starts session {} datagrams := by
    intro _ hdr hfirst
    rw [hfirst, Option.map_some] at hsession
    exact Option.some.inj hsession
  constructor
  · intro hignored
    refine OnlyHeartbeats.of_run rfl hstarts (fun past hpast => ?_) fun entry hentry => ?_
    · rw [← runDatagrams_eq, ← runDatagrams_eq]
      exact hignored.evolution past hpast
    · rw [← runDatagrams_eq] at hentry
      exact hignored.foreign entry.data
        (mem_pushedPackets.mpr ⟨entry, hentry, pushed_of_mem_runDatagrams hentry, rfl⟩)
  · intro hheartbeats
    have hfronts : ∀ past, past <+: datagrams → Starts session {} past := by
      intro past hpast hinit hdr hfirst
      obtain ⟨future, rfl⟩ := hpast
      apply hstarts hinit
      rw [firstHeader, List.findSome?_append, ← firstHeader, hfirst]
      rfl
    obtain ⟨_, hlog, hown⟩ := hheartbeats.run rfl hstarts
    rw [← runDatagrams_eq, ← runDatagrams_eq] at hlog
    rw [← runDatagrams_eq] at hown
    refine ⟨by rw [hlog], fun past hpast => ?_, fun packet hpacket => ?_⟩
    · rw [runDatagrams_eq, runDatagrams_eq]
      exact FeedState.progress_congr
        ((hheartbeats.of_prefix hpast).run rfl (hfronts past hpast)).1
    · obtain ⟨entry, hentry, _, rfl⟩ := mem_pushedPackets.mp hpacket
      exact hown entry hentry

/-- A datagram that is a header. -/
def Datagram.ofHeader (hdr : MoldHeader) : Datagram where
  payload := hdr.wire
  slotIdx := 0
  tWire := 0
  acquired := by decide

/-- The name of another session than `oneMessage` has. -/
def otherSession : Vector UInt8 10 := Vector.replicate 10 1

/-- A packet of another session, far ahead, between two packets of one session. -/
def intruded : List Datagram :=
  [.ofHeader (oneMessage 1), .ofHeader { oneMessage 1000 with session := otherSession },
    .ofHeader (oneMessage 2)]

/-- The packet of the other session is pushed, and the packet behind it is dropped
as a duplicate. -/
theorem foreign_packet_pushed :
    ∃ session datagrams, (firstHeader datagrams).map MoldHeader.session = some session ∧
      ¬ ForeignIgnored session datagrams := by
  refine ⟨(oneMessage 1).session, intruded, by decide +kernel, fun hignored => ?_⟩
  have hlost : ((pushedPackets (runDatagrams intruded).2).filter fun packet =>
      packet.take 10 = (oneMessage 1).session.toList) = [(oneMessage 1).wire] := by
    decide +kernel
  have hkept : ((pushedPackets (runDatagrams (intruded.filter fun datagram =>
      datagram.OfSession (oneMessage 1).session)).2).filter fun packet =>
      packet.take 10 = (oneMessage 1).session.toList) =
        [(oneMessage 1).wire, (oneMessage 2).wire] := by
    decide +kernel
  have hsame := hignored.packets
  rw [hlost, hkept] at hsame
  cases hsame

/-- A heartbeat of another session behind a packet. -/
def foreignHeartbeat : List Datagram :=
  [.ofHeader (oneMessage 1),
    .ofHeader { oneMessage 1000 with session := otherSession, messageCount := kMoldHeartbeat }]

theorem foreign_ignored_foreignHeartbeat :
    ForeignIgnored (oneMessage 1).session foreignHeartbeat := by
  refine (foreign_ignored_iff (oneMessage 1).session foreignHeartbeat (by decide +kernel)).mpr ?_
  have htaken : taken receiveDatagram {} foreignHeartbeat = foreignHeartbeat := by decide +kernel
  rw [OnlyHeartbeats, htaken, foreignHeartbeat, List.forall_mem_cons, List.forall_mem_singleton]
  constructor
  · intro hforeign
    exact absurd (by decide +kernel) hforeign
  · intro _ hdr hheader
    have hcount : ((Datagram.ofHeader { oneMessage 1000 with
        session := otherSession, messageCount := kMoldHeartbeat }).header.map
          MoldHeader.messageCount) = some kMoldHeartbeat := by decide +kernel
    rw [hheader] at hcount
    exact Option.some.inj hcount

end Orderbook
