/-
# Files that are cut off

`run` and `replay` walk the same kind of file with two loops of their own, and both
loops test only that the cursor is in front of the end. The length and the message
behind it are read without a second test, so a file that ends inside a length or
inside a message is read behind its end.

A file is the complete messages it starts with and the bytes behind them. The loops
stay inside the file exactly when there are no such bytes or when they never get
there: `run` because the engine throws before, `replay` because a message before does
not fit into a packet. A message that is cut off is left alone by `replay` also when
it promises more bytes than a packet has room for.
-/

import Orderbook.Feed.ReplayBuffers

namespace Orderbook

open Orderbook.Math

namespace MappedFile

section Parts

variable (mapped : MappedFile)

/-- The complete messages that the file starts with. -/
def complete : List Payload := Payload.framing.readAll (mapped.rest 0)

/-- The bytes behind the complete messages. -/
def cutOff : List UInt8 := Payload.framing.remainder (mapped.rest 0)

/-- The length at an offset lies in the file. -/
def LengthInside (data : ℕ) : Prop := data + 2 ≤ mapped.fileSize

/-- The message at an offset lies in the file, as long as the length in front of it says. -/
def MessageInside (data : ℕ) : Prop :=
  data + 2 + (mapped.messageLength data).toNat ≤ mapped.fileSize

end Parts

variable {mapped : MappedFile} {data : ℕ}

theorem rest_zero (mapped : MappedFile) :
    mapped.rest 0 = Payload.framing.encodeAll mapped.complete ++ mapped.cutOff :=
  (Payload.framing.readAll_spec (mapped.rest 0)).1.symm

theorem read_cutOff (mapped : MappedFile) : Payload.framing.read mapped.cutOff = none :=
  (Payload.framing.readAll_spec (mapped.rest 0)).2

theorem length_rest (mapped : MappedFile) (data : ℕ) :
    (mapped.rest data).length = mapped.fileSize - data :=
  Memory.length_slice _ _ _

/-- The message at an offset is not in the file when the framing has none there. -/
theorem not_messageInside_of_cutOff (hrest : mapped.rest data = mapped.cutOff) :
    ¬ mapped.MessageInside data := by
  intro hinside
  set it : MoldMessageIterator := ⟨mapped.file, data, mapped.fileSize⟩
  have hread := it.next_eq_read
  have hnext : it.next = _ := MoldMessageIterator.next_of_fits rfl hinside
  have hremaining : it.remaining = mapped.cutOff := hrest
  rw [hnext, hremaining, read_cutOff] at hread
  cases hread

/-- At the bytes that are cut off, the cursor is in front of the end. -/
theorem lt_fileSize_of_cutOff (hrest : mapped.rest data = mapped.cutOff)
    (hcut : mapped.cutOff ≠ []) : data < mapped.fileSize := by
  have hlength := mapped.length_rest data
  have hpositive := List.length_pos_of_ne_nil hcut
  rw [hrest] at hlength
  omega

end MappedFile

/-- Whatever the loop of `run` reads or passes on lies in the file. -/
def RunInside (mapped : MappedFile) (cycles : Cycles) : Prop :=
  ∀ caller data calls, Visits (runTurn mapped cycles) ({}, 0, []) (caller, data, calls) →
    data < mapped.fileSize → mapped.LengthInside data ∧ mapped.MessageInside data

/-- All messages are passed on, and none of them throws. -/
def Caller.Completes (clock : ℕ → Clock) (caller : Caller) (messages : List (Memory × UInt16)) :
    Prop :=
  ∃ last calls, caller.feed clock messages = some (last, calls) ∧ last.thrown = none

theorem Caller.completes_cons_iff {clock : ℕ → Clock} {caller : Caller} {message : Memory}
    {messageLength : UInt16} {messages : List (Memory × UInt16)} :
    caller.Completes clock ((message, messageLength) :: messages) ↔
      ∃ called, caller.call (clock caller.messageCount) message messageLength = some called ∧
        called.thrown = none ∧ called.Completes clock messages := by
  unfold Completes
  rw [feed]
  cases caller.call (clock caller.messageCount) message messageLength with
  | none => simp
  | some called =>
      cases hthrown : called.thrown with
      | none => simp [hthrown]
      | some error => simp [hthrown]

variable {mapped : MappedFile} {cycles : Cycles} {caller : Caller} {data : ℕ}
  {calls : List Payload} {record : Payload} {later : List Payload}

/-- A turn that goes on has passed on the next message, which did not throw. -/
theorem runTurn_inl_iff (calls : List Payload) (hrecord : mapped.HasRecord data record)
    {next : Caller × ℕ × List Payload} :
    runTurn mapped cycles (caller, data, calls) = some (.inl next) ↔
      ∃ called, caller.call (cycles.clock 0 caller.messageCount) (mapped.file.advance (data + 2))
          record.length = some called ∧ called.thrown = none ∧
        next = (called, data + 2 + record.length.toNat,
          calls ++ [.ofMemory (mapped.file.advance (data + 2)) 0 record.length]) := by
  simp only [runTurn, if_pos hrecord.lt_fileSize, hrecord.length]
  cases caller.call (cycles.clock 0 caller.messageCount) (mapped.file.advance (data + 2))
      record.length with
  | none => simp
  | some called =>
      cases hthrown : called.thrown with
      | none =>
          simp only [Option.map_some, hthrown, Option.isSome_none, Bool.false_eq_true, if_false,
            Option.some.injEq, Sum.inl.injEq, exists_eq_left', true_and]
          exact eq_comm
      | some error => simp [hthrown]

/-- A run that reaches the bytes that are cut off reads behind the file. -/
theorem cutOff_eq_nil_of_runInside (hinside : RunInside mapped cycles)
    (hvisits : Visits (runTurn mapped cycles) ({}, 0, []) (caller, data, calls))
    (hrest : mapped.rest data = Payload.framing.encodeAll later ++ mapped.cutOff)
    (hcompletes : caller.Completes (cycles.clock 0) (mapped.views data later)) :
    mapped.cutOff = [] := by
  induction later generalizing caller data calls with
  | nil =>
      by_contra hcut
      exact MappedFile.not_messageInside_of_cutOff hrest
        (hinside caller data calls hvisits (MappedFile.lt_fileSize_of_cutOff hrest hcut)).2
  | cons record later ih =>
      rw [Framing.encodeAll_cons, List.append_assoc] at hrest
      obtain ⟨hrecord, hbehind⟩ := MappedFile.hasRecord_of_encode hrest
      obtain ⟨called, hcall, hthrown, hlater⟩ := Caller.completes_cons_iff.mp hcompletes
      have hturn := (runTurn_inl_iff calls hrecord).mpr ⟨called, hcall, hthrown, rfl⟩
      exact ih (hvisits.next hturn) hbehind hlater

/-- A position of `run`: the messages left, and that they stop the run unless the file
ends with them. -/
structure RunPosition (mapped : MappedFile) (cycles : Cycles) (caller : Caller) (data : ℕ)
    (later : List Payload) : Prop where
  rest : mapped.rest data = Payload.framing.encodeAll later ++ mapped.cutOff
  running : caller.thrown = none
  stops : mapped.cutOff ≠ [] → ¬ caller.Completes (cycles.clock 0) (mapped.views data later)

/-- In front of the end there is a complete message. -/
theorem RunPosition.exists_record (hposition : RunPosition mapped cycles caller data later)
    (hdata : data < mapped.fileSize) :
    ∃ record rest, later = record :: rest ∧ mapped.HasRecord data record ∧
      mapped.rest (data + 2 + record.length.toNat) =
        Payload.framing.encodeAll rest ++ mapped.cutOff := by
  cases later with
  | nil =>
      by_cases hcut : mapped.cutOff = []
      · have hend := hposition.rest
        rw [hcut] at hend
        exact absurd hdata (Nat.not_lt.mpr (MappedFile.le_of_rest_nil hend))
      · exact absurd ⟨caller, [], rfl, hposition.running⟩ (hposition.stops hcut)
  | cons record rest =>
      have hrest := hposition.rest
      rw [Framing.encodeAll_cons, List.append_assoc] at hrest
      obtain ⟨hrecord, hbehind⟩ := MappedFile.hasRecord_of_encode hrest
      exact ⟨record, rest, rfl, hrecord, hbehind⟩

/-- The loop of `run` moves from position to position. -/
theorem runPosition_of_visits
    (hstops : mapped.cutOff ≠ [] →
      ¬ Caller.Completes (cycles.clock 0) {} (mapped.views 0 mapped.complete))
    {state : Caller × ℕ × List Payload}
    (hvisits : Visits (runTurn mapped cycles) ({}, 0, []) state) :
    ∃ later, RunPosition mapped cycles state.1 state.2.1 later := by
  induction hvisits with
  | start => exact ⟨mapped.complete, mapped.rest_zero, rfl, hstops⟩
  | @next state next _ hcontinue ih =>
      obtain ⟨caller, data, calls⟩ := state
      obtain ⟨later, hposition⟩ := ih
      have hdata : data < mapped.fileSize := by
        by_contra hend
        simp only [runTurn, if_neg hend] at hcontinue
        cases hcontinue
      obtain ⟨record, rest, rfl, hrecord, hbehind⟩ := hposition.exists_record hdata
      obtain ⟨called, hcall, hthrown, rfl⟩ := (runTurn_inl_iff calls hrecord).mp hcontinue
      refine ⟨rest, hbehind, hthrown, fun hcut hcompletes => hposition.stops hcut ?_⟩
      exact Caller.completes_cons_iff.mpr ⟨called, hcall, hthrown, hcompletes⟩

/-- `run` stays inside the file exactly when the file is not cut off or the run does not
get there. -/
theorem runInside_iff (mapped : MappedFile) (cycles : Cycles) :
    RunInside mapped cycles ↔ mapped.cutOff = [] ∨
      ¬ Caller.Completes (cycles.clock 0) {} (mapped.views 0 mapped.complete) := by
  constructor
  · intro hinside
    by_cases hcompletes : Caller.Completes (cycles.clock 0) {} (mapped.views 0 mapped.complete)
    · exact .inl (cutOff_eq_nil_of_runInside hinside .start mapped.rest_zero hcompletes)
    · exact .inr hcompletes
  · intro hstops caller data calls hvisits hdata
    obtain ⟨later, hposition⟩ := runPosition_of_visits hstops.resolve_left hvisits
    obtain ⟨record, _, _, hrecord, _⟩ := hposition.exists_record hdata
    have hmessage : mapped.MessageInside data := by
      rw [MappedFile.MessageInside, hrecord.length]
      exact hrecord.inside
    exact ⟨(Nat.le_add_right _ _).trans hmessage, hmessage⟩

/-- Whatever the loops of `replay` read or put into a packet lies in the file. -/
def ReplayInside (mapped : MappedFile) (maxPerPacket : UInt16) (sendto : ℕ → Bool)
    (start : Replay) : Prop :=
  ∀ state, Visits (replayTurn mapped maxPerPacket sendto) start state →
    state.data < mapped.fileSize →
    ∀ loop, Visits (gatherTurn mapped maxPerPacket) state.batchStart loop →
      (loop.data < mapped.fileSize → loop.batchCount < maxPerPacket →
        mapped.LengthInside loop.data) ∧
      (loop.Writes mapped maxPerPacket → mapped.MessageInside loop.data)

/-- A message of this length fits into a packet of its own. -/
def FitsPacket (mlen : UInt16) : Prop := kMoldHeaderBytes + 2 + mlen.toNat ≤ sizeofPacket

/-- `replay` does not take the message that is cut off: the file holds a message that fits
into no packet, or the message that is cut off would not fit. -/
def ReplayStops (mapped : MappedFile) (later : List Payload) : Prop :=
  (∃ record ∈ later, ¬ FitsPacket record.length) ∨
    2 ≤ mapped.cutOff.length ∧
      ¬ FitsPacket (mapped.messageLength (mapped.fileSize - mapped.cutOff.length))

/-- A position of `replay`: the messages left, and that the loops do not get past the
last one of them unless the file ends there. -/
structure ReplayPosition (mapped : MappedFile) (data : ℕ) (later : List Payload) : Prop where
  rest : mapped.rest data = Payload.framing.encodeAll later ++ mapped.cutOff
  stops : mapped.cutOff ≠ [] → ReplayStops mapped later

/-- In front of the end the next message is complete or stays where it is. -/
theorem ReplayPosition.inside (hposition : ReplayPosition mapped data later)
    (hdata : data < mapped.fileSize) :
    mapped.LengthInside data ∧ (FitsPacket (mapped.messageLength data) →
      mapped.MessageInside data ∧
        ∃ rest, ReplayPosition mapped (data + 2 + (mapped.messageLength data).toNat) rest) := by
  cases later with
  | nil =>
      have hrest : mapped.rest data = mapped.cutOff := hposition.rest
      have hlength := mapped.length_rest data
      have hcut : mapped.cutOff ≠ [] := by
        intro hnil
        exact Nat.not_lt.mpr (MappedFile.le_of_rest_nil (hrest.trans hnil)) hdata
      rw [hrest] at hlength
      obtain ⟨_, hnone, _⟩ | ⟨htwo, hlong⟩ := hposition.stops hcut
      · exact absurd hnone List.not_mem_nil
      · have hstart : mapped.fileSize - mapped.cutOff.length = data := by omega
        rw [hstart] at hlong
        exact ⟨by unfold MappedFile.LengthInside; omega, fun hfits => absurd hfits hlong⟩
  | cons record rest =>
      have hrest := hposition.rest
      rw [Framing.encodeAll_cons, List.append_assoc] at hrest
      obtain ⟨hrecord, hbehind⟩ := MappedFile.hasRecord_of_encode hrest
      have hmessage : mapped.MessageInside data := by
        rw [MappedFile.MessageInside, hrecord.length]
        exact hrecord.inside
      refine ⟨(Nat.le_add_right _ _).trans hmessage, fun hfits => ⟨hmessage, rest, ?_, ?_⟩⟩
      · rw [hrecord.length]
        exact hbehind
      · intro hcut
        rw [hrecord.length] at hfits
        refine (hposition.stops hcut).imp_left ?_
        rintro ⟨long, hmem, hlong⟩
        rcases List.mem_cons.mp hmem with rfl | hlater
        · exact absurd hfits hlong
        · exact ⟨long, hlater, hlong⟩

variable {maxPerPacket : UInt16} {sendto : ℕ → Bool}

/-- A message that is put into a batch would fit into a packet of its own. -/
theorem Batching.Writes.fitsPacket {loop : Batching} (hwrites : loop.Writes mapped maxPerPacket)
    (hheader : kMoldHeaderBytes ≤ loop.packetUsed.toNat) :
    FitsPacket (mapped.messageLength loop.data) := by
  have hroom := hwrites.2.2
  unfold FitsPacket
  omega

/-- The loop that gathers a batch moves from position to position. -/
theorem replayPosition_of_gather {state : Replay}
    (hstate : ∃ later, ReplayPosition mapped state.data later) {loop : Batching}
    (hvisits : Visits (gatherTurn mapped maxPerPacket) state.batchStart loop) :
    (∃ later, ReplayPosition mapped loop.data later) ∧
      kMoldHeaderBytes ≤ loop.packetUsed.toNat := by
  induction hvisits with
  | start => exact ⟨hstate, Nat.le_refl 20⟩
  | @next loop next _ hcontinue ih =>
      obtain ⟨⟨later, hposition⟩, hheader⟩ := ih
      by_cases hwrites : loop.Writes mapped maxPerPacket
      · rw [Batching.gatherTurn_of_writes hwrites] at hcontinue
        split at hcontinue
        case isTrue =>
          cases hcontinue
          obtain ⟨hmessage, rest, hbehind⟩ :=
            (hposition.inside hwrites.1).2 (hwrites.fitsPacket hheader)
          rw [Nat.add_assoc] at hbehind
          refine ⟨⟨rest, hbehind⟩, ?_⟩
          rw [Batching.toNat_packetUsed_put hwrites.2.2]
          omega
        case isFalse => cases hcontinue
      · rw [Batching.gatherTurn_of_not_writes hwrites] at hcontinue
        cases hcontinue

/-- The outer loop moves from position to position. -/
theorem replayPosition_of_visits {start state : Replay}
    (hstart : ∃ later, ReplayPosition mapped start.data later)
    (hvisits : Visits (replayTurn mapped maxPerPacket sendto) start state) :
    ∃ later, ReplayPosition mapped state.data later := by
  induction hvisits with
  | start => exact hstart
  | next _ hcontinue ih =>
      obtain ⟨last, hlast, _, _, hdata⟩ := exists_visits_of_replayTurn hcontinue
      rw [hdata]
      exact (replayPosition_of_gather ih hlast).1

/-- The loops stay inside the file when they do not get behind the complete messages. -/
theorem replayInside_of_stops (hstops : mapped.cutOff ≠ [] → ReplayStops mapped mapped.complete)
    {start : Replay} (hdata : start.data = 0) :
    ReplayInside mapped maxPerPacket sendto start := by
  intro state hvisits _ loop hloop
  have hstart : ∃ later, ReplayPosition mapped start.data later := by
    rw [hdata]
    exact ⟨mapped.complete, mapped.rest_zero, hstops⟩
  obtain ⟨⟨later, hposition⟩, hheader⟩ :=
    replayPosition_of_gather (replayPosition_of_visits hstart hvisits) hloop
  constructor
  · intro hless _
    exact (hposition.inside hless).1
  · intro hwrites
    exact ((hposition.inside hwrites.1).2 (hwrites.fitsPacket hheader)).1

/-- With one message in a packet, a message that fits is sent alone. -/
theorem replayTurn_one {state : Replay} {record : Payload}
    (hrecord : mapped.HasRecord state.data record) (hfits : FitsPacket record.length) :
    ∃ next, replayTurn mapped 1 (fun _ => true) state = some (.inl next) ∧
      next.data = state.data + 2 + record.length.toNat := by
  have hgathered : Batching.Gathered mapped state.batchStart [] :=
    ⟨rfl, rfl, show 20 ≤ 2048 by decide, rfl⟩
  have hless : state.batchStart.batchCount < 1 := show (0 : UInt16) < 1 by decide
  have hput := hgathered.put hrecord hless hfits
  have hwrites : state.batchStart.Writes mapped 1 := by
    refine ⟨hrecord.lt_fileSize, hless, ?_⟩
    change 20 + 2 + (mapped.messageLength state.data).toNat ≤ sizeofPacket
    rw [hrecord.length]
    exact hfits
  have hturn : gatherTurn mapped 1 state.batchStart =
      some (.inl (state.batchStart.put record.length)) := by
    rw [Batching.gatherTurn_of_writes hwrites, ← hrecord.length]
    exact if_pos (show 0 < 256 by decide)
  have hdone : ¬ (state.batchStart.put record.length).Writes mapped 1 :=
    fun hmore => absurd hmore.2.1 (show ¬ ((0 : UInt16) + 1 < 1) by decide)
  have hgather : gather mapped 1 state.batchStart =
      some (state.batchStart.put record.length) :=
    (iterate_of_continue hturn).trans
      (iterate_of_leave (Batching.gatherTurn_of_not_writes hdone))
  refine ⟨_, replayTurn_of_gather (fun _ => true) hrecord.lt_fileSize hgather hput
    (List.cons_ne_nil _ _) rfl, ?_⟩
  exact (Nat.add_assoc _ _ _).symm

/-- When every message fits, the loops get to the bytes that are cut off. -/
theorem stops_of_replayInside {start state : Replay}
    (hinside : ReplayInside mapped 1 (fun _ => true) start)
    (hvisits : Visits (replayTurn mapped 1 fun _ => true) start state)
    (hrest : mapped.rest state.data = Payload.framing.encodeAll later ++ mapped.cutOff)
    (hcut : mapped.cutOff ≠ []) : ReplayStops mapped later := by
  induction later generalizing state with
  | nil =>
      have hend : mapped.rest state.data = mapped.cutOff := hrest
      have hdata := MappedFile.lt_fileSize_of_cutOff hend hcut
      obtain ⟨hlength, hmessage⟩ := hinside state hvisits hdata state.batchStart .start
      have htwo : state.data + 2 ≤ mapped.fileSize :=
        hlength hdata (show (0 : UInt16) < 1 by decide)
      have hbytes := mapped.length_rest state.data
      rw [hend] at hbytes
      have hstart : mapped.fileSize - mapped.cutOff.length = state.data := by omega
      refine .inr ⟨by omega, fun hfits => ?_⟩
      rw [hstart] at hfits
      exact MappedFile.not_messageInside_of_cutOff hend
        (hmessage ⟨hdata, show (0 : UInt16) < 1 by decide, hfits⟩)
  | cons record later ih =>
      by_cases hfits : FitsPacket record.length
      · rw [Framing.encodeAll_cons, List.append_assoc] at hrest
        obtain ⟨hrecord, hbehind⟩ := MappedFile.hasRecord_of_encode hrest
        obtain ⟨next, hturn, hnext⟩ := replayTurn_one hrecord hfits
        rw [← hnext] at hbehind
        refine (ih (hvisits.next hturn) hbehind).imp_left ?_
        rintro ⟨long, hmem, hlong⟩
        exact ⟨long, List.mem_cons_of_mem _ hmem, hlong⟩
      · exact .inl ⟨record, List.mem_cons_self, hfits⟩

/-- `run` and `replay` stay inside the file, however long the calls take, whatever the
option is, however long sending succeeds and whatever the buffers hold at first. -/
def WalkersInside (mapped : MappedFile) : Prop :=
  (∀ cycles, RunInside mapped cycles) ∧
    ∀ (maxPerPacket : UInt16) (sendto : ℕ → Bool) (packet : Memory) (batchPtrs : ℕ → ℕ)
      (batchLens : ℕ → UInt16),
      ReplayInside mapped maxPerPacket sendto { packet, batchPtrs, batchLens }

/-- The loops over a file stay inside it exactly when the file ends with a complete
message, or when both stop before they take what is cut off: `run` because a complete
message makes the engine throw or not return, `replay` because of a message that fits
into no packet. -/
theorem walkers_inside_iff (mapped : MappedFile) :
    WalkersInside mapped ↔
      mapped.cutOff = [] ∨
        (∀ cycles : Cycles,
          ¬ Caller.Completes (cycles.clock 0) {} (mapped.views 0 mapped.complete)) ∧
        ReplayStops mapped mapped.complete := by
  constructor
  · rintro ⟨hrun, hreplay⟩
    by_cases hcut : mapped.cutOff = []
    · exact .inl hcut
    · refine .inr ⟨fun cycles => ?_, ?_⟩
      · exact ((runInside_iff mapped cycles).mp (hrun cycles)).resolve_left hcut
      · exact stops_of_replayInside (hreplay 1 (fun _ => true) (fun _ => 0) (fun _ => 0)
          fun _ => 0) .start mapped.rest_zero hcut
  · intro hstops
    constructor
    · intro cycles
      exact (runInside_iff mapped cycles).mpr (hstops.imp_right fun hboth => hboth.1 cycles)
    · intro maxPerPacket sendto packet batchPtrs batchLens
      exact replayInside_of_stops (fun hcut => (hstops.resolve_left hcut).2) rfl

/-- A file that consists of half a length. -/
def halfLengthFile : MappedFile := .ofBytes [0] (by decide) (by decide)

theorem walkers_outside_halfLength : ¬ WalkersInside halfLengthFile := by
  intro hinside
  have hlength : 0 + 2 ≤ 1 := (hinside.1 (fun _ => (0, 0)) {} 0 [] .start (show 0 < 1 by decide)).1
  exact absurd hlength (by decide)

end Orderbook
