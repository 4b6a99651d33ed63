/-
# Walking a file

`MatchingEngine::run` maps an ITCH file and passes its messages to `processMessage`
one after another. It steps over each message by the length in front of it and tests
nothing but whether it is still in front of the end of the file.

A file of complete messages is walked message by message, so the engine gets the
messages that the file was written from. The prefetch of the next order reference is
left out, since it changes nothing, and so are the progress reports and the conversion
of the latencies behind the loop.
-/

import Orderbook.Feed.Consumer

namespace Orderbook

open Orderbook.Math

/-- A file in memory, with its size in a `size_t`. What lies behind its end is arbitrary
to its readers. An empty file cannot be mapped. -/
structure MappedFile where
  file : Memory
  fileSize : ℕ
  nonempty : 0 < fileSize
  addressable : fileSize < 2 ^ 64

namespace MappedFile

variable (mapped : MappedFile)

/-- The length in front of a message. -/
def messageLength (data : ℕ) : UInt16 := ntohs (mapped.file.load16 data)

/-- The bytes of the file from an offset on. -/
def rest (data : ℕ) : List UInt8 := mapped.file.slice data (mapped.fileSize - data)

/-- The file with the given bytes. -/
def ofBytes (bytes : List UInt8) (hnonempty : 0 < bytes.length)
    (haddressable : bytes.length < 2 ^ 64) : MappedFile :=
  ⟨.ofList bytes, bytes.length, hnonempty, haddressable⟩

theorem rest_ofBytes (bytes : List UInt8) (hnonempty : 0 < bytes.length)
    (haddressable : bytes.length < 2 ^ 64) :
    (ofBytes bytes hnonempty haddressable).rest 0 = bytes :=
  Memory.slice_ofList bytes

/-- The file consists of complete messages. -/
def Holds (records : List Payload) : Prop := mapped.rest 0 = Payload.framing.encodeAll records

/-- A message that is in the file in full, behind its length. -/
structure HasRecord (data : ℕ) (record : Payload) : Prop where
  inside : data + 2 + record.length.toNat ≤ mapped.fileSize
  length : mapped.messageLength data = record.length
  payload : Payload.ofMemory mapped.file (data + 2) record.length = record

variable {mapped}

/-- A message that the rest of the file starts with is in the file in full. -/
theorem hasRecord_of_encode {data : ℕ} {record : Payload} {behind : List UInt8}
    (hrest : mapped.rest data = record.encode ++ behind) :
    mapped.HasRecord data record ∧ mapped.rest (data + 2 + record.length.toNat) = behind := by
  set it : MoldMessageIterator := ⟨mapped.file, data, mapped.fileSize⟩ with hit
  have hread := it.next_eq_read
  have hremaining : it.remaining = record.encode ++ behind := hrest
  rw [hremaining, Payload.framing_read, Payload.read_encode] at hread
  obtain ⟨found, hnext, hfound⟩ := Option.map_eq_some_iff.mp hread
  obtain ⟨hpayload, hlater⟩ := Prod.mk.inj hfound
  obtain ⟨hmsg, hinside, hstate⟩ := MoldMessageIterator.next_of_some hnext
  have hoffset : found.msg = data + 2 := hmsg
  have hlength : record.length = found.outLen := by
    rw [← hpayload]
    exact Payload.length_ofMemory _ _ _
  rw [hstate, hoffset, ← hlength] at hlater
  rw [hoffset, ← hlength] at hinside
  refine ⟨⟨hinside, ?_, ?_⟩, hlater⟩
  · rw [hlength]
    exact (MoldMessageIterator.outLen_of_next hnext).symm
  · rw [hlength, ← hoffset]
    exact hpayload

/-- What is left of the file starts with its next message. -/
theorem hasRecord_of_rest {data : ℕ} {record : Payload} {records : List Payload}
    (hrest : mapped.rest data = Payload.framing.encodeAll (record :: records)) :
    mapped.HasRecord data record ∧
      mapped.rest (data + 2 + record.length.toNat) = Payload.framing.encodeAll records :=
  hasRecord_of_encode hrest

/-- Nothing is left of the file only behind its end. -/
theorem le_of_rest_nil {data : ℕ} (hrest : mapped.rest data = []) : mapped.fileSize ≤ data := by
  have hlength := congrArg List.length hrest
  rw [rest, Memory.length_slice, List.length_nil] at hlength
  exact Nat.le_of_sub_eq_zero hlength

theorem HasRecord.lt_fileSize {data : ℕ} {record : Payload}
    (hrecord : mapped.HasRecord data record) : data < mapped.fileSize := by
  have := hrecord.inside
  omega

end MappedFile

/-- One turn of the loop over the file. -/
def runTurn (mapped : MappedFile) (cycles : Cycles) :
    Caller × ℕ × List Payload → Option ((Caller × ℕ × List Payload) ⊕ Caller × List Payload)
  | (caller, data, calls) =>
      if data < mapped.fileSize then
        let messageLength := mapped.messageLength data
        let data := data + 2
        let message := mapped.file.advance data
        let calls := calls ++ [.ofMemory message 0 messageLength]
        (caller.call (cycles.clock 0 caller.messageCount) message messageLength).map fun caller =>
          if caller.thrown.isSome then .inr (caller, calls)
          else .inl (caller, data + messageLength.toNat, calls)
      else some (.inr (caller, calls))

/-- `MatchingEngine::run` on a new engine, with the messages that were passed on. -/
def runFile (mapped : MappedFile) (cycles : Cycles) : Option (Caller × List Payload) :=
  iterate (runTurn mapped cycles) ({}, 0, [])

namespace MappedFile

variable {mapped : MappedFile}

/-- Messages of the file as `processMessage` sees them. -/
def views (mapped : MappedFile) : ℕ → List Payload → List (Memory × UInt16)
  | _, [] => []
  | data, record :: records =>
      (mapped.file.advance (data + 2), record.length) ::
        mapped.views (data + 2 + record.length.toNat) records

/-- What is passed on are the messages. -/
theorem map_views {data : ℕ} {records : List Payload}
    (hrest : mapped.rest data = Payload.framing.encodeAll records) :
    (mapped.views data records).map (fun view => Payload.ofMemory view.1 0 view.2) = records := by
  induction records generalizing data with
  | nil => rfl
  | cons record records ih =>
      obtain ⟨hrecord, hbehind⟩ := hasRecord_of_rest hrest
      rw [views, List.map_cons, ih hbehind, Payload.ofMemory_advance, hrecord.payload]

/-- The loop passes on the messages that the file is made of. -/
theorem iterate_runTurn (cycles : Cycles) (caller : Caller) {data : ℕ} (calls : List Payload)
    {records : List Payload} (hrest : mapped.rest data = Payload.framing.encodeAll records) :
    iterate (runTurn mapped cycles) (caller, data, calls) =
      (caller.feed (cycles.clock 0) (mapped.views data records)).map fun fed =>
        (fed.1, calls ++ fed.2) := by
  induction records generalizing caller data calls with
  | nil =>
      have hend := Nat.not_lt.mpr (le_of_rest_nil hrest)
      have hturn : runTurn mapped cycles (caller, data, calls) = some (.inr (caller, calls)) := by
        simp only [runTurn, if_neg hend]
      rw [iterate_of_leave hturn, views, Caller.feed, Option.map_some, List.append_nil]
  | cons record records ih =>
      obtain ⟨hrecord, hbehind⟩ := hasRecord_of_rest hrest
      rw [views, Caller.feed]
      cases hcall : caller.call (cycles.clock 0 caller.messageCount)
          (mapped.file.advance (data + 2)) record.length with
      | none =>
          apply iterate_of_none
          simp only [runTurn, if_pos hrecord.lt_fileSize, hrecord.length, hcall, Option.map_none]
      | some called =>
          rw [Option.bind_some]
          split
          case isTrue hthrown =>
            apply iterate_of_leave
            simp only [runTurn, if_pos hrecord.lt_fileSize, hrecord.length, hcall,
              Option.map_some, hthrown, if_true]
          case isFalse hthrown =>
            have hturn : runTurn mapped cycles (caller, data, calls) =
                some (.inl (called, data + 2 + record.length.toNat,
                  calls ++ [.ofMemory (mapped.file.advance (data + 2)) 0 record.length])) := by
              simp only [runTurn, if_pos hrecord.lt_fileSize, hrecord.length, hcall,
                Option.map_some, hthrown, if_false, Bool.false_eq_true]
            rw [iterate_of_continue hturn, ih called _ hbehind, Option.map_map]
            simp only [Function.comp_def, List.append_assoc, List.singleton_append]

theorem runFile_eq_feed (cycles : Cycles) {records : List Payload}
    (hholds : mapped.Holds records) :
    runFile mapped cycles = Caller.feed (cycles.clock 0) {} (mapped.views 0 records) := by
  rw [runFile, iterate_runTurn cycles {} [] hholds]
  exact Option.map_id'

end MappedFile

end Orderbook
