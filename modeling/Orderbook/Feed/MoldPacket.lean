/-
# MoldUDP64 packets

The body of a packet is a sequence of messages, each behind its length in network
order. An ITCH file has the same form. The framing of messages is stated once; the
iterator that walks a body and the builder that fills a packet are two pieces of
code with their own offsets, and each is compared with the framing.

The iterator knows where the body ends and takes no message that is cut off. The
builder checks the room left before each message and gives up in the middle of a
packet when there is too little of it.
-/

import Orderbook.Feed.MoldUdp64
import Orderbook.Itch.Buffer
import Orderbook.Math.Framing
import Orderbook.Math.Iterate

namespace Orderbook

open Orderbook.Math

/-- A message short enough for a length of two bytes. -/
structure Payload where
  bytes : List UInt8
  short : bytes.length < 2 ^ 16
  deriving DecidableEq, Repr

/-- The length that two bytes in network order stand for. -/
def lengthPrefix (first second : UInt8) : UInt16 :=
  ntohs (first.toUInt16 ||| (second.toUInt16 <<< 8))

namespace Payload

/-- The `len` bytes of a message at `offset`. -/
def ofMemory (mem : Memory) (offset : ℕ) (len : UInt16) : Payload where
  bytes := mem.slice offset len.toNat
  short := by
    rw [Memory.length_slice]
    exact len.toNat_lt

@[simp]
theorem bytes_ofMemory (mem : Memory) (offset : ℕ) (len : UInt16) :
    (ofMemory mem offset len).bytes = mem.slice offset len.toNat :=
  rfl

/-- A message seen through a pointer to it. -/
theorem ofMemory_advance (mem : Memory) (offset : ℕ) (len : UInt16) :
    ofMemory (mem.advance offset) 0 len = ofMemory mem offset len := by
  simp only [ofMemory, Memory.slice_advance, Nat.add_zero]

/-- The length of a message as its prefix holds it. -/
def length (payload : Payload) : UInt16 := UInt16.ofNat payload.bytes.length

@[simp]
theorem toNat_length (payload : Payload) : payload.length.toNat = payload.bytes.length :=
  UInt16.toNat_ofNat_of_lt' payload.short

theorem length_eq {payload : Payload} {len : UInt16} (hbytes : payload.bytes.length = len.toNat) :
    payload.length = len := by
  apply UInt16.toNat_inj.mp
  rw [toNat_length, hbytes]

@[simp]
theorem length_ofMemory (mem : Memory) (offset : ℕ) (len : UInt16) :
    (ofMemory mem offset len).length = len :=
  length_eq (mem.length_slice offset len.toNat)

/-- A message behind its length. -/
def encode (payload : Payload) : List UInt8 := wire16 payload.length ++ payload.bytes

theorem length_encode (payload : Payload) :
    payload.encode.length = 2 + payload.bytes.length :=
  List.length_append

/-- Take a message off the front of a buffer, if the buffer holds all of it. -/
def read : List UInt8 → Option (Payload × List UInt8)
  | first :: second :: rest =>
      let len := lengthPrefix first second
      if len.toNat ≤ rest.length then
        some (⟨rest.take len.toNat, (List.length_take_le _ _).trans_lt len.toNat_lt⟩,
          rest.drop len.toNat)
      else none
  | _ => none

theorem read_encode (payload : Payload) (rest : List UInt8) :
    read (payload.encode ++ rest) = some (payload, rest) := by
  have hlength : lengthPrefix (payload.length >>> 8).toUInt8 payload.length.toUInt8 =
      payload.length := ntohs_load payload.length
  change (if _ then _ else _) = _
  simp only [hlength, toNat_length]
  rw [if_pos (by simp)]
  congr
  · exact List.take_left
  · exact List.drop_left

theorem encode_of_read (input : List UInt8) (payload : Payload) (rest : List UInt8)
    (hread : read input = some (payload, rest)) : input = payload.encode ++ rest := by
  match input with
  | [] => cases hread
  | [_] => cases hread
  | first :: second :: bytes =>
      simp only [read] at hread
      split at hread
      case isTrue hroom =>
        obtain ⟨rfl, rfl⟩ := Prod.mk.inj (Option.some.inj hread)
        rw [encode, length_eq (List.length_take_of_le hroom)]
        unfold lengthPrefix
        rw [wire16_ntohs, List.append_assoc, List.take_append_drop]
        rfl
      case isFalse => cases hread

/-- The reader fails only on fewer than two bytes or on a message that is cut off. -/
theorem short_of_read_eq_none {input : List UInt8} (hread : read input = none) :
    input.length < 2 ∨ ∃ first second behind, input = first :: second :: behind ∧
      behind.length < (lengthPrefix first second).toNat := by
  match input with
  | [] => exact .inl (by decide)
  | [_] => exact .inl (Nat.lt_succ_self 1)
  | first :: second :: behind =>
      simp only [read] at hread
      split at hread
      case isTrue => cases hread
      case isFalse hcut => exact .inr ⟨first, second, behind, rfl, Nat.lt_of_not_le hcut⟩

/-- The framing of packet bodies and of ITCH files. -/
def framing : Framing Payload UInt8 where
  encode := encode
  read := read
  encode_ne_nil _ hnil := by cases hnil
  read_encode := read_encode
  encode_of_read := encode_of_read

@[simp]
theorem framing_encode (payload : Payload) : framing.encode payload = payload.encode := rfl

@[simp]
theorem framing_read (input : List UInt8) : framing.read input = read input := rfl

end Payload

/-- A message found in a body: where it starts and how long it is. -/
structure FoundMessage where
  msg : ℕ
  outLen : UInt16
  deriving DecidableEq, Repr

/-- The cursor of a walk and the end of the body, as offsets into the body. -/
structure MoldMessageIterator where
  body : Memory
  cursor : ℕ
  stop : ℕ

namespace MoldMessageIterator

/-- The constructor. -/
def start (body : Memory) (bodyBytes : ℕ) : MoldMessageIterator where
  body
  cursor := 0
  stop := bodyBytes

/-- Take the next message. A cursor that meets a message cut off by the end of
the body stays behind the length it read. -/
def next (it : MoldMessageIterator) : Option FoundMessage × MoldMessageIterator :=
  if it.cursor + 2 > it.stop then (none, it)
  else
    let len := ntohs (it.body.load16 it.cursor)
    let cursor := it.cursor + 2
    if cursor + len.toNat > it.stop then (none, { it with cursor })
    else (some ⟨cursor, len⟩, { it with cursor := cursor + len.toNat })

/-- The part of the body that was not walked yet. -/
def remaining (it : MoldMessageIterator) : List UInt8 :=
  it.body.slice it.cursor (it.stop - it.cursor)

/-- The bytes of a message found in the body. -/
def payload (it : MoldMessageIterator) (found : FoundMessage) : Payload :=
  .ofMemory it.body found.msg found.outLen

@[simp]
theorem body_next (it : MoldMessageIterator) : it.next.2.body = it.body := by
  unfold next
  split
  · rfl
  · dsimp only
    split <;> rfl

/-- Behind the last message there is nothing to take. -/
theorem next_of_end {it : MoldMessageIterator} (hend : it.stop < it.cursor + 2) :
    it.next = (none, it) :=
  if_pos hend

/-- A message that is there in full is taken. -/
theorem next_of_fits {it : MoldMessageIterator} {len : UInt16}
    (hlen : ntohs (it.body.load16 it.cursor) = len)
    (hfits : it.cursor + 2 + len.toNat ≤ it.stop) :
    it.next = (some ⟨it.cursor + 2, len⟩, { it with cursor := it.cursor + 2 + len.toNat }) := by
  subst hlen
  unfold next
  rw [if_neg (by omega)]
  exact if_neg (Nat.not_lt.mpr hfits)

/-- The iterator takes the message that the framing has at the cursor. -/
theorem next_eq_read (it : MoldMessageIterator) :
    it.next.1.map (fun found => (it.payload found, it.next.2.remaining)) =
      Payload.framing.read it.remaining := by
  unfold next
  split
  case isTrue hend =>
    have hshort : it.stop - it.cursor < 2 := by omega
    unfold remaining
    rcases Nat.lt_or_eq_of_le (Nat.le_of_lt_succ hshort) with hnone | hone
    · rw [Nat.lt_one_iff.mp hnone]
      rfl
    · rw [hone]
      rfl
  case isFalse hroom =>
    set len := ntohs (it.body.load16 it.cursor) with hlen
    have hremaining : it.remaining = it.body it.cursor :: it.body (it.cursor + 1) ::
        it.body.slice (it.cursor + 2) (it.stop - (it.cursor + 2)) := by
      have hbytes : it.stop - it.cursor = 2 + (it.stop - (it.cursor + 2)) := by omega
      rw [remaining, hbytes, Memory.slice_add]
      rfl
    have hfront : lengthPrefix (it.body it.cursor) (it.body (it.cursor + 1)) = len := rfl
    rw [hremaining, Payload.framing_read]
    simp only [Payload.read, hfront, Memory.length_slice]
    split
    case isTrue hcut => rw [if_neg (by omega), Option.map_none]
    case isFalse hfits =>
      have hbytes : it.stop - (it.cursor + 2) =
          len.toNat + (it.stop - (it.cursor + 2 + len.toNat)) := by omega
      rw [if_pos (by omega), Option.map_some]
      simp only [payload, Payload.ofMemory, remaining, hbytes, Memory.slice_add,
        List.take_left' (Memory.length_slice _ _ _), List.drop_left' (Memory.length_slice _ _ _)]

/-- A message that is taken lies behind its length and inside the body, and the
cursor moves behind it. -/
theorem next_of_some {it : MoldMessageIterator} {found : FoundMessage}
    (hnext : it.next.1 = some found) :
    found.msg = it.cursor + 2 ∧ found.msg + found.outLen.toNat ≤ it.stop ∧
      it.next.2 = { it with cursor := found.msg + found.outLen.toNat } := by
  unfold next at hnext ⊢
  split at hnext
  case isTrue => cases hnext
  case isFalse hroom =>
    rw [if_neg hroom]
    dsimp only at hnext ⊢
    split at hnext
    case isTrue => cases hnext
    case isFalse hfits =>
      cases hnext
      rw [if_neg hfits]
      exact ⟨rfl, Nat.not_lt.mp hfits, rfl⟩

/-- The length of a message that is taken is the one in front of it. -/
theorem outLen_of_next {it : MoldMessageIterator} {found : FoundMessage}
    (hnext : it.next.1 = some found) : found.outLen = ntohs (it.body.load16 it.cursor) := by
  unfold next at hnext
  split at hnext
  case isTrue => cases hnext
  case isFalse =>
    dsimp only at hnext
    split at hnext
    case isTrue => cases hnext
    case isFalse =>
      cases hnext
      rfl

/-- A message that is taken brings the cursor forward. -/
theorem cursor_next {it : MoldMessageIterator} {found : FoundMessage}
    (hnext : it.next.1 = some found) :
    it.next.2.stop - it.next.2.cursor < it.stop - it.cursor := by
  obtain ⟨hmsg, hfits, hstate⟩ := next_of_some hnext
  rw [hstate]
  change it.stop - (found.msg + _) < _
  omega

/-- The messages that repeated calls return before the first null pointer. -/
def drain (it : MoldMessageIterator) : List FoundMessage :=
  match _hnext : it.next.1 with
  | none => []
  | some found => found :: it.next.2.drain
termination_by it.stop - it.cursor
decreasing_by exact cursor_next (by assumption)

theorem drain_of_none {it : MoldMessageIterator} (hnext : it.next.1 = none) : it.drain = [] := by
  rw [drain]
  split
  · rfl
  · simp_all

theorem drain_of_some {it : MoldMessageIterator} {found : FoundMessage}
    (hnext : it.next.1 = some found) : it.drain = found :: it.next.2.drain := by
  rw [drain]
  split
  · simp_all
  · simp_all

/-- The bytes and the lengths of the messages returned. -/
def returned (it : MoldMessageIterator) : List (List UInt8 × UInt16) :=
  it.drain.map fun found => (it.body.slice found.msg found.outLen.toNat, found.outLen)

/-- A walk finds the messages of the framing. -/
theorem drain_eq_readAll (it : MoldMessageIterator) :
    it.drain.map it.payload = Payload.framing.readAll it.remaining := by
  induction hleft : it.stop - it.cursor using Nat.strong_induction_on generalizing it with
  | h left ih =>
      have hread := it.next_eq_read
      cases hnext : it.next.1 with
      | none =>
          rw [hnext, Option.map_none] at hread
          rw [drain_of_none hnext, Framing.readAll_of_none _ hread.symm, List.map_nil]
      | some found =>
          rw [hnext, Option.map_some] at hread
          have hpayload : it.payload = it.next.2.payload := by
            unfold payload
            rw [body_next]
          rw [drain_of_some hnext, Framing.readAll_of_some _ hread.symm, List.map_cons]
          congr 1
          rw [hpayload]
          exact ih _ (hleft ▸ cursor_next hnext) it.next.2 rfl

/-- A walk over a body that holds messages and nothing else finds them. -/
theorem drain_start {body : Memory} {bodyBytes : ℕ} {records : List Payload}
    (hbody : body.slice 0 bodyBytes = Payload.framing.encodeAll records) :
    (start body bodyBytes).drain.map (start body bodyBytes).payload = records := by
  have hremaining : (start body bodyBytes).remaining = Payload.framing.encodeAll records := hbody
  have hall := Payload.framing.readAll_encodeAll records []
  rw [List.append_nil, Framing.readAll_of_none _ (Framing.read_nil _), List.append_nil] at hall
  rw [drain_eq_readAll, hremaining, hall]

/-- One more call, with the messages returned so far. -/
def collect : MoldMessageIterator × List FoundMessage →
    Option ((MoldMessageIterator × List FoundMessage) ⊕ List FoundMessage)
  | (it, returned) =>
      match it.next with
      | (none, _) => some (.inr returned)
      | (some found, next) => some (.inl (next, returned ++ [found]))

/-- Calling until the first null pointer ends, with the messages of the walk. -/
theorem iterate_collect (it : MoldMessageIterator) (returned : List FoundMessage) :
    iterate collect (it, returned) = some (returned ++ it.drain) := by
  induction hleft : it.stop - it.cursor using Nat.strong_induction_on generalizing it returned with
  | h left ih =>
      cases hnext : it.next with
      | mk answer next =>
          cases answer with
          | none =>
              have hcall : collect (it, returned) = some (.inr returned) := by
                simp only [collect, hnext]
              rw [iterate_of_leave hcall, drain_of_none (congrArg Prod.fst hnext), List.append_nil]
          | some found =>
              have hcall : collect (it, returned) = some (.inl (next, returned ++ [found])) := by
                simp only [collect, hnext]
              have hless := cursor_next (congrArg Prod.fst hnext)
              rw [hnext, hleft] at hless
              rw [iterate_of_continue hcall, ih _ hless next _ rfl,
                drain_of_some (congrArg Prod.fst hnext), hnext, List.append_assoc,
                List.singleton_append]

/-- Every message of a walk lies between the cursor and the end of the body. -/
theorem inside_of_mem_drain {it : MoldMessageIterator} {found : FoundMessage}
    (hmem : found ∈ it.drain) :
    it.cursor + 2 ≤ found.msg ∧ found.msg + found.outLen.toNat ≤ it.stop := by
  induction hleft : it.stop - it.cursor using Nat.strong_induction_on generalizing it with
  | h left ih =>
      cases hnext : it.next.1 with
      | none =>
          rw [drain_of_none hnext] at hmem
          cases hmem
      | some first =>
          obtain ⟨hmsg, hinside, hstate⟩ := next_of_some hnext
          have hless := cursor_next hnext
          rw [drain_of_some hnext] at hmem
          rcases List.mem_cons.mp hmem with rfl | hlater
          · exact ⟨Nat.le_of_eq hmsg.symm, hinside⟩
          · have hbehind := ih _ (hleft ▸ hless) hlater rfl
            rw [hstate] at hbehind
            refine ⟨?_, hbehind.2⟩
            have hcursor : first.msg + first.outLen.toNat + 2 ≤ found.msg := hbehind.1
            omega

theorem returned_start {body : Memory} {bodyBytes : ℕ} {records : List Payload}
    (hbody : body.slice 0 bodyBytes = Payload.framing.encodeAll records) :
    (start body bodyBytes).returned = records.map fun record => (record.bytes, record.length) := by
  rw [← drain_start hbody, List.map_map, returned]
  apply List.map_congr_left
  intro found _
  simp [payload]

/-- Whatever the bytes of a body, calling the iterator until the first null pointer ends.
Every message returned lies inside the body, the messages written one after another are
the front of the body, and what is left is too short for a length or for the message
that its length promises. -/
theorem iterator_parses_framing (body : Memory) (bodyBytes : ℕ) :
    ∃ returned rest, iterate collect (start body bodyBytes, []) = some returned ∧
      (∀ found ∈ returned, found.msg + found.outLen.toNat ≤ bodyBytes) ∧
      body.slice 0 bodyBytes =
        Payload.framing.encodeAll
          (returned.map fun found => .ofMemory body found.msg found.outLen) ++ rest ∧
      (rest.length < 2 ∨ ∃ first second behind, rest = first :: second :: behind ∧
        behind.length < (lengthPrefix first second).toNat) := by
  obtain ⟨hsplit, hstuck⟩ := Payload.framing.readAll_spec (start body bodyBytes).remaining
  have hdrain := (start body bodyBytes).drain_eq_readAll
  rw [← hdrain] at hsplit
  refine ⟨(start body bodyBytes).drain, Payload.framing.remainder (start body bodyBytes).remaining,
    ?_, fun found hfound => (inside_of_mem_drain hfound).2, hsplit.symm,
    Payload.short_of_read_eq_none hstuck⟩
  exact iterate_collect _ []

end MoldMessageIterator

/-! ## Filling a packet -/

/-- The loop of the builder over the messages of a packet. It gives up at the first
message that does not fit. -/
def writeMessages (outCap : ℕ) (messages : ℕ → Memory) (messageLengths : ℕ → UInt16) :
    List ℕ → ℕ → Memory → ℕ × Memory
  | [], off, out => (off, out)
  | i :: rest, off, out =>
      if off + 2 + (messageLengths i).toNat > outCap then (0, out)
      else
        let lenBe := htons (messageLengths i)
        let out := out.store off (hostBytes16 lenBe)
        let off := off + 2
        let out := out.store off ((messages i).slice 0 (messageLengths i).toNat)
        writeMessages outCap messages messageLengths rest (off + (messageLengths i).toNat) out

/-- Write a packet to `out` and return its size, or zero if it does not fit. -/
def buildMoldPacket (out : Memory) (outCap : ℕ) (session : Vector UInt8 10)
    (sequenceNumber : UInt64) (messages : ℕ → Memory) (messageLengths : ℕ → UInt16)
    (messageCount : UInt16) : ℕ × Memory :=
  if outCap < kMoldHeaderBytes then (0, out)
  else
    let out := out.store 0 session.toList
    let hi := htonl (sequenceNumber >>> 32).toUInt32
    let lo := htonl (sequenceNumber &&& 0xFFFFFFFF).toUInt32
    let seqBe := (lo.toUInt64 <<< 32) ||| hi.toUInt64
    let out := out.store 10 (hostBytes64 seqBe)
    let cntBe := htons messageCount
    let out := out.store 18 (hostBytes16 cntBe)
    writeMessages outCap messages messageLengths (List.range messageCount.toNat)
      kMoldHeaderBytes out

section Builder

variable (messages : ℕ → Memory) (messageLengths : ℕ → UInt16)

/-- The messages that two arrays hold at some indices. -/
def batch (indices : List ℕ) : List Payload :=
  indices.map fun i => .ofMemory (messages i) 0 (messageLengths i)

@[simp]
theorem batch_cons (i : ℕ) (indices : List ℕ) :
    batch messages messageLengths (i :: indices) =
      .ofMemory (messages i) 0 (messageLengths i) :: batch messages messageLengths indices :=
  rfl

theorem length_encode_ofMemory (mem : Memory) (offset : ℕ) (len : UInt16) :
    (Payload.ofMemory mem offset len).encode.length = 2 + len.toNat := by
  rw [Payload.length_encode, Payload.ofMemory, Memory.length_slice]

/-- A message is written as the framing has it. -/
theorem store_message (out : Memory) (off : ℕ) (mem : Memory) (len : UInt16) :
    (out.store off (hostBytes16 (htons len))).store (off + 2) (mem.slice 0 len.toNat) =
      out.store off (Payload.ofMemory mem 0 len).encode := by
  rw [Payload.encode, Payload.length_ofMemory, hostBytes16_htons]
  exact out.store_store off (wire16 len) (mem.slice 0 len.toNat)

/-- A batch that fits is written behind what the packet holds. -/
theorem writeMessages_of_le {outCap : ℕ} (indices : List ℕ) (off : ℕ) (out : Memory)
    (hfits : off + (Payload.framing.encodeAll (batch messages messageLengths indices)).length ≤
      outCap) :
    writeMessages outCap messages messageLengths indices off out =
      (off + (Payload.framing.encodeAll (batch messages messageLengths indices)).length,
        out.store off (Payload.framing.encodeAll (batch messages messageLengths indices))) := by
  induction indices generalizing off out with
  | nil =>
      have hempty : out.store off [] = out := by
        funext i
        exact if_neg (by simp)
      exact congrArg (Prod.mk off) hempty.symm
  | cons i indices ih =>
      have hmessage := length_encode_ofMemory (messages i) 0 (messageLengths i)
      have hoff : off + 2 + (messageLengths i).toNat =
          off + (Payload.ofMemory (messages i) 0 (messageLengths i)).encode.length := by omega
      rw [batch_cons, Framing.encodeAll_cons, Payload.framing_encode, List.length_append]
        at hfits ⊢
      unfold writeMessages
      dsimp only
      rw [if_neg (by omega), store_message, hoff, ih _ _ (by omega), Memory.store_store,
        Nat.add_assoc]

/-- A batch that does not fit is given up, and nothing is written outside. -/
theorem writeMessages_of_lt {outCap : ℕ} (indices : List ℕ) (off : ℕ) (out : Memory)
    (hroom : outCap <
      off + (Payload.framing.encodeAll (batch messages messageLengths indices)).length)
    (hoff : off ≤ outCap) :
    (writeMessages outCap messages messageLengths indices off out).1 = 0 ∧
      ∀ i, outCap ≤ i →
        (writeMessages outCap messages messageLengths indices off out).2 i = out i := by
  induction indices generalizing off out with
  | nil => exact absurd hroom (Nat.not_lt.mpr hoff)
  | cons i indices ih =>
      have hmessage := length_encode_ofMemory (messages i) 0 (messageLengths i)
      rw [batch_cons, Framing.encodeAll_cons, Payload.framing_encode, List.length_append,
        hmessage] at hroom
      unfold writeMessages
      dsimp only
      split
      · exact ⟨rfl, fun _ _ => rfl⟩
      · obtain ⟨hzero, houtside⟩ := ih (off + 2 + (messageLengths i).toNat) _ (by omega) (by omega)
        refine ⟨hzero, fun j hj => (houtside j hj).trans ?_⟩
        rw [store_message]
        exact out.store_of_le _ (by omega)

/-- The header is written as it goes over the wire. -/
theorem store_header (out : Memory) (header : MoldHeader) :
    ((out.store 0 header.session.toList).store 10
        (hostBytes64 (joinRef (htonl header.sequenceNumber.toUInt32)
          (htonl (header.sequenceNumber >>> 32).toUInt32)))).store 18
        (hostBytes16 (htons header.messageCount)) = out.store 0 header.wire := by
  have hsession := header.session.length_toList
  have hfirst := out.store_store 0 header.session.toList (wireRef header.sequenceNumber)
  have hsecond := out.store_store 0 (header.session.toList ++ wireRef header.sequenceNumber)
    (wire16 header.messageCount)
  rw [Nat.zero_add, hsession] at hfirst
  rw [Nat.zero_add, List.length_append, hsession] at hsecond
  change (out.store 0 _).store 18 _ = _ at hsecond
  rw [hostBytes64_join, hostBytes16_htons, hfirst, hsecond, List.append_assoc,
    MoldHeader.wire]

variable (out : Memory) (outCap : ℕ) (session : Vector UInt8 10) (sequenceNumber : UInt64)
  (messageCount : UInt16)

/-- The builder writes the header and then the batch. -/
theorem buildMoldPacket_eq (hheader : kMoldHeaderBytes ≤ outCap) :
    buildMoldPacket out outCap session sequenceNumber messages messageLengths messageCount =
      writeMessages outCap messages messageLengths (List.range messageCount.toNat)
        kMoldHeaderBytes
        (out.store 0 (MoldHeader.wire ⟨session, sequenceNumber, messageCount⟩)) := by
  have hstore := store_header out ⟨session, sequenceNumber, messageCount⟩
  dsimp only at hstore
  unfold buildMoldPacket
  rw [if_neg (Nat.not_lt.mpr hheader)]
  dsimp only
  rw [toUInt32_and_mask, ← hstore]
  rfl

/-- The size of a packet: its header, and every message behind two bytes. -/
def packetBytes : ℕ :=
  20 + ((List.range messageCount.toNat).map fun i => 2 + (messageLengths i).toNat).sum

/-- The bytes of a batch. -/
theorem length_encodeAll_batch (indices : List ℕ) :
    (Payload.framing.encodeAll (batch messages messageLengths indices)).length =
      (indices.map fun i => 2 + (messageLengths i).toNat).sum := by
  induction indices with
  | nil => rfl
  | cons i indices ih =>
      rw [batch_cons, Framing.encodeAll_cons, Payload.framing_encode, List.length_append, ih,
        length_encode_ofMemory, List.map_cons, List.sum_cons]

/-- A packet that was stored is read back part by part. -/
theorem slices_of_store (header : MoldHeader) (body : List UInt8) :
    (out.store 0 (header.wire ++ body)).slice 10 8 = wireRef header.sequenceNumber ∧
      (out.store 0 (header.wire ++ body)).slice kMoldHeaderBytes body.length = body := by
  have hwhole := out.slice_store 0 (header.wire ++ body)
  generalize out.store 0 (header.wire ++ body) = packet at hwhole ⊢
  have hlength : (header.wire ++ body).length = 10 + (8 + (2 + body.length)) := by
    rw [List.length_append, header.length_wire]
    change 20 + _ = _
    omega
  rw [hlength, Memory.slice_add, Memory.slice_add, Memory.slice_add, MoldHeader.wire,
    List.append_assoc, List.append_assoc] at hwhole
  obtain ⟨_, hwhole⟩ := List.append_inj hwhole (by simp)
  obtain ⟨hsequence, hwhole⟩ := List.append_inj hwhole (by simp [wireRef, wire32])
  obtain ⟨_, hbody⟩ := List.append_inj hwhole (by simp [wire16])
  exact ⟨hsequence, hbody⟩

/-- A packet that was stored has its header. -/
theorem parseMoldHeader_store (header : MoldHeader) (body : List UInt8) :
    parseMoldHeader (out.store 0 (header.wire ++ body)) = header := by
  refine (parseMoldHeader_congr ?_).trans (parseMoldHeader_wire header body)
  intro i hi
  have hlength := header.length_wire
  rw [Memory.store, if_pos (by rw [List.length_append]; omega)]
  rfl

/-- A packet that fits is written in full. -/
theorem buildMoldPacket_of_le
    (hfits : kMoldHeaderBytes + (Payload.framing.encodeAll
      (batch messages messageLengths (List.range messageCount.toNat))).length ≤ outCap) :
    buildMoldPacket out outCap session sequenceNumber messages messageLengths messageCount =
      (kMoldHeaderBytes + (Payload.framing.encodeAll
          (batch messages messageLengths (List.range messageCount.toNat))).length,
        out.store 0 (MoldHeader.wire ⟨session, sequenceNumber, messageCount⟩ ++
          Payload.framing.encodeAll
            (batch messages messageLengths (List.range messageCount.toNat)))) := by
  have hstore := out.store_store 0 (MoldHeader.wire ⟨session, sequenceNumber, messageCount⟩)
  rw [MoldHeader.length_wire, Nat.zero_add] at hstore
  rw [buildMoldPacket_eq _ _ _ _ _ _ _ (Nat.le_of_add_right_le hfits),
    writeMessages_of_le _ _ _ _ _ hfits, hstore]

/-- A packet that does not fit is given up, and nothing is written outside. -/
theorem buildMoldPacket_of_lt
    (hroom : outCap < kMoldHeaderBytes + (Payload.framing.encodeAll
      (batch messages messageLengths (List.range messageCount.toNat))).length) :
    (buildMoldPacket out outCap session sequenceNumber messages messageLengths
        messageCount).1 = 0 ∧
      ∀ i, outCap ≤ i → (buildMoldPacket out outCap session sequenceNumber messages
        messageLengths messageCount).2 i = out i := by
  rcases Nat.lt_or_ge outCap kMoldHeaderBytes with hshort | hheader
  · rw [buildMoldPacket, if_pos hshort]
    exact ⟨rfl, fun _ _ => rfl⟩
  · have hlength := MoldHeader.length_wire ⟨session, sequenceNumber, messageCount⟩
    rw [buildMoldPacket_eq _ _ _ _ _ _ _ hheader]
    obtain ⟨hzero, houtside⟩ := writeMessages_of_lt messages messageLengths _ _ _ hroom hheader
    refine ⟨hzero, fun i hi => (houtside i hi).trans ?_⟩
    exact out.store_of_le _ (by omega)

/-- What the builder writes is what the parser and the iterator read, whatever the
messages, and it is written in front of `outCap`. -/
theorem buildMoldPacket_read {packet : ℕ × Memory}
    (hbuilt : buildMoldPacket out outCap session sequenceNumber messages messageLengths
      messageCount = packet) :
    (packet.1 = 0 ↔ outCap < packetBytes messageLengths messageCount) ∧
      (packetBytes messageLengths messageCount ≤ outCap →
        packet.1 = packetBytes messageLengths messageCount ∧
        parseMoldHeader packet.2 = ⟨session, sequenceNumber, messageCount⟩ ∧
        bigEndian (packet.2.slice 10 8) = sequenceNumber.toNat ∧
        (MoldMessageIterator.start (packet.2.advance kMoldHeaderBytes)
            (packet.1 - kMoldHeaderBytes)).returned =
          (List.range messageCount.toNat).map fun i =>
            ((messages i).slice 0 (messageLengths i).toNat, messageLengths i)) ∧
      ∀ i, outCap ≤ i → packet.2 i = out i := by
  have hsize := length_encodeAll_batch messages messageLengths (List.range messageCount.toNat)
  set records := batch messages messageLengths (List.range messageCount.toNat) with hrecords
  have hbytes : packetBytes messageLengths messageCount =
      kMoldHeaderBytes + (Payload.framing.encodeAll records).length := by
    rw [hsize, packetBytes]
    rfl
  rw [hbytes]
  rcases Nat.lt_or_ge outCap (kMoldHeaderBytes + (Payload.framing.encodeAll records).length)
    with hroom | hfits
  · obtain ⟨hzero, houtside⟩ := buildMoldPacket_of_lt messages messageLengths out outCap session
      sequenceNumber messageCount hroom
    rw [hbuilt] at hzero houtside
    exact ⟨iff_of_true hzero hroom, fun hfits => absurd hroom (Nat.not_lt.mpr hfits), houtside⟩
  · rw [buildMoldPacket_of_le messages messageLengths out outCap session sequenceNumber
      messageCount hfits] at hbuilt
    subst hbuilt
    obtain ⟨hsequence, hbody⟩ := slices_of_store out ⟨session, sequenceNumber, messageCount⟩
      (Payload.framing.encodeAll records)
    refine ⟨iff_of_false (Nat.ne_of_gt (Nat.add_pos_left (by decide) _))
      (Nat.not_lt.mpr hfits), fun _ => ⟨rfl, parseMoldHeader_store _ _ _, ?_, ?_⟩, ?_⟩
    · rw [hsequence, bigEndian_wireRef]
    · rw [Nat.add_sub_cancel_left]
      refine (MoldMessageIterator.returned_start
        ((Memory.slice_advance _ _ _ _).trans hbody)).trans ?_
      rw [hrecords, batch, List.map_map]
      apply List.map_congr_left
      intro i _
      simp
    · intro i hi
      apply out.store_of_le
      rw [List.length_append, MoldHeader.length_wire, Nat.zero_add]
      exact hfits.trans hi

end Builder

/-- A message of two bytes and an empty one. -/
def twoMessages (i : ℕ) : List UInt8 := if i = 0 then [65, 66] else []

theorem buildMoldPacket_read_twoMessages :
    ∃ packet, buildMoldPacket (fun _ => 0) 26 (Vector.replicate 10 0) 7
        (fun i => .ofList (twoMessages i)) (fun i => UInt16.ofNat (twoMessages i).length) 2 =
        packet ∧
      packet.1 = 26 ∧ parseMoldHeader packet.2 = ⟨Vector.replicate 10 0, 7, 2⟩ := by
  obtain ⟨_, hread, _⟩ := buildMoldPacket_read (fun i => .ofList (twoMessages i))
    (fun i => UInt16.ofNat (twoMessages i).length) (fun _ => 0) 26 (Vector.replicate 10 0) 7 2 rfl
  obtain ⟨hsize, hheader, _⟩ := hread (by decide)
  exact ⟨_, rfl, hsize, hheader⟩

end Orderbook
