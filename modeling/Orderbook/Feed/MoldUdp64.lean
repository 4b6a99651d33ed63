/-
# MoldUDP64 headers

A packet starts with a session name, the sequence number of its first message and
the number of its messages, in network order. Two counts are reserved: one marks
a heartbeat and one the end of the session.
-/

import Mathlib.Data.List.GetD
import Orderbook.Itch.Wire

namespace Orderbook

def kMoldHeaderBytes : ℕ := 20

def kMoldEndOfSession : UInt16 := 0xFFFF

def kMoldHeartbeat : UInt16 := 0

/-- A parsed packet header. -/
structure MoldHeader where
  session : Vector UInt8 10
  sequenceNumber : UInt64
  messageCount : UInt16
  deriving DecidableEq, Repr

namespace MoldHeader

/-- The sequence number after the last message of the packet. -/
def next (header : MoldHeader) : ℕ := header.sequenceNumber.toNat + header.messageCount.toNat

/-- The header on the wire. -/
def wire (header : MoldHeader) : List UInt8 :=
  header.session.toList ++ (wireRef header.sequenceNumber ++ wire16 header.messageCount)

theorem length_wire (header : MoldHeader) : header.wire.length = kMoldHeaderBytes := by
  rw [wire, List.length_append, header.session.length_toList]
  rfl

end MoldHeader

/-- Read a header. The sequence number is loaded as one word and swapped by
halves. -/
def parseMoldHeader (data : Memory) : MoldHeader :=
  let seqBe := data.load64 10
  let hi := ntohl (seqBe &&& 0xFFFFFFFF).toUInt32
  let lo := ntohl (seqBe >>> 32).toUInt32
  let cntBe := data.load16 18
  { session := Vector.ofFn fun i => data i
    sequenceNumber := (hi.toUInt64 <<< 32) ||| lo.toUInt64
    messageCount := ntohs cntBe }

/-- Only the bytes of the header are read. -/
theorem parseMoldHeader_congr {data data' : Memory}
    (hagree : ∀ i < kMoldHeaderBytes, data i = data' i) :
    parseMoldHeader data = parseMoldHeader data' := by
  have hsequence : data.load64 10 = data'.load64 10 := by
    simp only [Memory.load64, Memory.load32]
    rw [hagree 10, hagree 11, hagree 12, hagree 13, hagree 14, hagree 15, hagree 16, hagree 17]
    all_goals decide
  have hcount : data.load16 18 = data'.load16 18 := by
    rw [Memory.load16, Memory.load16, hagree 18 (by decide), hagree 19 (by decide)]
  have hsession : (fun i : Fin 10 => data i) = fun i : Fin 10 => data' i := by
    funext i
    exact hagree i (i.isLt.trans (by decide))
  unfold parseMoldHeader
  rw [hsequence, hcount, hsession]

/-- The mask in front of a cast to the low half does nothing. -/
theorem toUInt32_and_mask (word : UInt64) :
    (word &&& 0xFFFFFFFF).toUInt32 = word.toUInt32 := by
  apply UInt32.toNat_inj.mp
  rw [UInt64.toNat_toUInt32, UInt64.toNat_toUInt32, UInt64.toNat_and]
  change (word.toNat &&& (2 ^ 32 - 1)) % 2 ^ 32 = word.toNat % 2 ^ 32
  rw [Nat.and_two_pow_sub_one_eq_mod, Nat.mod_mod]

/-- The two halves of a loaded word are the words loaded by halves. -/
theorem load64_halves (mem : Memory) (offset : ℕ) :
    (mem.load64 offset &&& 0xFFFFFFFF).toUInt32 = mem.load32 offset ∧
      (mem.load64 offset >>> 32).toUInt32 = mem.load32 (offset + 4) := by
  have hjoin : mem.load64 offset = joinRef (mem.load32 (offset + 4)) (mem.load32 offset) :=
    UInt64.or_comm _ _
  obtain ⟨hhigh, hlow⟩ := split_joinRef (mem.load32 (offset + 4)) (mem.load32 offset)
  rw [hjoin, toUInt32_and_mask]
  exact ⟨hlow, hhigh⟩

/-- A header written in network order is read back. -/
theorem parseMoldHeader_wire (header : MoldHeader) (body : List UInt8) :
    parseMoldHeader (Memory.ofList (header.wire ++ body)) = header := by
  set mem := Memory.ofList (header.wire ++ body) with hdata
  have hlength : header.session.toList.length = 10 := header.session.length_toList
  have hfields : ∀ i, mem (10 + i) = Memory.ofList
      (wireRef header.sequenceNumber ++ wire16 header.messageCount ++ body) i := by
    intro i
    rw [hdata, MoldHeader.wire, List.append_assoc]
    unfold Memory.ofList
    rw [List.getD_append_right _ _ _ _ (by omega), hlength, Nat.add_sub_cancel_left]
  have hsession : Vector.ofFn (fun i : Fin 10 => mem i) = header.session := by
    ext i hi
    rw [Vector.getElem_ofFn, hdata, MoldHeader.wire, List.append_assoc]
    unfold Memory.ofList
    rw [List.getD_append _ _ _ _ (by omega), List.getD_eq_getElem _ _ (by omega),
      Vector.getElem_toList]
  have hhigh : ItchParser.readU32 mem 10 = ((header.sequenceNumber >>> 32).toUInt32, 14) :=
    ItchParser.readU32_wire (hfields 0) (hfields 1) (hfields 2) (hfields 3)
  have hlow : ItchParser.readU32 mem 14 = (header.sequenceNumber.toUInt32, 18) :=
    ItchParser.readU32_wire (hfields 4) (hfields 5) (hfields 6) (hfields 7)
  have hcount : ntohs (mem.load16 18) = header.messageCount := by
    rw [Memory.load16, hfields 8, hfields 9]
    exact ntohs_load header.messageCount
  obtain ⟨hfirst, hsecond⟩ := load64_halves mem 10
  have hsequence : joinRef (ntohl (mem.load32 10)) (ntohl (mem.load32 14)) =
      header.sequenceNumber := by
    rw [(Prod.mk.inj hhigh).1, (Prod.mk.inj hlow).1, joinRef_split]
  unfold parseMoldHeader
  dsimp only
  rw [hfirst, hsecond, hsession, hcount]
  change MoldHeader.mk _ (joinRef _ _) _ = header
  rw [hsequence]

end Orderbook
