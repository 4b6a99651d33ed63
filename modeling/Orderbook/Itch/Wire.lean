/-
# Messages on the wire

A feed writes the fields of a message in network order at the offsets where the
parsers read them. Every message the engine distinguishes has such a form, and
reading it back gives the message. So a statement about all streams of full-length
messages is a statement about all sequences of engine messages.
-/

import Orderbook.Itch.Parser
import Mathlib.Tactic.IntervalCases

namespace Orderbook

/-- The two bytes of a `uint16_t` in network order. -/
def wire16 (value : UInt16) : List UInt8 := [(value >>> 8).toUInt8, value.toUInt8]

/-- The four bytes of a `uint32_t` in network order. -/
def wire32 (value : UInt32) : List UInt8 :=
  [(value >>> 24).toUInt8, (value >>> 16).toUInt8, (value >>> 8).toUInt8, value.toUInt8]

/-- A reference number in network order. -/
def wireRef (ref : UInt64) : List UInt8 :=
  wire32 (ref >>> 32).toUInt32 ++ wire32 ref.toUInt32

/-- Loading four bytes and swapping them reads them in network order. -/
theorem ntohl_load (first second third fourth : UInt8) :
    ntohl (first.toUInt32 ||| (second.toUInt32 <<< 8) ||| (third.toUInt32 <<< 16) |||
        (fourth.toUInt32 <<< 24)) =
      (first.toUInt32 <<< 24) ||| (second.toUInt32 <<< 16) ||| (third.toUInt32 <<< 8) |||
        fourth.toUInt32 := by
  apply UInt32.toBitVec_inj.mp
  apply BitVec.eq_of_getLsbD_eq
  intro bit hbit
  unfold ntohl
  simp only [UInt32.toBitVec_or, UInt32.toBitVec_and, UInt32.toBitVec_shiftLeft,
    UInt32.toBitVec_shiftRight, UInt8.toBitVec_toUInt32, BitVec.getLsbD_or, BitVec.getLsbD_and]
  interval_cases bit <;> simp

/-- The bytes of a `uint32_t` in network order make it up again. -/
theorem join_wire32 (value : UInt32) :
    ((value >>> 24).toUInt8.toUInt32 <<< 24) ||| ((value >>> 16).toUInt8.toUInt32 <<< 16) |||
      ((value >>> 8).toUInt8.toUInt32 <<< 8) ||| value.toUInt8.toUInt32 = value := by
  apply UInt32.toBitVec_inj.mp
  apply BitVec.eq_of_getLsbD_eq
  intro bit hbit
  simp only [UInt32.toBitVec_or, UInt32.toBitVec_shiftLeft, UInt8.toBitVec_toUInt32,
    BitVec.getLsbD_or]
  interval_cases bit <;> simp

/-- Loading two bytes in network order and swapping them reads the value. -/
theorem ntohs_load (value : UInt16) :
    ntohs ((value >>> 8).toUInt8.toUInt16 ||| (value.toUInt8.toUInt16 <<< 8)) = value := by
  apply UInt16.toBitVec_inj.mp
  apply BitVec.eq_of_getLsbD_eq
  intro bit hbit
  unfold ntohs
  simp only [UInt16.toBitVec_or, UInt16.toBitVec_shiftLeft, UInt16.toBitVec_shiftRight,
    UInt8.toBitVec_toUInt16, BitVec.getLsbD_or]
  interval_cases bit <;> simp

theorem split_joinRef (high low : UInt32) :
    (joinRef high low >>> 32).toUInt32 = high ∧ (joinRef high low).toUInt32 = low := by
  have hjoin := toNat_joinRef high low
  have hhigh := high.toNat_lt
  have hlow := low.toNat_lt
  constructor
  · apply UInt32.toNat_inj.mp
    simp only [UInt64.toNat_toUInt32, UInt64.toNat_shiftRight, hjoin]
    change (high.toNat * 2 ^ 32 + low.toNat) >>> 32 % 2 ^ 32 = high.toNat
    rw [Nat.shiftRight_eq_div_pow]
    omega
  · apply UInt32.toNat_inj.mp
    simp only [UInt64.toNat_toUInt32, hjoin]
    omega

namespace ItchParser

/-- A field written in network order is read back. -/
theorem readU32_wire {mem : Memory} {data : ℕ} {value : UInt32}
    (h0 : mem data = (value >>> 24).toUInt8) (h1 : mem (data + 1) = (value >>> 16).toUInt8)
    (h2 : mem (data + 2) = (value >>> 8).toUInt8) (h3 : mem (data + 3) = value.toUInt8) :
    readU32 mem data = (value, data + 4) := by
  rw [readU32, Memory.load32, h0, h1, h2, h3, ntohl_load, join_wire32]

/-- A reference number written in network order is read back. -/
theorem readRef_wire {mem : Memory} {data : ℕ} {ref : UInt64}
    (h0 : mem data = ((ref >>> 32).toUInt32 >>> 24).toUInt8)
    (h1 : mem (data + 1) = ((ref >>> 32).toUInt32 >>> 16).toUInt8)
    (h2 : mem (data + 2) = ((ref >>> 32).toUInt32 >>> 8).toUInt8)
    (h3 : mem (data + 3) = (ref >>> 32).toUInt32.toUInt8)
    (h4 : mem (data + 4) = (ref.toUInt32 >>> 24).toUInt8)
    (h5 : mem (data + 5) = (ref.toUInt32 >>> 16).toUInt8)
    (h6 : mem (data + 6) = (ref.toUInt32 >>> 8).toUInt8)
    (h7 : mem (data + 7) = ref.toUInt32.toUInt8) :
    readRef mem data = (ref, data + 8) := by
  have hhigh : readU32 mem data = ((ref >>> 32).toUInt32, data + 4) := readU32_wire h0 h1 h2 h3
  have hlow : readU32 mem (data + 4) = (ref.toUInt32, data + 8) := readU32_wire h4 h5 h6 h7
  simp [readRef, hhigh, hlow, joinRef_split]

end ItchParser

namespace ItchMessage

/-- The bytes of a message. Fields the engine does not read are zero. -/
def wire : ItchMessage → List UInt8
  | add stockLocate order =>
      'A'.toUInt8 :: (wire16 stockLocate ++ List.replicate 8 0 ++
        wire32 order.orderReferenceNumberHigh ++ wire32 order.orderReferenceNumberLow ++
        [order.buySellIndicator] ++ wire32 order.shares ++ List.replicate 8 0 ++
        wire32 order.price)
  | delete message =>
      'D'.toUInt8 :: (List.replicate 10 0 ++ wire32 message.orderReferenceNumberHigh ++
        wire32 message.orderReferenceNumberLow)
  | executed message =>
      'E'.toUInt8 :: (List.replicate 10 0 ++ wireRef message.orderRef ++ wire32 message.shares)
  | replace message =>
      'U'.toUInt8 :: (List.replicate 10 0 ++ wireRef message.originalOrderRef ++
        wireRef message.newOrderRef ++ wire32 message.shares ++ wire32 message.price)
  | ignored => ['S'.toUInt8]

/-- The message as a feed delivers it. -/
def encode (message : ItchMessage) : FullMessage where
  bytes := message.wire
  full := by cases message <;> exact Nat.le_refl _

/-- Reading a message off the wire gives it back. -/
theorem decoded_encode (message : ItchMessage) : message.encode.decoded = message := by
  set mem := Memory.ofList message.wire with hmem
  change decode mem = message
  cases message with
  | add stockLocate order =>
      have hlocate : ntohs (mem.load16 1) = stockLocate := ntohs_load stockLocate
      have hhigh : ItchParser.readU32 mem 11 = (order.orderReferenceNumberHigh, 15) :=
        ItchParser.readU32_wire rfl rfl rfl rfl
      have hlow : ItchParser.readU32 mem 15 = (order.orderReferenceNumberLow, 19) :=
        ItchParser.readU32_wire rfl rfl rfl rfl
      have hside : mem 19 = order.buySellIndicator := rfl
      have hshares : ItchParser.readU32 mem 20 = (order.shares, 24) :=
        ItchParser.readU32_wire rfl rfl rfl rfl
      have hprice : ItchParser.readU32 mem 32 = (order.price, 36) :=
        ItchParser.readU32_wire rfl rfl rfl rfl
      change add (ntohs (mem.load16 1)) (ItchParser.readAddOrder mem 1) = _
      simp [ItchParser.readAddOrder, ItchParser.skipHeader, ItchParser.readRef, hlocate, hhigh,
        hlow, hside, hshares, hprice, split_joinRef]
  | delete message =>
      have hhigh : ItchParser.readU32 mem 11 = (message.orderReferenceNumberHigh, 15) :=
        ItchParser.readU32_wire rfl rfl rfl rfl
      have hlow : ItchParser.readU32 mem 15 = (message.orderReferenceNumberLow, 19) :=
        ItchParser.readU32_wire rfl rfl rfl rfl
      change delete (ItchParser.readDeleteOrder mem 1) = _
      simp [ItchParser.readDeleteOrder, ItchParser.skipHeader, ItchParser.readRef, hhigh, hlow,
        split_joinRef]
  | executed message =>
      have href : ItchParser.readRef mem 11 = (message.orderRef, 19) :=
        ItchParser.readRef_wire rfl rfl rfl rfl rfl rfl rfl rfl
      have hshares : ItchParser.readU32 mem 19 = (message.shares, 23) :=
        ItchParser.readU32_wire rfl rfl rfl rfl
      change executed (ItchParser.readOrderExecuted mem 1) = _
      simp [ItchParser.readOrderExecuted, ItchParser.skipHeader, href, hshares]
  | replace message =>
      have horiginal : ItchParser.readRef mem 11 = (message.originalOrderRef, 19) :=
        ItchParser.readRef_wire rfl rfl rfl rfl rfl rfl rfl rfl
      have hnew : ItchParser.readRef mem 19 = (message.newOrderRef, 27) :=
        ItchParser.readRef_wire rfl rfl rfl rfl rfl rfl rfl rfl
      have hshares : ItchParser.readU32 mem 27 = (message.shares, 31) :=
        ItchParser.readU32_wire rfl rfl rfl rfl
      have hprice : ItchParser.readU32 mem 31 = (message.price, 35) :=
        ItchParser.readU32_wire rfl rfl rfl rfl
      change replace (ItchParser.readOrderReplace mem 1) = _
      simp [ItchParser.readOrderReplace, ItchParser.skipHeader, horiginal, hnew, hshares, hprice]
  | ignored => rfl

end ItchMessage

end Orderbook
