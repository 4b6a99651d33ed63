/-
# ITCH messages

The parsers read fixed offsets behind the type byte. They return the parsed
record together with the advanced read position, as the source does through its
pointer reference. `ItchMessage` is the engine's view of one message: which
handler it reaches and with which fields.

A message is full-length when it holds every byte that the parser for its type
reads. The engine itself never checks this.
-/

import Orderbook.Itch.Bytes
import Mathlib.Algebra.Group.Nat.Defs
import Mathlib.Data.Nat.Bits
import Mathlib.Tactic.SplitIfs

namespace Orderbook

/-- A limit order as the book stores it. -/
structure Order where
  orderReferenceNumberHigh : UInt32
  orderReferenceNumberLow : UInt32
  shares : UInt32
  price : UInt32
  buySellIndicator : UInt8
  deriving DecidableEq, Repr, Inhabited

/-- The 64-bit reference number assembled from its two stored halves. -/
def joinRef (high low : UInt32) : UInt64 := (high.toUInt64 <<< 32) ||| low.toUInt64

theorem toNat_joinRef (high low : UInt32) :
    (joinRef high low).toNat = high.toNat * 2 ^ 32 + low.toNat := by
  have hhigh := high.toNat_lt
  have hor : high.toNat <<< 32 ||| low.toNat = high.toNat <<< 32 + low.toNat :=
    (Nat.shiftLeft_add_eq_or_of_lt low.toNat_lt high.toNat).symm
  have hmod : high.toNat * 2 ^ 32 % 2 ^ 64 = high.toNat * 2 ^ 32 :=
    Nat.mod_eq_of_lt (by omega)
  simp only [joinRef, UInt64.toNat_or, UInt64.toNat_shiftLeft, UInt32.toNat_toUInt64]
  change (high.toNat <<< 32) % 2 ^ 64 ||| low.toNat = _
  rw [Nat.shiftLeft_eq, hmod, ← Nat.shiftLeft_eq, hor, Nat.shiftLeft_eq]

/-- Splitting a reference number into its stored halves loses nothing. -/
theorem joinRef_split (ref : UInt64) :
    joinRef (ref >>> 32).toUInt32 ref.toUInt32 = ref := by
  apply UInt64.toNat_inj.mp
  have hbound := ref.toNat_lt
  simp only [toNat_joinRef, UInt64.toNat_toUInt32, UInt64.toNat_shiftRight]
  change (ref.toNat >>> 32) % 2 ^ 32 * 2 ^ 32 + ref.toNat % 2 ^ 32 = ref.toNat
  rw [Nat.shiftRight_eq_div_pow]
  omega

/-- The order's 64-bit reference number. -/
def Order.ref (order : Order) : UInt64 :=
  joinRef order.orderReferenceNumberHigh order.orderReferenceNumberLow

/-- The side byte of a bid. -/
def buyByte : UInt8 := 'B'.toUInt8

/-- The side byte of an ask. -/
def sellByte : UInt8 := 'S'.toUInt8

structure DeleteOrder where
  orderReferenceNumberHigh : UInt32
  orderReferenceNumberLow : UInt32
  deriving DecidableEq, Repr

/-- Parsed form of `E`, `C` and `X`. -/
structure OrderExecutedMsg where
  orderRef : UInt64
  shares : UInt32
  deriving DecidableEq, Repr

/-- Parsed form of `U`. -/
structure OrderReplaceMsg where
  originalOrderRef : UInt64
  newOrderRef : UInt64
  shares : UInt32
  price : UInt32
  deriving DecidableEq, Repr

namespace ItchParser

/-- Skip stock locate, tracking number and timestamp. -/
def skipHeader (data : ℕ) : ℕ := data + 10

/-- Read a big-endian `uint32_t` and advance. -/
def readU32 (mem : Memory) (data : ℕ) : UInt32 × ℕ :=
  (ntohl (mem.load32 data), data + 4)

/-- Read a reference number stored as two big-endian words. -/
def readRef (mem : Memory) (data : ℕ) : UInt64 × ℕ :=
  let (high, data) := readU32 mem data
  let (low, data) := readU32 mem data
  (joinRef high low, data)

def readDeleteOrder (mem : Memory) (data : ℕ) : DeleteOrder :=
  let data := skipHeader data
  let (ref, _) := readRef mem data
  { orderReferenceNumberHigh := (ref >>> 32).toUInt32
    orderReferenceNumberLow := ref.toUInt32 }

def readAddOrder (mem : Memory) (data : ℕ) : Order :=
  let data := skipHeader data
  let (ref, data) := readRef mem data
  let side := mem data
  let data := data + 1
  let (shares, data) := readU32 mem data
  let data := data + 8
  let (price, _) := readU32 mem data
  { orderReferenceNumberHigh := (ref >>> 32).toUInt32
    orderReferenceNumberLow := ref.toUInt32
    shares
    price
    buySellIndicator := side }

def readOrderExecuted (mem : Memory) (data : ℕ) : OrderExecutedMsg :=
  let data := skipHeader data
  let (orderRef, data) := readRef mem data
  let (shares, _) := readU32 mem data
  { orderRef, shares }

def readOrderReplace (mem : Memory) (data : ℕ) : OrderReplaceMsg :=
  let data := skipHeader data
  let (originalOrderRef, data) := readRef mem data
  let (newOrderRef, data) := readRef mem data
  let (shares, data) := readU32 mem data
  let (price, _) := readU32 mem data
  { originalOrderRef, newOrderRef, shares, price }

end ItchParser

/-- The handlers of `processMessage`, each with the fields it receives. -/
inductive ItchMessage
  | add (stockLocate : UInt16) (order : Order)
  | delete (message : DeleteOrder)
  | executed (message : OrderExecutedMsg)
  | replace (message : OrderReplaceMsg)
  | ignored
  deriving DecidableEq, Repr

/-- Bytes that the parser behind a type byte reads, type byte included. -/
def requiredLength (messageType : UInt8) : ℕ :=
  if messageType = 'A'.toUInt8 ∨ messageType = 'F'.toUInt8 then 36
  else if messageType = 'D'.toUInt8 then 19
  else if messageType = 'E'.toUInt8 ∨ messageType = 'C'.toUInt8 ∨
      messageType = 'X'.toUInt8 then 23
  else if messageType = 'U'.toUInt8 then 35
  else 1

/-- Dispatch on the type byte and parse the rest of the message. -/
def ItchMessage.decode (mem : Memory) : ItchMessage :=
  let messageType := mem 0
  let data := 1
  if messageType = 'A'.toUInt8 ∨ messageType = 'F'.toUInt8 then
    .add (ntohs (mem.load16 data)) (ItchParser.readAddOrder mem data)
  else if messageType = 'D'.toUInt8 then
    .delete (ItchParser.readDeleteOrder mem data)
  else if messageType = 'E'.toUInt8 ∨ messageType = 'C'.toUInt8 ∨
      messageType = 'X'.toUInt8 then
    .executed (ItchParser.readOrderExecuted mem data)
  else if messageType = 'U'.toUInt8 then
    .replace (ItchParser.readOrderReplace mem data)
  else .ignored

/-- Every message has a type byte. -/
theorem requiredLength_pos (messageType : UInt8) : 0 < requiredLength messageType := by
  unfold requiredLength
  split_ifs
  all_goals decide

/-- A message cut to the bytes its type requires is decoded as before. -/
theorem ItchMessage.decode_cut (mem : Memory) :
    decode (fun i => if i < requiredLength (mem 0) then mem i else 0) = decode mem := by
  have htype : (if 0 < requiredLength (mem 0) then mem 0 else 0) = mem 0 :=
    if_pos (requiredLength_pos (mem 0))
  simp only [decode, htype]
  by_cases hadd : mem 0 = 'A'.toUInt8 ∨ mem 0 = 'F'.toUInt8
  · simp only [requiredLength, if_pos hadd]
    rfl
  by_cases hdelete : mem 0 = 'D'.toUInt8
  · simp only [requiredLength, if_neg hadd, if_pos hdelete]
    rfl
  by_cases hexecuted : mem 0 = 'E'.toUInt8 ∨ mem 0 = 'C'.toUInt8 ∨ mem 0 = 'X'.toUInt8
  · simp only [requiredLength, if_neg hadd, if_neg hdelete, if_pos hexecuted]
    rfl
  by_cases hreplace : mem 0 = 'U'.toUInt8
  · simp only [requiredLength, if_neg hadd, if_neg hdelete, if_neg hexecuted, if_pos hreplace]
    rfl
  · simp only [if_neg hadd, if_neg hdelete, if_neg hexecuted, if_neg hreplace]

/-- A message is decoded from the bytes its type requires. -/
theorem ItchMessage.decode_congr {mem mem' : Memory}
    (hagree : ∀ i < requiredLength (mem 0), mem i = mem' i) : decode mem = decode mem' := by
  have htype := hagree 0 (requiredLength_pos (mem 0))
  rw [← decode_cut mem, ← decode_cut mem', ← htype]
  congr 1
  funext i
  split
  case isTrue hread => exact hagree i hread
  case isFalse => rfl

/-- A message that holds all the bytes its parser reads. -/
structure FullMessage where
  bytes : List UInt8
  full : requiredLength (bytes.headD 0) ≤ bytes.length

namespace FullMessage

/-- The memory at the message's type byte. -/
def memory (message : FullMessage) : Memory := Memory.ofList message.bytes

/-- What the engine makes of the message. -/
def decoded (message : FullMessage) : ItchMessage := ItchMessage.decode message.memory

end FullMessage

end Orderbook
