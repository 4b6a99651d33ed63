/-
# Writing and reading buffers

`memcpy` moves bytes between buffers. A write puts a list of bytes at an offset
and leaves everything else; a read takes the bytes between two offsets as a list.
Host integers are written with their low byte first.
-/

import Mathlib.Data.List.GetD
import Mathlib.Tactic.SplitIfs
import Orderbook.Itch.Wire

namespace Orderbook

namespace Memory

/-- The `length` bytes behind `offset`. -/
def slice (mem : Memory) (offset length : ℕ) : List UInt8 :=
  (List.range length).map fun i => mem (offset + i)

/-- `memcpy` of `bytes` to `offset`. -/
def store (mem : Memory) (offset : ℕ) (bytes : List UInt8) : Memory := fun i =>
  if offset ≤ i ∧ i < offset + bytes.length then bytes.getD (i - offset) 0 else mem i

end Memory

/-- A `uint16_t` in host order. -/
def hostBytes16 (value : UInt16) : List UInt8 := [value.toUInt8, (value >>> 8).toUInt8]

/-- A `uint32_t` in host order. -/
def hostBytes32 (value : UInt32) : List UInt8 :=
  [value.toUInt8, (value >>> 8).toUInt8, (value >>> 16).toUInt8, (value >>> 24).toUInt8]

/-- A `uint64_t` in host order. -/
def hostBytes64 (value : UInt64) : List UInt8 :=
  hostBytes32 value.toUInt32 ++ hostBytes32 (value >>> 32).toUInt32

/-- Host to network order for `uint16_t`. -/
def htons (value : UInt16) : UInt16 := ntohs value

/-- Host to network order for `uint32_t`. -/
def htonl (value : UInt32) : UInt32 := ntohl value

theorem hostBytes16_htons (value : UInt16) : hostBytes16 (htons value) = wire16 value := by
  have hbytes : (htons value).toUInt8 = (value >>> 8).toUInt8 ∧
      (htons value >>> 8).toUInt8 = value.toUInt8 := by
    constructor
    all_goals
      apply UInt8.toBitVec_inj.mp
      apply BitVec.eq_of_getLsbD_eq
      intro bit hbit
      simp only [htons, ntohs, UInt16.toBitVec_toUInt8, UInt16.toBitVec_or,
        UInt16.toBitVec_shiftLeft, UInt16.toBitVec_shiftRight, BitVec.getLsbD_setWidth]
      interval_cases bit <;> simp
  rw [hostBytes16, hbytes.1, hbytes.2, wire16]

theorem hostBytes32_htonl (value : UInt32) : hostBytes32 (htonl value) = wire32 value := by
  have hbytes : (htonl value).toUInt8 = (value >>> 24).toUInt8 ∧
      (htonl value >>> 8).toUInt8 = (value >>> 16).toUInt8 ∧
      (htonl value >>> 16).toUInt8 = (value >>> 8).toUInt8 ∧
      (htonl value >>> 24).toUInt8 = value.toUInt8 := by
    refine ⟨?_, ?_, ?_, ?_⟩
    all_goals
      apply UInt8.toBitVec_inj.mp
      apply BitVec.eq_of_getLsbD_eq
      intro bit hbit
      simp only [htonl, ntohl, UInt32.toBitVec_toUInt8, UInt32.toBitVec_or, UInt32.toBitVec_and,
        UInt32.toBitVec_shiftLeft, UInt32.toBitVec_shiftRight, BitVec.getLsbD_setWidth]
      interval_cases bit <;> simp
  rw [hostBytes32, hbytes.1, hbytes.2.1, hbytes.2.2.1, hbytes.2.2.2, wire32]

/-- A word put together from its swapped halves has its bytes in network order. -/
theorem hostBytes64_join (value : UInt64) :
    hostBytes64 (joinRef (htonl value.toUInt32) (htonl (value >>> 32).toUInt32)) =
      wireRef value := by
  obtain ⟨hhigh, hlow⟩ := split_joinRef (htonl value.toUInt32) (htonl (value >>> 32).toUInt32)
  rw [hostBytes64, hlow, hhigh, hostBytes32_htonl, hostBytes32_htonl, wireRef]

/-- Two bytes read in network order are the bytes of what was read. -/
theorem wire16_ntohs (first second : UInt8) :
    wire16 (ntohs (first.toUInt16 ||| (second.toUInt16 <<< 8))) = [first, second] := by
  have hbytes : (ntohs (first.toUInt16 ||| (second.toUInt16 <<< 8)) >>> 8).toUInt8 = first ∧
      (ntohs (first.toUInt16 ||| (second.toUInt16 <<< 8))).toUInt8 = second := by
    constructor
    all_goals
      apply UInt8.toBitVec_inj.mp
      apply BitVec.eq_of_getLsbD_eq
      intro bit hbit
      simp only [ntohs, UInt16.toBitVec_toUInt8, UInt16.toBitVec_or, UInt16.toBitVec_shiftLeft,
        UInt16.toBitVec_shiftRight, UInt8.toBitVec_toUInt16, BitVec.getLsbD_setWidth]
      interval_cases bit <;> simp
  rw [wire16, hbytes.1, hbytes.2]

/-- The number that bytes in network order stand for. -/
def bigEndian (bytes : List UInt8) : ℕ :=
  bytes.foldl (fun value byte => 256 * value + byte.toNat) 0

theorem bigEndian_wireRef (value : UInt64) : bigEndian (wireRef value) = value.toNat := by
  have hbound := value.toNat_lt
  simp [bigEndian, wireRef, wire32, Nat.shiftRight_eq_div_pow]
  omega

namespace Memory

variable (mem : Memory)

@[simp]
theorem length_slice (offset length : ℕ) : (mem.slice offset length).length = length := by
  simp [slice]

theorem getElem_slice (offset length i : ℕ) (hi : i < (mem.slice offset length).length) :
    (mem.slice offset length)[i] = mem (offset + i) := by
  simp [slice]

/-- A slice is a slice followed by a slice. -/
theorem slice_add (offset first second : ℕ) :
    mem.slice offset (first + second) =
      mem.slice offset first ++ mem.slice (offset + first) second := by
  simp [slice, List.range_add, Nat.add_assoc]

/-- A slice seen through an advanced pointer. -/
theorem slice_advance (start offset length : ℕ) :
    (mem.advance start).slice offset length = mem.slice (start + offset) length := by
  simp [slice, advance, Nat.add_assoc]

/-- Memories that agree on a range have the same slice there. -/
theorem slice_congr {mem mem' : Memory} {offset length : ℕ}
    (hagree : ∀ i, offset ≤ i → i < offset + length → mem i = mem' i) :
    mem.slice offset length = mem'.slice offset length := by
  apply List.map_congr_left
  intro i hi
  have hless := List.mem_range.mp hi
  exact hagree (offset + i) (Nat.le_add_right _ _) (by omega)

/-- A buffer read back in full. -/
theorem slice_ofList (bytes : List UInt8) : (ofList bytes).slice 0 bytes.length = bytes := by
  apply List.ext_getElem (by simp)
  intro i hi hi'
  rw [getElem_slice, Nat.zero_add, ofList, List.getD_eq_getElem _ _ hi']

theorem store_of_le {offset i : ℕ} (bytes : List UInt8) (hle : offset + bytes.length ≤ i) :
    mem.store offset bytes i = mem i :=
  if_neg (by omega)

/-- Two stores in a row are one store. -/
theorem store_store (offset : ℕ) (first second : List UInt8) :
    (mem.store offset first).store (offset + first.length) second =
      mem.store offset (first ++ second) := by
  funext i
  simp only [store, List.length_append]
  split_ifs with hsecond hboth hfirst
  · rw [List.getD_append_right _ _ _ _ (by omega)]
    congr 1
    omega
  · omega
  · rw [List.getD_append _ _ _ _ (by omega)]
  all_goals first | rfl | omega

/-- A store over bytes of the same number replaces them. -/
theorem store_store_of_length_eq (offset : ℕ) {first second : List UInt8}
    (hlength : first.length = second.length) :
    (mem.store offset first).store offset second = mem.store offset second := by
  funext i
  simp only [store, hlength]
  split <;> rfl

/-- What was stored is read back. -/
theorem slice_store (offset : ℕ) (bytes : List UInt8) :
    (mem.store offset bytes).slice offset bytes.length = bytes := by
  apply List.ext_getElem (by simp)
  intro i hi hi'
  rw [getElem_slice, store, if_pos (by omega), Nat.add_sub_cancel_left,
    List.getD_eq_getElem _ _ hi']

end Memory

end Orderbook
