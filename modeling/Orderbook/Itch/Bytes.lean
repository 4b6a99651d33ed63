/-
# Raw memory on a little-endian host

Every parser of the repository reads wire bytes through a raw pointer: it copies
them into a host integer and swaps that integer out of network order. The
pointer carries no length, so the memory it sees is a total function from
offsets to bytes; how many of those bytes belong to a message is a property of
the caller, not of the read.
-/

namespace Orderbook

/-- What a `const char*` or `const uint8_t*` reads at each offset. -/
abbrev Memory := Nat → UInt8

namespace Memory

/-- The memory seen through a pointer advanced by `offset` bytes. -/
def advance (mem : Memory) (offset : Nat) : Memory := fun i => mem (offset + i)

/-- The memory at the start of a buffer that holds `bytes`. What lies behind the
buffer is arbitrary to its readers; the model puts zeros there. -/
def ofList (bytes : List UInt8) : Memory := fun i => bytes.getD i 0

/-- `memcpy` of two bytes into a `uint16_t`. -/
def load16 (mem : Memory) (offset : Nat) : UInt16 :=
  (mem offset).toUInt16 ||| ((mem (offset + 1)).toUInt16 <<< 8)

/-- `memcpy` of four bytes into a `uint32_t`. -/
def load32 (mem : Memory) (offset : Nat) : UInt32 :=
  (mem offset).toUInt32 ||| ((mem (offset + 1)).toUInt32 <<< 8) |||
    ((mem (offset + 2)).toUInt32 <<< 16) ||| ((mem (offset + 3)).toUInt32 <<< 24)

/-- `memcpy` of eight bytes into a `uint64_t`. -/
def load64 (mem : Memory) (offset : Nat) : UInt64 :=
  (mem.load32 offset).toUInt64 ||| ((mem.load32 (offset + 4)).toUInt64 <<< 32)

end Memory

/-- Network to host order for `uint16_t`. -/
def ntohs (value : UInt16) : UInt16 := (value <<< 8) ||| (value >>> 8)

/-- Network to host order for `uint32_t`. -/
def ntohl (value : UInt32) : UInt32 :=
  (value <<< 24) ||| ((value <<< 8) &&& (0x00FF0000 : UInt32)) |||
    ((value >>> 8) &&& (0x0000FF00 : UInt32)) ||| (value >>> 24)

end Orderbook
