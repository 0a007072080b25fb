import Mathlib.Data.FinEnum

/-!
# Addresses, flow keys and their hash

The value types that the data plane and the control plane share (`libs/common`, `net/flow_key.hpp`).
A flow key is the 5-tuple of a packet; the source keeps three zero padding bytes after it, so that
comparing the sixteen bytes of two keys is comparing their fields. `Hash` has two bodies, chosen by
the preprocessor: `crc32` of the two halves when SSE 4.2 is available, FNV-1a otherwise. Everything
that is proved about the tables is proved for an arbitrary hash function, hence for both bodies.

## Main definitions

* `Cerebellum.MacAddr`, `Cerebellum.FlowKey`.
* `Cerebellum.HashImpl`, `Cerebellum.FlowKey.hash`: the two bodies of `Hash`.
* `Cerebellum.steerWorker`.
-/

namespace Cerebellum

/-- A MAC address, `std::array<uint8_t, 6>`. -/
structure MacAddr where
  bytes : Fin 6 → UInt8 := fun _ => 0
deriving DecidableEq, Inhabited

/-- The 5-tuple of a packet; the three padding bytes of the source are always zero. -/
@[ext] structure FlowKey where
  srcIp : UInt32 := 0
  dstIp : UInt32 := 0
  srcPort : UInt16 := 0
  dstPort : UInt16 := 0
  proto : UInt8 := 0
deriving DecidableEq, Inhabited

namespace FlowKey

/-- The `k` low bytes of a number, the lowest first. -/
def leBytes : ℕ → ℕ → List UInt8
  | 0, _ => []
  | k + 1, v => UInt8.ofNat v :: leBytes k (v / 256)

/-- The sixteen bytes of a key in memory, on a little-endian machine. -/
def toBytes (key : FlowKey) : List UInt8 :=
  leBytes 4 key.srcIp.toNat ++ leBytes 4 key.dstIp.toNat ++ leBytes 2 key.srcPort.toNat ++
    leBytes 2 key.dstPort.toNat ++ [key.proto] ++ [0, 0, 0]

end FlowKey

/-! ### The hash of a key -/

/-- Which body of `Hash` the preprocessor selects. -/
inductive HashImpl where
  | sse42
  | portable
deriving DecidableEq, Inhabited

/-- One bit of the `crc32` instruction, with the reflected Castagnoli polynomial. -/
def crc32Bit (crc : UInt32) : UInt32 :=
  if crc &&& 1 = 1 then (crc >>> 1) ^^^ 0x82F63B78 else crc >>> 1

/-- The `crc32` instruction on one byte. The 64-bit form is this on the eight bytes of the word,
the lowest first. -/
def crc32Byte (crc : UInt32) (b : UInt8) : UInt32 :=
  Nat.iterate crc32Bit 8 (crc ^^^ b.toUInt32)

/-- One round of FNV-1a. -/
def fnvByte (h : UInt32) (b : UInt8) : UInt32 :=
  (h ^^^ b.toUInt32) * 16777619

/-- `Hash` of a key, with `kCrcSeed` and `kFnvOffsetBasis` as the two seeds. -/
def FlowKey.hash (impl : HashImpl) (key : FlowKey) : UInt32 :=
  match impl with
  | .sse42 => key.toBytes.foldl crc32Byte 0xDEADBEEF
  | .portable => key.toBytes.foldl fnvByte 2166136261

/-- `SteerWorker`: the worker that a key is steered to, as the remainder of its hash. -/
def steerWorker (hash : FlowKey → UInt32) (key : FlowKey) (nWorkers : ℕ) : ℕ :=
  (hash key).toNat % nWorkers

end Cerebellum
