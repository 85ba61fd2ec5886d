import Mathlib.Tactic

/-!
# Kademlia identifiers and numeric addresses

The IP addresses of `core/ip_address.h`, as the numbers their bytes in network order stand for, and
the 160-bit identifiers of `dht/id.h` with the XOR metric, the length of a shared prefix and the
bits at a position. Bit 0 is the most significant one.
-/

namespace Librats

inductive IpAddress
  | unspecified
  | v4 (addr : BitVec 32)
  | v6 (addr : BitVec 128)
  deriving DecidableEq

namespace IpAddress

def isUnspecified : IpAddress → Bool
  | .unspecified => true
  | _ => false

def isV6 : IpAddress → Bool
  | .v6 _ => true
  | _ => false

/-- `is_public_ip`. -/
def isPublic : IpAddress → Bool
  | .unspecified => false
  | .v6 addr =>
    let b0 := addr.extractLsb' 120 8
    let b1 := addr.extractLsb' 112 8
    !(addr == 0) && !(addr == 1) && !(b0 &&& 0xfe == 0xfc) &&
      !(b0 == 0xfe && b1 &&& 0xc0 == 0x80) && !(b0 == 0xff)
  | .v4 addr =>
    let o1 := (addr.extractLsb' 24 8).toNat
    let o2 := (addr.extractLsb' 16 8).toNat
    !(o1 == 0) && !(o1 == 127) && !(o1 == 10) && !(o1 == 172 && 16 ≤ o2 && o2 ≤ 31) &&
      !(o1 == 192 && o2 == 168) && !(o1 == 169 && o2 == 254) && !(o1 == 100 && 64 ≤ o2 && o2 ≤ 127) &&
      !(decide (224 ≤ o1))

/-- `ip_too_close`: the network bytes agree. -/
def tooClose : IpAddress → IpAddress → Bool
  | .v4 a, .v4 b => a.extractLsb' 8 24 == b.extractLsb' 8 24
  | .v6 a, .v6 b => a.extractLsb' 64 64 == b.extractLsb' 64 64
  | _, _ => false

theorem tooClose_comm (a b : IpAddress) : a.tooClose b = b.tooClose a := by
  cases a <;> cases b <;> simp [tooClose, Bool.beq_comm]

end IpAddress

namespace Dht

def kBucketSize : ℕ := 8

/-- The number of bits of an identifier. -/
def kBucketCount : ℕ := 160

/-- `NodeId`, and `InfoHash` in the same space. -/
abbrev NodeId := BitVec 160

/-- A dialable endpoint. -/
structure Address where
  ip : IpAddress
  port : UInt16
  deriving DecidableEq

/-- `a` is strictly closer to the target than `b`. -/
def closerTo (a b target : NodeId) : Bool := decide ((a ^^^ target).toNat < (b ^^^ target).toNat)

/-- The number of leading bits two identifiers share. -/
def sharedPrefixBits (a b : NodeId) : ℕ :=
  if a = b then kBucketCount else kBucketCount - 1 - Nat.log2 (a ^^^ b).toNat

/-- `n` bits from position `start` on; bits past the end read as 0. -/
def bitsAt (id : NodeId) (start n : ℕ) : ℕ :=
  (List.range n).foldl (fun v k => 2 * v + (id.getMsbD (start + k)).toNat) 0

end Dht

end Librats
