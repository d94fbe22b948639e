import Aethon.Container.SingleThreadHashMap

/-!
# Session keys

The keys of the fragment table and of the TCP session table with their hashers. Addresses
and ports are kept as they stand in the packet; the padding of the source structs takes no
part in comparison or hashing.
-/

namespace Aethon

/-- The mixing steps that both key hashers end with. -/
def mixHash (h1 h2 : BitVec 64) : Nat :=
  let h1 := h1 ^^^ (h2 + 0x9e3779b97f4a7c15#64 + (h1 <<< 6) + (h1 >>> 2))
  let h1 := h1 ^^^ (h1 >>> 30)
  let h1 := h1 * 0xbf58476d1ce4e5b9#64
  let h1 := h1 ^^^ (h1 >>> 27)
  let h1 := h1 * 0x94d049bb133111eb#64
  let h1 := h1 ^^^ (h1 >>> 31)
  h1.toNat

structure FragmentKey where
  srcIp : BitVec 32
  dstIp : BitVec 32
  ipId : BitVec 16
  protocol : BitVec 8
  deriving DecidableEq, Repr

def kEmptyFragmentKey : FragmentKey := ⟨0,0,0,0⟩

/-- `FragmentKeyHasher`. -/
def fragmentKeyHasher (k : FragmentKey) : Nat :=
  mixHash ((k.srcIp.setWidth 64 <<< 32) ||| k.dstIp.setWidth 64)
    ((k.ipId.setWidth 64 <<< 16) ||| k.protocol.setWidth 64)

structure TcpKey where
  srcIp : BitVec 32
  dstIp : BitVec 32
  srcPort : BitVec 16
  dstPort : BitVec 16
  deriving DecidableEq, Repr

def kEmptyTcpKey : TcpKey := ⟨0,0,0,0⟩

/-- `TcpKeyHasher`. -/
def tcpKeyHasher (k : TcpKey) : Nat :=
  mixHash ((k.srcIp.setWidth 64 <<< 32) ||| k.dstIp.setWidth 64)
    ((k.srcPort.setWidth 64 <<< 16) ||| k.dstPort.setWidth 64)

/-- `ntohs`. -/
def ntohs (x : BitVec 16) : BitVec 16 := (x <<< 8) ||| (x >>> 8)

end Aethon
