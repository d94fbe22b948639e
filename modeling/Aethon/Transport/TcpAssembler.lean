import Aethon.Container.OwnedTable
import Aethon.Transport.TcpSession

/-!
# The TCP assembler engine

The engine owns the sessions of all connections. Deleting a session closes its backend
socket, so the sockets of the process are part of the state.
-/

namespace Aethon

open Framework

def maxActiveTcpSession : Nat := 65536
def tcpSynTimeoutNs : BitVec 64 := 3000000000#64
def tcpEstabTimeoutNs : BitVec 64 := 30000000000#64
def tcpCleanupIntervalNs : BitVec 64 := 1000000000#64

/-- What a descriptor is registered with in the epoll set: the session address, and whether
EPOLLOUT is part of its mask. -/
structure EpollEntry where
  session : Nat
  out : Bool

/-- Open backend sockets with the port each was connected to, and the epoll set. -/
structure Kernel where
  sockets : Nat → Option (BitVec 16)
  epoll : Nat → Option EpollEntry

namespace Kernel

def empty : Kernel := ⟨fun _ => none,fun _ => none⟩

/-- `close`; the kernel drops a closed descriptor from the epoll set. -/
def close (k : Kernel) (fd : Nat) : Kernel :=
  ⟨Function.update k.sockets fd none,Function.update k.epoll fd none⟩

/-- `close` of a descriptor that may be negative. -/
def closeIfOpen (k : Kernel) : Option Nat → Kernel
  | none => k
  | some fd => k.close fd

end Kernel

structure TcpAssemblerEngine where
  sessions : SingleThreadHashMap TcpKey Nat
  heap : Heap TcpStreamSession
  kernel : Kernel
  lastCleanupNs : BitVec 64

/-- One call of `process_packet`: the packet, the clock, whether `new (std::nothrow)`
succeeds, and what the allocator leaves in a new ring. -/
structure PacketCall where
  packet : TcpPacket
  nowNs : BitVec 64
  allocated : Bool
  garbage : Nat → UInt8

namespace TcpAssemblerEngine

def new : TcpAssemblerEngine where
  sessions := .new kEmptyTcpKey tcpKeyHasher 0 17
  heap := .empty
  kernel := .empty
  lastCleanupNs := 0

def isExpired (nowNs : BitVec 64) (s : TcpStreamSession) : Bool :=
  let age := nowNs - s.lastSeenNs
  if s.state = .synSent then age > tcpSynTimeoutNs else age > tcpEstabTimeoutNs

/-- `delete session; sessions_.erase(key)`. -/
def deleteSession (e : TcpAssemblerEngine) (key : TcpKey) (p : Nat) (s : TcpStreamSession) :
    Checked TcpAssemblerEngine := do
  let (_,sessions) ← e.sessions.erase key
  return { e with
    sessions := sessions
    heap := e.heap.free p
    kernel := e.kernel.closeIfOpen s.backendFd }

/-- One cell of the loop of `purged_expired`. -/
def purgeCell (nowNs : BitVec 64) (e : TcpAssemblerEngine) (i : Nat) :
    Checked TcpAssemblerEngine :=
  let cell := e.sessions.cells i
  if cell.key = kEmptyTcpKey ∨ cell.val = 0 then .ok e
  else match e.heap.mem cell.val with
    | none => .error .danglingPointer
    | some s => if isExpired nowNs s then e.deleteSession cell.key cell.val s else .ok e

def purgedExpired (e : TcpAssemblerEngine) (nowNs : BitVec 64) : Checked TcpAssemblerEngine :=
  (List.range e.sessions.capacity).foldlM (purgeCell nowNs) e

/-- The periodic cleanup at the head of `process_packet`. -/
def cleanup (e : TcpAssemblerEngine) (nowNs : BitVec 64) : Checked TcpAssemblerEngine := do
  if nowNs - e.lastCleanupNs > tcpCleanupIntervalNs then
    let e ← e.purgedExpired nowNs
    return { e with lastCleanupNs := nowNs }
  else return e

def closeSession (e : TcpAssemblerEngine) (key : TcpKey) : Checked TcpAssemblerEngine := do
  match ← e.sessions.find key with
  | none => return e
  | some p =>
      if p = 0 then return e
      else match e.heap.mem p with
        | none => .error .danglingPointer
        | some s => e.deleteSession key p s

/-- The result fields that every return of `process_packet` sets. -/
def portsOf (pkt : TcpPacket) (res : TcpAssemblyResult) (session : Option Nat) :
    TcpAssemblyResult :=
  { res with srcPort := ntohs pkt.source, dstPort := ntohs pkt.dest, session := session }

/-- `process_packet` when the key has no session. -/
def openSession (e : TcpAssemblerEngine) (c : PacketCall) :
    Checked (TcpAssemblerEngine × TcpAssemblyResult) := do
  let pkt := c.packet
  if !pkt.has thSyn then return (e,portsOf pkt {} none)
  else if e.sessions.size ≥ maxActiveTcpSession then return (e,portsOf pkt {} none)
  else if !c.allocated then return (e,portsOf pkt {} none)
  else
    let (p,heap) := e.heap.alloc (.opened pkt c.nowNs)
    let (_,sessions) ← e.sessions.emplace pkt.key p
    return ({ e with sessions := sessions, heap := heap },portsOf pkt { isSyn := true } (some p))

/-- `process_packet` for the session at address `p`. -/
def updateSession (e : TcpAssemblerEngine) (c : PacketCall) (p : Nat) :
    Checked (TcpAssemblerEngine × TcpAssemblyResult) := do
  match e.heap.mem p with
  | none => .error .danglingPointer
  | some s =>
      match s.onPacket c.packet c.nowNs c.garbage with
      | (some s',res) =>
          return ({ e with heap := e.heap.set p s' },portsOf c.packet res (some p))
      | (none,res) =>
          let e ← e.deleteSession c.packet.key p s
          return (e,portsOf c.packet res none)

def processPacket (e : TcpAssemblerEngine) (c : PacketCall) :
    Checked (TcpAssemblerEngine × TcpAssemblyResult) := do
  let e ← e.cleanup c.nowNs
  let pkt := c.packet
  if pkt.has thSyn ∧ !pkt.has thAck ∧ e.sessions.size ≥ maxActiveTcpSession then
    return (e,portsOf pkt {} none)
  else match ← e.sessions.find pkt.key with
    | some p => e.updateSession c p
    | none => e.openSession c

end TcpAssemblerEngine

end Aethon
