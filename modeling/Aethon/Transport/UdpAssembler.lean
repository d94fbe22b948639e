import Aethon.Framework.BitWords
import Aethon.Framework.ByteBuffer
import Aethon.Framework.Heap
import Aethon.Transport.Keys

/-!
# UDP reassembly

Fragments of one datagram are copied into a session buffer block by block; a bitmap keeps
one bit for each 8-byte block. The engine owns the sessions of all keys.
-/

namespace Aethon

open Framework

def maxIpDatagramSize : Nat := 65535
def maxActiveDgramSessions : Nat := 65536
def maxIpDatagramFragmentPerId : Nat := 64
def datagramReassemblyTimeoutNs : BitVec 64 := 10000000000#64
def cleanupIntervalNs : BitVec 64 := 1000000000#64

/-- The arguments of `add_fragment`; offset and length are 16-bit. -/
structure Fragment where
  offset : Nat
  payload : List UInt8
  moreFragments : Bool
  offset_lt : offset < 65536
  len_lt : payload.length < 65536

namespace Fragment

def len (f : Fragment) : Nat := f.payload.length

/-- First byte position after the fragment. -/
def stop (f : Fragment) : Nat := f.offset + f.len

end Fragment

structure ReassemblySession where
  createdAtNs : BitVec 64 := 0
  totalExpectedLen : Nat := 0
  receivedBytes : Nat := 0
  fragmentCount : Nat := 0
  hasLastFragment : Bool := false
  blockBitmap : Nat → BitVec 64 := fun _ => 0
  buffer : Nat → UInt8 := fun _ => 0

namespace ReassemblySession

def isComplete (s : ReassemblySession) : Bool :=
  s.hasLastFragment && decide (s.receivedBytes ≥ s.totalExpectedLen)

def isBlockWritten (bitmap : Nat → BitVec 64) (blockIdx : Nat) : Bool :=
  bitmap (blockIdx >>> 6) &&& (1#64 <<< (blockIdx &&& 63)) ≠ 0#64

def markBlockWritten (bitmap : Nat → BitVec 64) (blockIdx : Nat) : Nat → BitVec 64 :=
  Function.update bitmap (blockIdx >>> 6)
    (bitmap (blockIdx >>> 6) ||| (1#64 <<< (blockIdx &&& 63)))

def checkFragment (f : Fragment) : Bool :=
  if f.moreFragments && f.len &&& 7 ≠ 0 then false
  else if f.len = 0 then false
  else if f.offset &&& 7 ≠ 0 then false
  else if f.offset = 0 ∧ f.len < 8 then false
  else true

/-- The body of the block loop of `add_fragment`. -/
def writeBlock (f : Fragment) (s : ReassemblySession) (b : Nat) : ReassemblySession :=
  if isBlockWritten s.blockBitmap b then s
  else
    let blockDatagramOffset := b <<< 3
    let copyStartInPayload :=
      if blockDatagramOffset ≥ f.offset then blockDatagramOffset - f.offset else 0
    let bytesToCopy :=
      if copyStartInPayload + 8 > f.len then f.len - copyStartInPayload else 8
    { s with
      buffer := copyBytes s.buffer blockDatagramOffset f.payload copyStartInPayload bytesToCopy
      blockBitmap := markBlockWritten s.blockBitmap b
      receivedBytes := s.receivedBytes + bytesToCopy }

/-- Blocks `start_block, …, end_block - 1` of a fragment. -/
def blocks (f : Fragment) : List Nat :=
  List.range' (f.offset >>> 3) (((f.offset + f.len + 7) >>> 3) - (f.offset >>> 3))

def addFragment (s : ReassemblySession) (f : Fragment) : Bool × ReassemblySession :=
  if !checkFragment f then (false,s)
  else if f.offset + f.len > maxIpDatagramSize then (false,s)
  else
    let s := { s with fragmentCount := s.fragmentCount + 1 }
    if s.fragmentCount > maxIpDatagramFragmentPerId then (false,s)
    else
      let s := if f.moreFragments then s
        else { s with hasLastFragment := true, totalExpectedLen := f.offset + f.len }
      (true,(blocks f).foldl (writeBlock f) s)

/-- The 16-bit big-endian word at a buffer index. -/
def bufferWord (s : ReassemblySession) (i : Nat) : Nat :=
  (s.buffer i).toNat * 256 + (s.buffer (i + 1)).toNat

end ReassemblySession

structure AssemblyResult where
  isComplete : Bool := false
  srcPort : Nat := 0
  dstPort : Nat := 0
  payload : List UInt8 := []
  completedSession : Option Nat := none

structure UDPassemblerEngine where
  sessions : SingleThreadHashMap FragmentKey Nat
  heap : Heap ReassemblySession
  lastCleanupNs : BitVec 64

namespace UDPassemblerEngine

/-- A new engine: a table of `2 * AETHON_MAX_ACTIVE_DGRAM_SESSIONS` cells. -/
def new : UDPassemblerEngine where
  sessions := .new kEmptyFragmentKey fragmentKeyHasher 0 17
  heap := .empty
  lastCleanupNs := 0

def isExpired (nowNs : BitVec 64) (s : ReassemblySession) : Bool :=
  nowNs - s.createdAtNs > datagramReassemblyTimeoutNs

/-- One cell of the loop of `purged_expired`. -/
def purgeCell (nowNs : BitVec 64) (e : UDPassemblerEngine) (i : Nat) :
    Checked UDPassemblerEngine := do
  let cell := e.sessions.cells i
  if cell.key = kEmptyFragmentKey ∨ cell.val = 0 then return e
  else match e.heap.mem cell.val with
    | none => .error .danglingPointer
    | some session =>
        if isExpired nowNs session then
          let (_,sessions) ← e.sessions.erase cell.key
          return { e with sessions := sessions, heap := e.heap.free cell.val }
        else return e

def purgedExpired (e : UDPassemblerEngine) (nowNs : BitVec 64) : Checked UDPassemblerEngine :=
  (List.range e.sessions.capacity).foldlM (purgeCell nowNs) e

/-- The periodic cleanup at the head of `process_fragment`. -/
def cleanup (e : UDPassemblerEngine) (nowNs : BitVec 64) : Checked UDPassemblerEngine := do
  if nowNs - e.lastCleanupNs > cleanupIntervalNs then
    let e ← e.purgedExpired nowNs
    return { e with lastCleanupNs := nowNs }
  else return e

/-- `process_fragment` from the call of `add_fragment` on. -/
def feedSession (e : UDPassemblerEngine) (key : FragmentKey) (p : Nat) (f : Fragment) :
    Checked (UDPassemblerEngine × AssemblyResult) := do
  match e.heap.mem p with
  | none => .error .danglingPointer
  | some session =>
      let (accepted,session) := session.addFragment f
      if !accepted then
        let (_,sessions) ← e.sessions.erase key
        return ({ e with sessions := sessions, heap := e.heap.free p },{})
      else
        let e := { e with heap := e.heap.set p session }
        if session.isComplete then
          let payloadLen := (session.totalExpectedLen + (2 ^ 32 - 8)) % 2 ^ 32
          let (_,sessions) ← e.sessions.erase key
          return ({ e with sessions := sessions },
            { isComplete := true
              srcPort := session.bufferWord 0
              dstPort := session.bufferWord 2
              payload := (List.range payloadLen).map fun i => session.buffer (8 + i)
              completedSession := some p })
        else return (e,{})

/-- One call of `process_fragment`; `allocated` says whether `new (std::nothrow)` succeeds. -/
structure FragmentCall where
  fragment : Fragment
  nowNs : BitVec 64
  allocated : Bool

def processFragment (key : FragmentKey) (e : UDPassemblerEngine) (c : FragmentCall) :
    Checked (UDPassemblerEngine × AssemblyResult) := do
  let e ← e.cleanup c.nowNs
  match ← e.sessions.find key with
  | some p => e.feedSession key p c.fragment
  | none =>
      if e.sessions.size ≥ maxActiveDgramSessions then return (e,{})
      else if !c.allocated then return (e,{})
      else
        let (p,heap) := e.heap.alloc { createdAtNs := c.nowNs }
        let (_,sessions) ← e.sessions.emplace key p
        feedSession { e with sessions := sessions, heap := heap } key p c.fragment

/-- The bytes `rx_worker` scans for a datagram that arrives whole. -/
def fastPathScan (datagram : List UInt8) : Option (List UInt8) :=
  if datagram.length ≥ 8 then
    if datagram.length - 8 > 0 then some (datagram.drop 8) else none
  else none

/-- The bytes `rx_worker` scans after a call of `process_fragment`. -/
def fragmentPathScan (res : AssemblyResult) : Option (List UInt8) :=
  if res.isComplete then if res.payload.length > 0 then some res.payload else none else none

end UDPassemblerEngine

end Aethon
