import Aethon.Transport.Keys
import Aethon.Transport.TcpRing

/-!
# TCP stream sessions

One direction of a TCP connection as the assembler sees it: the next expected sequence
number, the ring for segments that arrive early, and what `process_packet` does to a session
that a packet meets.
-/

namespace Aethon

open Framework

inductive TcpState where
  | closed
  | synSent
  | established
  | closing
  deriving DecidableEq, Repr

namespace TcpSeq

def lt (a b : BitVec 32) : Bool := (a - b).toInt < 0

def lte (a b : BitVec 32) : Bool := (a - b).toInt ≤ 0

def gt (a b : BitVec 32) : Bool := (a - b).toInt > 0

def diff (a b : BitVec 32) : BitVec 32 := a - b

end TcpSeq

def thFin : BitVec 8 := 0x01
def thSyn : BitVec 8 := 0x02
def thRst : BitVec 8 := 0x04
def thAck : BitVec 8 := 0x10

/-- The arguments of `process_packet`: addresses and ports as they stand in the headers, the
sequence number in host order, the option bytes of the TCP header and the payload. -/
structure TcpPacket where
  saddr : BitVec 32
  daddr : BitVec 32
  source : BitVec 16
  dest : BitVec 16
  seq : BitVec 32
  flags : BitVec 8
  options : List UInt8
  payload : List UInt8
  payload_lt : payload.length < 65536

namespace TcpPacket

def has (pkt : TcpPacket) (flag : BitVec 8) : Bool := pkt.flags &&& flag ≠ 0#8

def key (pkt : TcpPacket) : TcpKey := ⟨pkt.saddr,pkt.daddr,pkt.source,pkt.dest⟩

end TcpPacket

structure TcpNegotiatedParams where
  mss : Nat := 1460
  wscale : Nat := 0
  sackPermitted : Bool := false

/-- One option of `parse_tcp_syn_option`; `value` is what follows its kind and length. -/
def applyTcpOption (params : TcpNegotiatedParams) (kind len : Nat) (value : List UInt8) :
    TcpNegotiatedParams :=
  match kind with
  | 2 =>
      if len = 4 then
        { params with mss := (value.getD 0 0).toNat * 256 + (value.getD 1 0).toNat }
      else params
  | 3 => if len = 3 then { params with wscale := min (value.getD 0 0).toNat 14 } else params
  | 4 => if len = 2 then { params with sackPermitted := true } else params
  | _ => params

/-- The option loop. Each round drops at least one byte, so the number of bytes bounds it. -/
def parseTcpOptions : Nat → List UInt8 → TcpNegotiatedParams → TcpNegotiatedParams
  | fuel + 1, kind :: rest, params =>
      if kind = 0 then params
      else if kind = 1 then parseTcpOptions fuel rest params
      else match rest with
        | [] => params
        | len :: value =>
            if len.toNat < 2 ∨ len.toNat > value.length + 2 then params
            else parseTcpOptions fuel (value.drop (len.toNat - 2))
              (applyTcpOption params kind.toNat len.toNat value)
  | _, _, params => params

def parseTcpSynOption (options : List UInt8) (params : TcpNegotiatedParams) :
    TcpNegotiatedParams := parseTcpOptions options.length options params

/-- The status of a `TlsConnection`; its SSL object exists exactly while it is not idle. -/
inductive TlsSessionStatus where
  | idle
  | handshake
  | established
  | errorState
  | closed
  deriving DecidableEq, Repr

/-- A session. The bitmap and the ring are allocated together, a negative `backend_fd` is
`none`, and only the presence of the scanner stream matters. -/
structure TcpStreamSession where
  key : TcpKey := kEmptyTcpKey
  state : TcpState := .closed
  outOfOrderCount : BitVec 16 := 0
  isn : BitVec 32 := 0
  rcvNxt : BitVec 32 := 0
  lastSeenNs : BitVec 64 := 0
  params : TcpNegotiatedParams := {}
  ring : Option TcpRing := none
  tlsStatus : TlsSessionStatus := .idle
  backendFd : Option Nat := none
  backendPort : BitVec 16 := 0
  backendTxBuf : List UInt8 := []
  epolloutArmed : Bool := false
  hsStream : Bool := false
  clientMac : BitVec 48 := 0
  serverMac : BitVec 48 := 0
  sendNxt : BitVec 32 := 0
  clientHelloBuf : List UInt8 := []

/-- What the data part of `process_packet` makes of a segment. -/
inductive DataOutcome where
  | outOfWindow
  | duplicate
  | conflict
  | accepted (session : TcpStreamSession) (ready : Option (List UInt8))

namespace TcpRing

/-- The overlap check of both slow branches: some byte of the range is already buffered and
the first 1500 ring bytes differ from the segment. -/
def overlapConflict (r : TcpRing) (curSeq : BitVec 32) (curPayload : List UInt8) : Bool :=
  if r.isRangeSet curSeq.toNat curPayload.length then
    let checkLen := if curPayload.length < 1500 then curPayload.length else 1500
    r.readRingBuffer curSeq.toNat checkLen ≠ curPayload.take checkLen
  else false

def store (r : TcpRing) (curSeq : BitVec 32) (curPayload : List UInt8) : TcpRing :=
  (r.writeRingBuffer curSeq.toNat curPayload).setBitmapRange curSeq.toNat curPayload.length

end TcpRing

namespace TcpStreamSession

/-- The ring after `init_bufferes`; a new ring has a cleared bitmap and the bytes that the
allocator left in it. -/
def initBuffers (s : TcpStreamSession) (garbage : Nat → UInt8) : TcpRing :=
  s.ring.getD ⟨fun _ => 0,garbage⟩

/-- The part of a segment from `rcv_nxt` on. -/
def trim (s : TcpStreamSession) (seq : BitVec 32) (payload : List UInt8) :
    BitVec 32 × List UInt8 :=
  if TcpSeq.lt seq s.rcvNxt then (s.rcvNxt,payload.drop (s.rcvNxt - seq).toNat)
  else (seq,payload)

/-- Hand out the contiguous bytes at `rcv_nxt`. -/
def drain (s : TcpStreamSession) (r : TcpRing) : TcpStreamSession × Option (List UInt8) :=
  let contiguous := r.countContinuousBytes s.rcvNxt.toNat tcpWindowSize
  if contiguous > 0 then
    ({ s with
        ring := some (r.clearBitmapRange s.rcvNxt.toNat contiguous)
        rcvNxt := s.rcvNxt + BitVec.ofNat 32 contiguous
        outOfOrderCount :=
          if s.outOfOrderCount > 0#16 then s.outOfOrderCount - 1#16 else s.outOfOrderCount },
      some (r.readRingBuffer s.rcvNxt.toNat contiguous))
  else ({ s with ring := some r },none)

/-- The out-of-order branch. -/
def bufferSegment (s : TcpStreamSession) (r : TcpRing) (curSeq : BitVec 32)
    (curPayload : List UInt8) : DataOutcome :=
  if r.overlapConflict curSeq curPayload then .conflict
  else .accepted { s with
    ring := some (r.store curSeq curPayload)
    outOfOrderCount := s.outOfOrderCount + 1#16 } none

/-- The gap-filler branch. -/
def fillGap (s : TcpStreamSession) (r : TcpRing) (curSeq : BitVec 32)
    (curPayload : List UInt8) : DataOutcome :=
  if r.overlapConflict curSeq curPayload then .conflict
  else
    let (s,ready) := s.drain (r.store curSeq curPayload)
    .accepted s ready

/-- The in-order fast path. -/
def deliver (s : TcpStreamSession) (curPayload : List UInt8) : DataOutcome :=
  .accepted { s with rcvNxt := s.rcvNxt + BitVec.ofNat 32 curPayload.length } (some curPayload)

/-- The payload part of `process_packet`. -/
def receiveData (s : TcpStreamSession) (seq : BitVec 32) (payload : List UInt8)
    (garbage : Nat → UInt8) : DataOutcome :=
  if (TcpSeq.diff seq s.rcvNxt + BitVec.ofNat 32 payload.length).toNat > tcpWindowSize then
    .outOfWindow
  else if TcpSeq.lte (seq + BitVec.ofNat 32 payload.length) s.rcvNxt then .duplicate
  else
    let (curSeq,curPayload) := s.trim seq payload
    if curSeq = s.rcvNxt ∧ s.outOfOrderCount = 0#16 then s.deliver curPayload
    else if TcpSeq.gt curSeq s.rcvNxt then
      s.bufferSegment (s.initBuffers garbage) curSeq curPayload
    else s.fillGap (s.initBuffers garbage) curSeq curPayload

end TcpStreamSession

structure TcpAssemblyResult where
  isReady : Bool := false
  isSyn : Bool := false
  isClosed : Bool := false
  needAck : Bool := false
  srcPort : BitVec 16 := 0
  dstPort : BitVec 16 := 0
  payload : List UInt8 := []
  session : Option Nat := none

namespace TcpStreamSession

/-- The FIN part of `process_packet`; `none` is a deleted session. -/
def onFin (s : TcpStreamSession) (pkt : TcpPacket) (res : TcpAssemblyResult) :
    Option TcpStreamSession × TcpAssemblyResult :=
  if pkt.has thFin then
    let s := { s with rcvNxt := s.rcvNxt + 1, state := .closing }
    (if res.payload.length = 0 then none else some s,{ res with isClosed := true })
  else (some s,res)

/-- Data and FIN of a packet for a session in state ESTABLISHED. -/
def onEstablished (s : TcpStreamSession) (pkt : TcpPacket) (garbage : Nat → UInt8) :
    Option TcpStreamSession × TcpAssemblyResult :=
  if pkt.payload.length > 0 then
    match s.receiveData pkt.seq pkt.payload garbage with
    | .outOfWindow => (some s,{})
    | .duplicate => (some s,{ needAck := true })
    | .conflict => (none,{ isClosed := true })
    | .accepted s ready => s.onFin pkt { isReady := ready.isSome, payload := ready.getD [] }
  else s.onFin pkt {}

/-- `process_packet` for a session that was found; `none` is a deleted session. -/
def onPacket (s : TcpStreamSession) (pkt : TcpPacket) (nowNs : BitVec 64)
    (garbage : Nat → UInt8) : Option TcpStreamSession × TcpAssemblyResult :=
  let s := { s with lastSeenNs := nowNs }
  if pkt.has thRst then (none,{ isClosed := true })
  else if pkt.has thSyn then (some s,{ isSyn := true })
  else if s.state = .synSent ∧ !pkt.has thAck then (some s,{})
  else
    let s := if s.state = .synSent then { s with state := .established } else s
    if s.state ≠ .established then (some s,{}) else s.onEstablished pkt garbage

/-- The session that a SYN creates. -/
def opened (pkt : TcpPacket) (nowNs : BitVec 64) : TcpStreamSession where
  key := pkt.key
  isn := pkt.seq
  rcvNxt := pkt.seq + 1
  state := .synSent
  lastSeenNs := nowNs
  params := parseTcpSynOption pkt.options {}

end TcpStreamSession

end Aethon
