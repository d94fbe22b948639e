import Aethon.Net.PacketInjector
import Aethon.Pipeline.TcpPipeline
import Aethon.Transport.UdpAssembler

/-!
# A received packet

What `rx_worker` does with one descriptor: Ethernet and IPv4 validation, then the UDP scanner and
reassembly, the TCP pipeline, or the echo reply. The frame is a buffer of which the packet is the
first `len` bytes, and nothing is assumed of the bytes behind it.
-/

namespace Aethon.Net

open Framework Pipeline

def ipprotoUdp : Nat := 17
def ipprotoIcmp : Nat := 1
def icmphdrLen : Nat := 8

/-- What the environment answers while a packet is processed: the clock, the allocator, OpenSSL, the
kernel, the scanner and the transmit ring. A frame of the transmit pool holds `txBuffer` before it
is filled. -/
structure RxEnv where
  nowNs : BitVec 64 := 0
  allocated : Bool := true
  garbage : Nat → UInt8 := fun _ => 0
  tls : TlsIo := {}
  backend : BackendIo := {}
  openStream : Bool := true
  attack : Bool := false
  txSent : Nat → Bool := fun _ => true
  replySent : Bool := true
  txBuffer : Nat → UInt8 := fun _ => 0

/-- The assemblers of a worker. -/
structure Worker where
  udp : UDPassemblerEngine
  tcp : State

def Worker.new (txPool : List Nat) : Worker := ⟨.new,.new txPool⟩

/-- What comes of a call: whether the frame of a packet is recycled, the UDP payloads given to the
scanner, the actions of the TCP pipeline and the frames on the transmit ring. -/
structure RxReport where
  recycled : Bool := true
  scanned : List (List UInt8) := []
  actions : List (Nat × Action) := []
  transmitted : List (List UInt8) := []

section Parse

variable (env : RxEnv) (pkt : Nat → UInt8) (len : Nat)

theorem ntohsAt_lt (i : Nat) : ntohsAt pkt i < 65536 := by
  have h := beNat_lt (readBytes pkt i 2)
  rwa [readBytes_length] at h

/-- Ethernet and IPv4 validation. -/
def acceptsIpv4 : Bool :=
  etherType pkt = etherTypeIp && len ≥ etherHeaderLen + iphdrLen && isValidIpv4Checksum pkt &&
    !(ipHdrLen pkt < iphdrLen || totLen pkt < ipHdrLen pkt || totLen pkt > len - etherHeaderLen)

/-- The filter on the destination: an address of the interface, broadcast or multicast. -/
def isForThisHost (hostIps : List (BitVec 32)) : Bool :=
  hostIps.length = 0 || daddr pkt ∈ hostIps || daddr pkt = 0xFFFFFFFF ||
    (ntohlAt pkt 30 &&& 0xF0000000) = 0xE0000000

/-- What follows the IPv4 header. -/
def ipPayload : List UInt8 := readBytes pkt (tcphOf pkt) (totLen pkt - ipHdrLen pkt)

def moreFragments : Bool := fragOff pkt &&& 0x2000 ≠ 0

def fragOffset : Nat := (fragOff pkt &&& 0x1FFF) * 8

theorem fragOffset_lt : fragOffset pkt < 65536 := by
  have h : fragOff pkt &&& 0x1FFF = fragOff pkt % 2 ^ 13 :=
    Nat.and_two_pow_sub_one_eq_mod (fragOff pkt) 13
  unfold fragOffset
  omega

def fragmentOf : Fragment where
  offset := fragOffset pkt
  payload := ipPayload pkt
  moreFragments := moreFragments pkt
  offset_lt := fragOffset_lt pkt
  len_lt := by
    have h := ntohsAt_lt pkt 16
    simp only [ipPayload,readBytes_length,totLen]
    omega

def fragmentKeyOf : FragmentKey where
  srcIp := saddr pkt
  dstIp := daddr pkt
  ipId := BitVec.ofNat 16 (ipId pkt)
  protocol := BitVec.ofNat 8 (protocol pkt)

def tcpHdrLen : Nat := tcpDoff pkt (tcphOf pkt) * 4

def tcpPacketOf : TcpPacket where
  saddr := saddr pkt
  daddr := daddr pkt
  source := tcpSource pkt (tcphOf pkt)
  dest := tcpDest pkt (tcphOf pkt)
  seq := tcpSeq pkt (tcphOf pkt)
  flags := tcpFlags pkt (tcphOf pkt)
  options := readBytes pkt (tcphOf pkt + tcphdrLen) (tcpHdrLen pkt - tcphdrLen)
  payload := readBytes pkt (tcphOf pkt + tcpHdrLen pkt) (totLen pkt - ipHdrLen pkt - tcpHdrLen pkt)
  payload_lt := by
    have h := ntohsAt_lt pkt 16
    simp only [readBytes_length,totLen]
    omega

def tcpFrameOf : TcpFrame where
  call := ⟨tcpPacketOf pkt,env.nowNs,env.allocated,env.garbage⟩
  ihl := ihl pkt
  doff := tcpDoff pkt (tcphOf pkt)
  totLen := totLen pkt
  ipPktLen := totLen pkt
  etherShost := etherShost pkt
  etherDhost := etherDhost pkt
  tls := env.tls
  backend := env.backend
  openStream := env.openStream
  attack := env.attack
  txSent := env.txSent
  replySent := env.replySent
  payload_len := fun _ => readBytes_length ..

end Parse

section Transmit

/-- The frame of the transmit pool that an action fills, for the session `s`. -/
def poolFrame (txBuffer : Nat → UInt8) (s : TcpStreamSession) : Action → Option TxFrame
  | .data seq ackNo payload window =>
      some (ipv4SendTcpData txBuffer s.clientMac s.serverMac s.key.srcIp s.key.dstIp s.key.srcPort
        s.key.dstPort seq ackNo payload window)
  | .fin seq ackNo window =>
      some (ipv4SendTcpFin txBuffer s.clientMac s.serverMac s.key.srcIp s.key.dstIp s.key.srcPort
        s.key.dstPort seq ackNo window)
  | _ => none

/-- The reply that an action writes over the received frame. -/
def replyFrame (pkt : Nat → UInt8) : Action → Option TxFrame
  | .synAck isn clientSeq => some (ipv4SendTcpSynAck pkt (tcphOf pkt) isn clientSeq)
  | .ack seq ackNo window => some (ipv4SendTcpAck pkt (tcphOf pkt) seq ackNo window)
  | .rst => some (ipv4SendTcpRst pkt (tcphOf pkt) (tcpPacketOf pkt).payload.length)
  | _ => none

/-- The session that `handle_tcp_packet` serves for a frame, as its handling leaves it. The
addresses in it are set before the first frame is sent. -/
def servedSession (cfg : Config) (st : State) (f : TcpFrame) : Option TcpStreamSession := do
  let (engine,res) ← (st.engine.processPacket f.call).toOption
  let p ← res.session
  let s ← engine.heap.mem p
  let (c,_) ← (handleResult cfg f ⟨p,s,engine.kernel,st.txPool,[]⟩ res).toOption
  return c.session

/-- The frames that `handle_tcp_packet` sends: those of the transmit pool, and the reply if the
transmit ring takes it. -/
def tcpTransmitted (cfg : Config) (env : RxEnv) (st : State) (pkt : Nat → UInt8) (out : Output) :
    List (List UInt8) :=
  let acts := out.actions.map Prod.snd
  let pool := (servedSession cfg st (tcpFrameOf env pkt)).toList.flatMap fun s =>
    acts.filterMap (poolFrame env.txBuffer s)
  let reply := if out.consumed then acts.filterMap (replyFrame pkt) else []
  (pool ++ reply).map TxFrame.bytes

end Transmit

section Receive

variable (cfg : Config) (env : RxEnv) (w : Worker) (pkt : Nat → UInt8) (len : Nat)

/-- `release_completed`. -/
def releaseCompleted (e : UDPassemblerEngine) (res : AssemblyResult) : UDPassemblerEngine :=
  match res.completedSession with
  | some p => { e with heap := e.heap.free p }
  | none => e

/-- The UDP branch. The frame is recycled whatever the scanner says. -/
def onUdp : Checked (Worker × RxReport) := do
  if !moreFragments pkt ∧ fragOffset pkt = 0 then
    return (w,{ scanned := (UDPassemblerEngine.fastPathScan (ipPayload pkt)).toList })
  else
    let (udp,res) ← UDPassemblerEngine.processFragment (fragmentKeyOf pkt) w.udp
      ⟨fragmentOf pkt,env.nowNs,env.allocated⟩
    return ({ w with udp := releaseCompleted udp res },
      { scanned := (UDPassemblerEngine.fragmentPathScan res).toList })

/-- The TCP branch. -/
def onTcp : Checked (Worker × RxReport) := do
  let (tcp,out) ← handleTcpPacket cfg w.tcp (tcpFrameOf env pkt)
  return ({ w with tcp := tcp },
    { recycled := !out.consumed
      actions := out.actions
      transmitted := tcpTransmitted cfg env w.tcp pkt out })

/-- The ICMP branch, which checks the lengths once more. -/
def onIcmp : RxReport :=
  if ipHdrLen pkt < iphdrLen then {}
  else if totLen pkt < ipHdrLen pkt + icmphdrLen then {}
  else if totLen pkt > len - etherHeaderLen then {}
  else if ihl pkt < 5 then {}
  else if pkt (tcphOf pkt) = icmpEcho ∧ pkt (tcphOf pkt + 1) = 0 then
    if env.replySent then
      { recycled := false, transmitted := [(icmpEchoReplyTo pkt len).bytes] }
    else {}
  else {}

/-- One received packet. -/
def rxPacket (hostIps : List (BitVec 32)) : Checked (Worker × RxReport) :=
  if acceptsIpv4 pkt len then
    if isForThisHost pkt hostIps ∧ protocol pkt = ipprotoUdp then onUdp env w pkt
    else if isForThisHost pkt hostIps ∧ protocol pkt = ipprotoTcp then onTcp cfg env w pkt
    else if isForThisHost pkt hostIps ∧ protocol pkt = ipprotoIcmp then
      .ok (w,onIcmp env pkt len)
    else .ok (w,{})
  else .ok (w,{})

end Receive

section Worker

/-- What the worker loop does next. -/
inductive WorkerEvent where
  | packet (env : RxEnv) (pkt : Nat → UInt8) (len : Nat)
  | backend (txBuffer : Nat → UInt8) (events : List BackendEvent)
  | completion (addrs : List Nat)

/-- The frames that `drain_backend_events` sends. A session keeps its addresses in it. -/
def drainTransmitted (txBuffer : Nat → UInt8) (st : State) (out : Output) : List (List UInt8) :=
  out.actions.filterMap fun (p,a) =>
    (st.engine.heap.mem p).bind fun s => (poolFrame txBuffer s a).map TxFrame.bytes

def workerStep (cfg : Config) (hostIps : List (BitVec 32)) (w : Worker) :
    WorkerEvent → Checked (Worker × RxReport)
  | .packet env pkt len => rxPacket cfg env w pkt len hostIps
  | .backend txBuffer events => do
      let (tcp,out) ← drainBackendEvents cfg w.tcp events
      return ({ w with tcp := tcp },
        { recycled := false
          actions := out.actions
          transmitted := drainTransmitted txBuffer w.tcp out })
  | .completion addrs =>
      .ok ({ w with tcp := freeCompletionRing cfg w.tcp addrs },{ recycled := false })

/-- The worker after some run of the loop. -/
def Worker.Reached (cfg : Config) (hostIps : List (BitVec 32)) (w : Worker) : Prop :=
  ∃ txPool events reports, runOut (workerStep cfg hostIps) (.new txPool) events = .ok (w,reports)

end Worker

end Aethon.Net
