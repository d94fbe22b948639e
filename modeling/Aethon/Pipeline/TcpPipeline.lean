import Aethon.Pipeline.Backend
import Aethon.Tls.ClientHello
import Aethon.Tls.DomainBlocklist
import Aethon.Tls.ServiceRegistry

/-!
# The TCP pipeline

`handle_tcp_packet` runs a packet through the assembler, holds back an incomplete ClientHello,
applies the domain policy, and either feeds the TLS engine or scans and forwards the bytes.
`drain_backend_events` serves the backend sockets. The answers of OpenSSL, of the scanner, of
the kernel and of the transmit ring come with each packet and each event.
-/

namespace Aethon.Pipeline

open Framework Tls

/-- The globals of the pipeline, whether it has an epoll descriptor, and the address from which
on a frame belongs to the transmit pool. -/
structure Config where
  blocklist : DomainBlocklist := {}
  registry : ServiceRegistry := .new
  epfd : Bool := true
  txBoundary : Nat := 0

inductive HandshakeStep where
  | done
  | wantIo
  | failed

inductive DecryptStep where
  | plain (bytes : List UInt8)
  | wantIo
  | zeroReturn
  | failed

/-- What OpenSSL answers: whether `init` succeeds, the outcome of the handshake step and the
bytes it wants to send, the outcome of `SSL_read`, and the bytes to send after `SSL_write`. -/
structure TlsIo where
  sslNew : Bool := true
  handshake : HandshakeStep := .wantIo
  pendingTx : List UInt8 := []
  decrypt : DecryptStep := .wantIo
  encrypted : List UInt8 := []

/-- A frame as `handle_tcp_packet` gets it, with the answers that its handling meets:
`openStream` and `attack` from the scanner, `txSent` and `replySent` from the transmit ring. -/
structure TcpFrame where
  call : PacketCall
  ihl : Nat := 5
  doff : Nat := 5
  totLen : Nat
  ipPktLen : Nat
  etherShost : BitVec 48 := 0
  etherDhost : BitVec 48 := 0
  tls : TlsIo := {}
  backend : BackendIo := {}
  openStream : Bool := true
  attack : Bool := false
  txSent : Nat → Bool := fun _ => true
  replySent : Bool := true
  payload_len : ihl * 4 + doff * 4 ≤ totLen →
    call.packet.payload.length = totLen - ihl * 4 - doff * 4

namespace TcpFrame

/-- The length checks on the headers. -/
def headersOk (f : TcpFrame) : Bool :=
  !(f.ipPktLen < f.ihl * 4 + 20) &&
    !(f.doff * 4 < 20 || f.ipPktLen < f.ihl * 4 + f.doff * 4) &&
    !(f.totLen < f.ihl * 4 + f.doff * 4)

def packet (f : TcpFrame) : TcpPacket := f.call.packet

end TcpFrame

/-- How the handling of a result ends: with a reply, with a closed session and an RST, with
`return false`, or at the check of `is_closed`. -/
inductive Verdict where
  | reply
  | reset
  | silent
  | proceed
  deriving DecidableEq, Repr

def maxClientHello : Nat := 16384 + 5

/-- What becomes of delivered bytes before the policy is applied. -/
inductive HelloHold where
  | oversize
  | wait (session : TcpStreamSession)
  | pass (session : TcpStreamSession) (hello : List UInt8)

/-- The bytes look like the start of a ClientHello record. -/
def startsHello (payload : List UInt8) : Bool :=
  payload.length ≥ 6 && payload.getD 0 0 = 0x16 && payload.getD 5 0 = 0x01

/-- Accumulation of a ClientHello that comes in several segments. -/
def holdHello (s : TcpStreamSession) (payload : List UInt8) : HelloHold :=
  if s.tlsStatus = .idle ∧ (s.clientHelloBuf ≠ [] ∨ startsHello payload) then
    if s.clientHelloBuf.length + payload.length > maxClientHello then .oversize
    else
      let hello := s.clientHelloBuf ++ payload
      let s := { s with clientHelloBuf := hello }
      if hello.length ≥ 5 then
        if recordLen hello > 16384 then .oversize
        else if hello.length < 5 + recordLen hello then .wait s
        else .pass s hello
      else .pass s hello
  else .pass s payload

namespace Conn

def emitAck (c : Conn) : Conn :=
  c.emit (.ack c.session.sendNxt c.session.rcvNxt (recvWindow c.session))

/-- `TlsConnection::init` for the selected service, and its port. -/
def routeTls (c : Conn) (io : TlsIo) (svc : Option ServiceConfig) : Conn :=
  match svc with
  | some svc =>
      if svc.hasSslCtx then
        { c with session := { c.session with
            tlsStatus := if io.sslNew then .handshake else .idle
            backendPort := svc.backendPort } }.emit .tlsInit
      else c
  | none => c

def setMacs (c : Conn) (f : TcpFrame) : Conn :=
  { c with session := { c.session with clientMac := f.etherShost, serverMac := f.etherDhost } }

/-- Give bytes to the scanner, on the stream of the session if it has one. -/
def scanBytes (c : Conn) (f : TcpFrame) (bytes : List UInt8) : Conn :=
  { c with session := { c.session with hsStream := c.session.hsStream || f.openStream } }.emit
    (.scan bytes f.attack)

def setStatus (c : Conn) (status : TlsSessionStatus) : Conn :=
  { c with session := { c.session with tlsStatus := status } }

def stepHandshake (c : Conn) (io : TlsIo) : Conn :=
  match io.handshake with
  | .done => c.setStatus .established
  | .wantIo => c
  | .failed => c.setStatus .errorState

/-- Log the bytes that `process_packet` delivers. -/
def noteDelivery (c : Conn) (res : TcpAssemblyResult) : Conn :=
  if res.isReady ∧ res.payload.length > 0 then c.emit (.delivered res.payload) else c

end Conn

section Handle

variable (cfg : Config) (f : TcpFrame)

/-- The service that the policy selects for a server name. -/
def selectService (sni : List UInt8) : Checked (Option ServiceConfig) := do
  match ← cfg.registry.findByDomain sni with
  | some svc => return some svc
  | none => cfg.registry.findByIpPort f.packet.daddr (ntohs f.packet.dest)

def targetPort (s : TcpStreamSession) : Checked (BitVec 16) := do
  if s.backendPort = 0 then
    match ← cfg.registry.findByIpPort f.packet.daddr (ntohs f.packet.dest) with
    | some svc => return svc.backendPort
    | none => return 0
  else return s.backendPort

/-- Forward scanned bytes to the target port, if there is one. The ClientHello buffer is empty
already when the bytes come from the TLS engine. -/
def relay (c : Conn) (bytes : List UInt8) : Checked (Conn × Verdict) := do
  let port ← targetPort cfg f c.session
  let c := c.emit (.target port)
  if port ≠ 0 then
    match (c.emit (.forward port bytes)).forwardToBackend f.backend bytes port with
    | (false,c') => return (c'.clearHello,.reset)
    | (true,c') => return ((c'.clearHello.armEpoll cfg.epfd c.session.backendFd).emitAck,.reply)
  else return (c.clearHello,.proceed)

/-- Scan bytes and forward them unless they are an attack. -/
def inspect (c : Conn) (bytes : List UInt8) : Checked (Conn × Verdict) :=
  let c := c.scanBytes f bytes
  if f.attack then .ok (c.clearHello,.reset) else relay cfg f c bytes

/-- What the backend has sent so far goes to the client, encrypted. -/
def answerTls (c : Conn) : Conn :=
  match c.session.backendFd, f.backend.recv with
  | some _, some (b :: bytes) =>
      ((c.emit (.backendRead (b :: bytes))).sendTcpSegmentedData f.txSent f.tls.encrypted).2
  | _, _ => c

/-- The established part of the TLS branch: decrypt, inspect, and answer. -/
def tlsData (c : Conn) : Checked (Conn × Verdict) :=
  if c.session.tlsStatus = .established then
    match f.tls.decrypt with
    | .plain (b :: bytes) => do
        match ← inspect cfg f c (b :: bytes) with
        | (c,.proceed) => return (answerTls f c,.proceed)
        | result => return result
    | .plain [] => .ok (answerTls f c,.proceed)
    | .wantIo => .ok (answerTls f c,.proceed)
    | .zeroReturn => .ok (answerTls f (c.setStatus .closed),.proceed)
    | .failed => .ok (answerTls f (c.setStatus .errorState),.proceed)
  else .ok (answerTls f c,.proceed)

/-- The TLS branch. -/
def tlsPath (c : Conn) (hello : List UInt8) : Checked (Conn × Verdict) :=
  let c := (c.emit (.feed hello)).clearHello
  if c.session.tlsStatus = .handshake then
    let c := c.stepHandshake f.tls
    if f.tls.pendingTx ≠ [] then
      .ok ((c.sendTcpSegmentedData f.txSent f.tls.pendingTx).2,.silent)
    else tlsData cfg f c
  else tlsData cfg f c

/-- The branch on the TLS status. -/
def dispatch (c : Conn) (hello : List UInt8) : Checked (Conn × Verdict) :=
  if c.session.tlsStatus ≠ .idle then tlsPath cfg f c hello else inspect cfg f c hello

/-- The domain policy on a complete hello. -/
def applyPolicy (c : Conn) (hello : List UInt8) : Checked (Conn × Verdict) := do
  let info ← parseClientHello hello
  if info.isClientHello then
    let sni := info.sni hello
    if sni = [] ∨ !cfg.blocklist.isAllowed sni then
      return ((c.emit (.policyBlock sni)).clearHello,.reset)
    else
      let svc ← selectService cfg f sni
      dispatch cfg f ((c.routeTls f.tls svc).setMacs f) hello
  else dispatch cfg f c hello

/-- The handling of delivered bytes. -/
def handleReady (c : Conn) (payload : List UInt8) : Checked (Conn × Verdict) :=
  match holdHello c.session payload with
  | .oversize => .ok (c.clearHello,.reset)
  | .wait s => .ok ({ c with session := s }.emitAck,.reply)
  | .pass s hello => applyPolicy cfg f { c with session := s } hello

def initialServerIsn : BitVec 32 := 1000000

/-- The handling of a result of `process_packet` that comes with a session. -/
def handleResult (c : Conn) (res : TcpAssemblyResult) : Checked (Conn × Verdict) :=
  let c := c.noteDelivery res
  if res.isSyn then
    let c := c.setMacs f
    let c := { c with session := { c.session with sendNxt := initialServerIsn + 1 } }
    .ok (c.emit (.synAck initialServerIsn f.packet.seq),.reply)
  else if res.needAck then .ok (c.emitAck,.reply)
  else if res.isReady ∧ res.payload.length > 0 then handleReady cfg f c res.payload
  else .ok (c,.proceed)

end Handle

/-- The state of the pipeline. -/
structure State where
  engine : TcpAssemblerEngine
  txPool : List Nat

/-- What a call reports: whether a reply took the frame, and the actions with the address of
the session they are for. -/
structure Output where
  consumed : Bool := false
  actions : List (Nat × Action) := []

namespace State

def new (txPool : List Nat) : State := ⟨.new,txPool⟩

/-- Write back what a call did to a session. -/
def store (st : State) (c : Conn) : State :=
  { engine := { st.engine with heap := st.engine.heap.set c.addr c.session, kernel := c.kernel }
    txPool := c.txPool }

def closeSession (st : State) (key : TcpKey) : Checked State := do
  let engine ← st.engine.closeSession key
  return { st with engine := engine }

end State

def Conn.tagged (c : Conn) : List (Nat × Action) := c.log.map fun a => (c.addr,a)

/-- How `handle_tcp_packet` ends. -/
def finish (f : TcpFrame) (res : TcpAssemblyResult) (st : State) (c : Conn) :
    Verdict → Checked (State × Output)
  | .reply => .ok (st.store c,⟨f.replySent,c.tagged⟩)
  | .silent => .ok (st.store c,⟨false,c.tagged⟩)
  | .reset => do
      let st ← (st.store c).closeSession f.packet.key
      return (st,⟨f.replySent,(c.emit .rst).tagged⟩)
  | .proceed => do
      if res.isClosed then
        let st ← (st.store c).closeSession f.packet.key
        return (st,⟨false,c.tagged⟩)
      else return (st.store c,⟨false,c.tagged⟩)

/-- `handle_tcp_packet`. A result without a session carries no payload, so only the check of
`is_closed` is left for it. -/
def handleTcpPacket (cfg : Config) (st : State) (f : TcpFrame) : Checked (State × Output) := do
  if !f.headersOk then return (st,{})
  else
    let (engine,res) ← st.engine.processPacket f.call
    let st := { st with engine := engine }
    match res.session with
    | none =>
        if res.isClosed then
          let st ← st.closeSession f.packet.key
          return (st,{})
        else return (st,{})
    | some p =>
        match engine.heap.mem p with
        | none => .error .danglingPointer
        | some s => do
            let (c,verdict) ← handleResult cfg f ⟨p,s,engine.kernel,st.txPool,[]⟩ res
            finish f res st c verdict

/-- One event of `epoll_wait`, with the answers that its handling meets: `updateSent` and
`finSent` are those of the transmit ring to a window update and to a FIN. -/
structure BackendEvent where
  fd : Nat
  epollIn : Bool := false
  epollOut : Bool := false
  hangup : Bool := false
  io : BackendIo := {}
  encrypted : List UInt8 := []
  txSent : Nat → Bool := fun _ => true
  updateSent : Bool := true
  finSent : Bool := true

def backendBatchSize : Nat := 16

namespace Conn

/-- Drop EPOLLOUT when nothing is left to send. -/
def disarmEpoll (c : Conn) (fd : Nat) : Conn :=
  if c.session.backendTxBuf = [] then
    { c with
      kernel := c.kernel.epollMod fd ⟨c.addr,false⟩
      session := { c.session with epolloutArmed := false } }
  else c

/-- Announce a window that has opened again. -/
def announceWindow (c : Conn) (ev : BackendEvent) (oldWin newWin : Nat) : Conn :=
  match c.txPool with
  | [] => c
  | _ :: pool =>
      if oldWin < 16384 ∧ newWin ≥ 16384 ∧ ev.updateSent then
        { c with txPool := pool }.emit (.data c.session.sendNxt c.session.rcvNxt [] newWin)
      else c

/-- The EPOLLOUT part. -/
def onWritable (c : Conn) (fd : Nat) (ev : BackendEvent) : Conn :=
  let flushed := c.flushBackendTx ev.io
  (flushed.disarmEpoll fd).announceWindow ev (recvWindow c.session) (recvWindow flushed.session)

/-- The EPOLLIN part, and whether the backend has closed. -/
def onReadable (c : Conn) (ev : BackendEvent) : Conn × Bool :=
  match ev.io.recv with
  | none => (c,false)
  | some [] => (c,true)
  | some (b :: bytes) =>
      let c := c.emit (.backendRead (b :: bytes))
      if c.session.tlsStatus = .established then
        ((c.sendTcpSegmentedData ev.txSent ev.encrypted).2,false)
      else ((c.sendTcpSegmentedData ev.txSent (b :: bytes)).2,false)

/-- Close the backend socket and send a FIN to the client. -/
def hangUp (c : Conn) (fd : Nat) (ev : BackendEvent) : Conn :=
  let c := { c with
    kernel := (c.kernel.epollDel fd).close fd
    session := { c.session with backendFd := none } }
  match c.txPool with
  | [] => c
  | _ :: pool =>
      if ev.finSent then
        { c with
          txPool := pool
          session := { c.session with sendNxt := c.session.sendNxt + 1 } }.emit
            (.fin c.session.sendNxt c.session.rcvNxt (recvWindow c.session))
      else c

/-- One event for a session with an open backend socket, and whether the backend has closed. -/
def onBackendEvent (c : Conn) (fd : Nat) (ev : BackendEvent) : Conn × Bool :=
  let c := if ev.epollOut then c.onWritable fd ev else c
  let (c,eof) := if ev.epollIn then c.onReadable ev else (c,false)
  if ev.hangup ∨ eof then (c.hangUp fd ev,true) else (c,false)

end Conn

/-- One round of the loop of `drain_backend_events`, for the session address that the event
carries. -/
def drainOne (st : State) (pe : Nat × BackendEvent) : Checked (State × List (Nat × Action)) :=
  match st.engine.heap.mem pe.1 with
  | none => .error .danglingPointer
  | some s =>
      match s.backendFd with
      | none => .ok (st,[])
      | some fd =>
          let (c,closed) :=
            Conn.onBackendEvent ⟨pe.1,s,st.engine.kernel,st.txPool,[]⟩ fd pe.2
          if closed then do
            let st ← (st.store c).closeSession s.key
            return (st,c.tagged)
          else .ok (st.store c,c.tagged)

/-- What `epoll_wait` returns: events of registered descriptors, with the addresses they are
registered with. -/
def readyEvents (st : State) (events : List BackendEvent) : List (Nat × BackendEvent) :=
  (events.take backendBatchSize).filterMap fun ev =>
    (st.engine.kernel.epoll ev.fd).map fun entry => (entry.session,ev)

def drainBackendEvents (cfg : Config) (st : State) (events : List BackendEvent) :
    Checked (State × Output) := do
  if cfg.epfd then
    let (st,logs) ← runOut drainOne st (readyEvents st events)
    return (st,⟨false,logs.flatten⟩)
  else return (st,{})

/-- Frames of the transmit pool that the completion ring reports go back to the pool. -/
def freeCompletionRing (cfg : Config) (st : State) (addrs : List Nat) : State :=
  { st with txPool := (addrs.filter fun addr => cfg.txBoundary ≤ addr).reverse ++ st.txPool }

/-- What the worker loop does next. -/
inductive Event where
  | packet (f : TcpFrame)
  | backend (events : List BackendEvent)
  | completion (addrs : List Nat)

def step (cfg : Config) (st : State) : Event → Checked (State × Output)
  | .packet f => handleTcpPacket cfg st f
  | .backend events => drainBackendEvents cfg st events
  | .completion addrs => .ok (freeCompletionRing cfg st addrs,{})

end Aethon.Pipeline
