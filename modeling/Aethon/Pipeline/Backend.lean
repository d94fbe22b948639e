import Aethon.Transport.TcpAssembler

/-!
# Backend connections

The calls with which the pipeline writes to the backend socket and to the client. They work
on one session, on the kernel and on the pool of transmit frames, and they log what they do.
What the kernel and the transmit ring answer is given by the caller.
-/

namespace Aethon

open Framework

namespace Kernel

/-- `socket`: the kernel may hand out any descriptor that is not open. -/
def socket (k : Kernel) : Option Nat → Option Nat
  | none => none
  | some fd => if k.sockets fd = none then some fd else none

/-- `connect`, which does not block. -/
def connect (k : Kernel) (fd : Nat) (port : BitVec 16) : Kernel :=
  { k with sockets := Function.update k.sockets fd (some port) }

def epollAdd (k : Kernel) (fd : Nat) (entry : EpollEntry) : Kernel :=
  if (k.epoll fd).isNone then { k with epoll := Function.update k.epoll fd (some entry) } else k

def epollMod (k : Kernel) (fd : Nat) (entry : EpollEntry) : Kernel :=
  if (k.epoll fd).isSome then { k with epoll := Function.update k.epoll fd (some entry) } else k

def epollDel (k : Kernel) (fd : Nat) : Kernel :=
  { k with epoll := Function.update k.epoll fd none }

end Kernel

namespace Pipeline

def maxBackendBuf : Nat := 256 * 1024

def mss : Nat := 1460

/-- What the pipeline does for a session. `target` is the port that a routing decision ends
with, and `write` is what the kernel accepts on a socket, with the port of its connection. -/
inductive Action where
  | delivered (payload : List UInt8)
  | synAck (isn clientSeq : BitVec 32)
  | ack (seq ackNo : BitVec 32) (window : Nat)
  | rst
  | data (seq ackNo : BitVec 32) (payload : List UInt8) (window : Nat)
  | fin (seq ackNo : BitVec 32) (window : Nat)
  | policyBlock (sni : List UInt8)
  | tlsInit
  | feed (bytes : List UInt8)
  | scan (bytes : List UInt8) (attack : Bool)
  | target (port : BitVec 16)
  | forward (port : BitVec 16) (bytes : List UInt8)
  | write (port : Option (BitVec 16)) (bytes : List UInt8)
  | backendRead (bytes : List UInt8)
  deriving DecidableEq, Repr

/-- The result of `send`: bytes taken, EAGAIN and its kind, or another error. -/
inductive SendResult where
  | accepted (n : Nat)
  | again
  | failed
  deriving DecidableEq, Repr

/-- What the kernel answers: the descriptor of `socket`, the result of `send`, and the bytes
of `recv`, of which none are an end of file. -/
structure BackendIo where
  socket : Option Nat := none
  send : SendResult := .again
  recv : Option (List UInt8) := none

/-- What a call works on: the session and its address, the kernel, the pool of transmit
frames with its back at the head, and the log of the call. -/
structure Conn where
  addr : Nat
  session : TcpStreamSession
  kernel : Kernel
  txPool : List Nat
  log : List Action

def recvWindow (s : TcpStreamSession) : Nat :=
  if s.backendTxBuf.length ≥ maxBackendBuf then 0
  else min 65535 (maxBackendBuf - s.backendTxBuf.length)

namespace Conn

def emit (c : Conn) (a : Action) : Conn := { c with log := c.log ++ [a] }

/-- `send` of `data` on the descriptor `fd`, of which the kernel takes `n` bytes. -/
def wrote (c : Conn) (fd : Nat) (data : List UInt8) (n : Nat) : Conn :=
  c.emit (.write (c.kernel.sockets fd) (data.take n))

def setTxBuf (c : Conn) (buf : List UInt8) : Conn :=
  { c with session := { c.session with backendTxBuf := buf } }

def clearHello (c : Conn) : Conn :=
  { c with session := { c.session with clientHelloBuf := [] } }

def flushBackendTx (c : Conn) (io : BackendIo) : Conn :=
  match c.session.backendFd with
  | none => c
  | some fd =>
      if c.session.backendTxBuf = [] then c
      else match io.send with
        | .accepted n =>
            if n > 0 then
              (c.wrote fd c.session.backendTxBuf n).setTxBuf (c.session.backendTxBuf.drop n)
            else c
        | .again => c
        | .failed => c

/-- `forward_to_backend` when there is no connection to the target port yet. -/
def reconnect (c : Conn) (io : BackendIo) (data : List UInt8) (targetPort : BitVec 16) :
    Bool × Conn :=
  let kernel := c.kernel.closeIfOpen c.session.backendFd
  let session := { c.session with backendFd := none, backendTxBuf := [] }
  match kernel.socket io.socket with
  | none => (false,{ c with session := session, kernel := kernel })
  | some fd =>
      let c := { c with
        session := { session with backendFd := some fd, backendPort := targetPort }
        kernel := kernel.connect fd targetPort }
      if data.length > maxBackendBuf then (false,c) else (true,c.setTxBuf data)

/-- `forward_to_backend` on the open connection `fd`. -/
def reuse (c : Conn) (io : BackendIo) (fd : Nat) (data : List UInt8) : Bool × Conn :=
  if c.session.backendTxBuf ≠ [] then
    if c.session.backendTxBuf.length + data.length > maxBackendBuf then (false,c)
    else (true,(c.setTxBuf (c.session.backendTxBuf ++ data)).flushBackendTx io)
  else match io.send with
    | .failed => (false,c)
    | .again => if data.length > maxBackendBuf then (false,c) else (true,c.setTxBuf data)
    | .accepted n =>
        let c := c.wrote fd data n
        if n < data.length then
          if data.length - n > maxBackendBuf then (false,c) else (true,c.setTxBuf (data.drop n))
        else (true,c)

def forwardToBackend (c : Conn) (io : BackendIo) (data : List UInt8) (targetPort : BitVec 16) :
    Bool × Conn :=
  if data.length = 0 ∨ targetPort = 0 then (false,c)
  else match c.session.backendFd with
    | none => c.reconnect io data targetPort
    | some fd =>
        if c.session.backendPort ≠ targetPort then c.reconnect io data targetPort
        else c.reuse io fd data

/-- Keep the epoll set in step with the backend socket after a forward. -/
def armEpoll (c : Conn) (epfd : Bool) (prevFd : Option Nat) : Conn :=
  match epfd, c.session.backendFd with
  | true, some fd =>
      let waiting := c.session.backendTxBuf ≠ []
      if prevFd ≠ some fd then
        { c with
          kernel := c.kernel.epollAdd fd ⟨c.addr,waiting⟩
          session := { c.session with epolloutArmed := waiting } }
      else if waiting ∧ !c.session.epolloutArmed then
        { c with
          kernel := c.kernel.epollMod fd ⟨c.addr,true⟩
          session := { c.session with epolloutArmed := true } }
      else c
  | _, _ => c

/-- The loop of `send_tcp_segmented_data`; `sent i` is the answer of the transmit ring to the
`i`-th segment. A frame that was not sent goes back to the pool. -/
def sendSegments (sent : Nat → Bool) (window : Nat) (ackNo : BitVec 32) :
    List Nat → Nat → BitVec 32 → List UInt8 → Bool × List Nat × BitVec 32 × List Action
  | txPool, _, sendNxt, [] => (true,txPool,sendNxt,[])
  | [], _, sendNxt, _ :: _ => (false,[],sendNxt,[])
  | frame :: txPool, i, sendNxt, b :: data =>
      if sent i then
        let chunk := (b :: data).take mss
        let (allSent,pool,nxt,log) := sendSegments sent window ackNo txPool (i + 1)
          (sendNxt + BitVec.ofNat 32 chunk.length) ((b :: data).drop mss)
        (allSent,pool,nxt,.data sendNxt ackNo chunk window :: log)
      else (false,frame :: txPool,sendNxt,[])

def sendTcpSegmentedData (c : Conn) (sent : Nat → Bool) (data : List UInt8) : Bool × Conn :=
  if data = [] then (false,c)
  else
    let (allSent,pool,nxt,log) := sendSegments sent (recvWindow c.session) c.session.rcvNxt
      c.txPool 0 c.session.sendNxt data
    (allSent,{ c with
      session := { c.session with sendNxt := nxt }
      txPool := pool
      log := c.log ++ log })

end Conn

end Pipeline

end Aethon
