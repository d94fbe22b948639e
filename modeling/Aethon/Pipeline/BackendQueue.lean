import Aethon.Pipeline.Acts

/-!
# From the client to the backend

`forward_to_backend` hands bytes to the kernel or queues them in `backend_tx_buf`, and
`flush_backend_tx` hands over queued ones. Whatever the kernel takes of them, the bytes it has
taken and the queued ones are together the forwarded bytes, in order.
-/

namespace Aethon.Pipeline

/-- The bytes that the kernel takes. -/
def Action.writtenBytes : Action → List UInt8
  | .write _ bytes => bytes
  | _ => []

/-- A call on the backend connection, with the answers of the kernel. -/
inductive BackendCall where
  | forward (io : BackendIo) (data : List UInt8)
  | flush (io : BackendIo)

namespace BackendCall

def data : BackendCall → List UInt8
  | .forward _ data => data
  | .flush _ => []

/-- The call, if it does not return false. -/
def run (port : BitVec 16) (c : Conn) : BackendCall → Option Conn
  | .forward io data =>
      match c.forwardToBackend io data port with
      | (true,c') => some c'
      | (false,_) => none
  | .flush io => some (c.flushBackendTx io)

end BackendCall

/-- The bytes that were forwarded to `port` are those that the kernel took and, after them, those
that wait. -/
structure Queued (port : BitVec 16) (c : Conn) (data : List UInt8) : Prop where
  bytes : c.log.flatMap Action.writtenBytes ++ c.session.backendTxBuf = data
  bounded : c.session.backendTxBuf.length ≤ maxBackendBuf
  connected : ∀ fd, c.session.backendFd = some fd → c.session.backendPort = port
  unconnected : c.session.backendFd = none → data = []

namespace Queued

variable {port : BitVec 16} {c c' : Conn} {data more : List UInt8}

theorem flush (h : Queued port c data) (io : BackendIo) :
    Queued port (c.flushBackendTx io) data := by
  unfold Conn.flushBackendTx
  split
  · exact h
  · split_ifs
    · exact h
    · split
      · rename_i n hsend
        split_ifs
        · refine ⟨?_,?_,h.connected,h.unconnected⟩
          · rw [← h.bytes]
            simp [Conn.wrote,Conn.setTxBuf,Conn.emit,Action.writtenBytes]
          · have hle := h.bounded
            simp only [Conn.wrote,Conn.setTxBuf,Conn.emit,List.length_drop]
            omega
        · exact h
      · exact h
      · exact h

/-- Bytes that are queued behind the others. -/
theorem push (h : Queued port c data) (hfd : c.session.backendFd ≠ none)
    (hroom : c.session.backendTxBuf.length + more.length ≤ maxBackendBuf) :
    Queued port (c.setTxBuf (c.session.backendTxBuf ++ more)) (data ++ more) := by
  refine ⟨?_,?_,h.connected,fun hnone => absurd hnone hfd⟩
  · rw [← h.bytes,List.append_assoc]
    rfl
  · simpa [Conn.setTxBuf] using hroom

/-- The first bytes open the connection. -/
theorem reconnect {io : BackendIo} (h : Queued port c data) (hnone : c.session.backendFd = none)
    (hrun : c.reconnect io more port = (true,c')) : Queued port c' (data ++ more) := by
  have hbytes := h.bytes
  rw [h.unconnected hnone,List.append_eq_nil_iff] at hbytes
  rw [h.unconnected hnone,List.nil_append]
  unfold Conn.reconnect at hrun
  dsimp only at hrun
  split at hrun
  · cases hrun
  · rename_i fd hfd
    split_ifs at hrun with hroom
    · cases hrun
    · cases hrun
      refine ⟨?_,Nat.le_of_not_gt hroom,fun _ _ => rfl,fun h => by cases h⟩
      change c.log.flatMap Action.writtenBytes ++ more = more
      rw [hbytes.1,List.nil_append]

theorem reuse {io : BackendIo} {fd : Nat} (h : Queued port c data)
    (hfd : c.session.backendFd = some fd) (hrun : c.reuse io fd more = (true,c')) :
    Queued port c' (data ++ more) := by
  have hopen : c.session.backendFd ≠ none := by
    rw [hfd]
    exact Option.some_ne_none fd
  unfold Conn.reuse at hrun
  split at hrun
  · split_ifs at hrun with hroom
    · cases hrun
    · cases hrun
      exact (h.push hopen (Nat.le_of_not_gt hroom)).flush io
  · rename_i hempty
    have hnil : c.session.backendTxBuf = [] := not_not.mp hempty
    have hqueue : ∀ (d : Conn) (buf : List UInt8), d.session = c.session →
        d.log.flatMap Action.writtenBytes ++ buf = data ++ more → buf.length ≤ maxBackendBuf →
        Queued port (d.setTxBuf buf) (data ++ more) := by
      intro d buf hsession hbytes hroom
      refine ⟨hbytes,hroom,?_,?_⟩
      · intro fd' hfd'
        simp only [Conn.setTxBuf,hsession] at hfd' ⊢
        exact h.connected fd' hfd'
      · intro hnone
        simp only [Conn.setTxBuf,hsession] at hnone
        exact absurd hnone hopen
    have hdata : c.log.flatMap Action.writtenBytes = data := by
      rw [← h.bytes,hnil,List.append_nil]
    split at hrun
    · cases hrun
    · split_ifs at hrun with hroom
      · cases hrun
      · cases hrun
        exact hqueue c more rfl (by rw [hdata]) (Nat.le_of_not_gt hroom)
    · rename_i n hsend
      dsimp only at hrun
      have hwrote : (c.wrote fd more n).log.flatMap Action.writtenBytes =
          data ++ more.take n := by
        simp [Conn.wrote,Conn.emit,Action.writtenBytes,hdata]
      split_ifs at hrun with hpart hroom
      · cases hrun
      · cases hrun
        refine hqueue (c.wrote fd more n) (more.drop n) rfl ?_ ?_
        · rw [hwrote,List.append_assoc,List.take_append_drop]
        · rw [List.length_drop]
          exact Nat.le_of_not_gt hroom
      · cases hrun
        have hall : more.take n = more := List.take_of_length_le (Nat.le_of_not_gt hpart)
        have hend := hqueue (c.wrote fd more n) [] rfl (by rw [hwrote,hall,List.append_nil])
          (Nat.zero_le _)
        rw [← hnil] at hend
        exact hend

theorem forward {io : BackendIo} (h : Queued port c data)
    (hrun : c.forwardToBackend io more port = (true,c')) : Queued port c' (data ++ more) := by
  unfold Conn.forwardToBackend at hrun
  split at hrun
  · cases hrun
  · split at hrun
    · rename_i hnone
      exact h.reconnect hnone hrun
    · rename_i fd hfd
      rw [if_neg (not_not.mpr (h.connected fd hfd))] at hrun
      exact h.reuse hfd hrun

theorem call {call : BackendCall} (h : Queued port c data) (hrun : call.run port c = some c') :
    Queued port c' (data ++ call.data) := by
  cases call with
  | forward io more =>
    rw [BackendCall.run] at hrun
    split at hrun
    · rename_i d hd
      cases hrun
      exact h.forward hd
    · cases hrun
  | flush io =>
    cases hrun
    rw [BackendCall.data,List.append_nil]
    exact h.flush io

theorem calls (calls : List BackendCall) (h : Queued port c data)
    (hrun : calls.foldlM (BackendCall.run port) c = some c') :
    Queued port c' (data ++ calls.flatMap BackendCall.data) := by
  induction calls generalizing c data with
  | nil =>
    cases hrun
    simpa using h
  | cons call calls ih =>
    simp only [List.foldlM_cons,bind,Option.bind_eq_some_iff] at hrun
    obtain ⟨d,hd,hrest⟩ := hrun
    rw [List.flatMap_cons,← List.append_assoc]
    exact ih (h.call hd) hrest

end Queued

/-- On a new session, calls that forward to one port keep its bytes in order and the buffer
bounded. -/
theorem backend_queue (addr : Nat) (pkt : TcpPacket) (nowNs : BitVec 64) (kernel : Kernel)
    (txPool : List Nat) (port : BitVec 16) (calls : List BackendCall) (c : Conn)
    (hrun : calls.foldlM (BackendCall.run port) ⟨addr,.opened pkt nowNs,kernel,txPool,[]⟩ =
      some c) :
    c.log.flatMap Action.writtenBytes ++ c.session.backendTxBuf =
        calls.flatMap BackendCall.data ∧
      c.session.backendTxBuf.length ≤ maxBackendBuf := by
  have hnew : Queued port ⟨addr,.opened pkt nowNs,kernel,txPool,[]⟩ [] :=
    ⟨rfl,Nat.zero_le _,fun fd hfd => (by cases hfd),fun _ => rfl⟩
  have hend := hnew.calls calls hrun
  exact ⟨hend.bytes,hend.bounded⟩

/-- The kernel takes nothing at first, then the queue in two parts, and then one byte of two. -/
def slowCalls : List BackendCall :=
  [.forward { socket := some 7 } [1,2],.flush { send := .accepted 0 },
    .forward { send := .accepted 1 } [3],.flush { send := .again },.flush { send := .accepted 2 },
    .forward { send := .accepted 1 } [4,5]]

theorem backend_queue_slowCalls :
    ∃ c, slowCalls.foldlM (BackendCall.run 8000)
        ⟨1,.opened ⟨1,2,3,4,0,0,[],[],by decide⟩ 0,.empty,[],[]⟩ = some c ∧
      c.session.backendTxBuf = [5] ∧
      c.log.flatMap Action.writtenBytes ++ c.session.backendTxBuf = [1,2,3,4,5] ∧
      c.session.backendTxBuf.length ≤ maxBackendBuf :=
  ⟨_,rfl,rfl,backend_queue 1 ⟨1,2,3,4,0,0,[],[],by decide⟩ 0 .empty [] 8000 slowCalls _ rfl⟩

end Aethon.Pipeline
