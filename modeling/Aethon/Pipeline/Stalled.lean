import Aethon.Pipeline.HelloSegments
import Aethon.Pipeline.Offers

/-!
# A backend that takes nothing

While the backend takes nothing, the bytes of a session without TLS go into its backend buffer.
Every segment is acknowledged with the window that the buffer then leaves, also a segment that is
only held as a part of a hello.
-/

namespace Aethon.Pipeline

open Framework Tls TcpAssemblerEngine

variable (cfg : Config) {key : TcpKey} {p : Nat} {st st' : State} {s s₁ t : TcpStreamSession}
  {f : TcpFrame} {held segment bytes : List UInt8} {out : Output}

/-- The session of `key` holds the bytes `held` of a hello, and bytes wait for its backend. -/
structure Stalled (key : TcpKey) (p : Nat) (st : State) (s : TcpStreamSession)
    (held : List UInt8) : Prop extends Holding key p st s held where
  connected : s.backendFd ≠ none
  routed : s.backendPort ≠ 0
  waits : s.backendTxBuf ≠ []

/-- The connection after bytes that only wait: `kernel` and `armed` are those of the epoll set. -/
def Conn.queued (c : Conn) (bytes : List UInt8) (kernel : Kernel) (armed : Bool) : Conn :=
  Conn.emitAck { c with
    kernel := kernel
    session := { c.session with
      backendTxBuf := c.session.backendTxBuf ++ bytes
      clientHelloBuf := []
      epolloutArmed := armed }
    log := c.log ++ [.target c.session.backendPort,.forward c.session.backendPort bytes] }

theorem armEpoll_frame (c : Conn) (epfd : Bool) (prevFd : Option Nat) :
    ∃ kernel armed, c.armEpoll epfd prevFd =
      { c with kernel := kernel, session := { c.session with epolloutArmed := armed } } := by
  unfold Conn.armEpoll
  split
  · dsimp only
    split_ifs
    · exact ⟨_,_,rfl⟩
    · exact ⟨_,_,rfl⟩
    · exact ⟨c.kernel,c.session.epolloutArmed,rfl⟩
  · exact ⟨c.kernel,c.session.epolloutArmed,rfl⟩

/-- Bytes for which there is room go behind those that wait. -/
theorem forwardToBackend_queued {c : Conn} {port : BitVec 16}
    (hagain : f.backend.send = .again) (hne : bytes ≠ []) (hconnected : c.session.backendFd ≠ none)
    (hport : port ≠ 0) (hrouted : c.session.backendPort = port)
    (hwaits : c.session.backendTxBuf ≠ [])
    (hroom : c.session.backendTxBuf.length + bytes.length ≤ maxBackendBuf) :
    c.forwardToBackend f.backend bytes port =
      (true,c.setTxBuf (c.session.backendTxBuf ++ bytes)) := by
  obtain ⟨fd,hfd⟩ := Option.ne_none_iff_exists'.mp hconnected
  have hlen : ¬ (bytes.length = 0 ∨ port = 0) :=
    not_or.mpr ⟨(List.length_pos_of_ne_nil hne).ne',hport⟩
  have hflush : (c.setTxBuf (c.session.backendTxBuf ++ bytes)).flushBackendTx f.backend =
      c.setTxBuf (c.session.backendTxBuf ++ bytes) := by
    simp [Conn.flushBackendTx,Conn.setTxBuf,hfd,hagain]
  rw [Conn.forwardToBackend,if_neg hlen]
  simp only [hfd,hrouted,ne_eq,not_true_eq_false,if_false]
  rw [Conn.reuse,if_pos hwaits,if_neg (Nat.not_lt.mpr hroom),hflush]

theorem relay_queued {c : Conn} (hagain : f.backend.send = .again) (hne : bytes ≠ [])
    (hconnected : c.session.backendFd ≠ none) (hrouted : c.session.backendPort ≠ 0)
    (hwaits : c.session.backendTxBuf ≠ [])
    (hroom : c.session.backendTxBuf.length + bytes.length ≤ maxBackendBuf) :
    ∃ kernel armed, relay cfg f c bytes = .ok (c.queued bytes kernel armed,.reply) := by
  have hport : targetPort cfg f c.session = .ok c.session.backendPort := if_neg hrouted
  have hforward := forwardToBackend_queued (c := (c.emit (.target c.session.backendPort)).emit
    (.forward c.session.backendPort bytes)) hagain hne hconnected hrouted rfl hwaits hroom
  obtain ⟨kernel,armed,harm⟩ := armEpoll_frame
    ((((c.emit (.target c.session.backendPort)).emit
      (.forward c.session.backendPort bytes)).setTxBuf
        (c.session.backendTxBuf ++ bytes)).clearHello) cfg.epfd c.session.backendFd
  refine ⟨kernel,armed,?_⟩
  unfold relay
  rw [hport]
  simp only [bind,Except.bind,hrouted,ne_eq,not_false_eq_true,if_true,hforward]
  refine congrArg (fun d : Conn => Except.ok (d.emitAck,Verdict.reply)) (harm.trans ?_)
  simp [Conn.clearHello,Conn.setTxBuf,Conn.emit]

/-- Bytes that are no ClientHello and no attack go to the backend buffer. -/
theorem applyPolicy_queued {c : Conn} {info : TlsParseResult} (hidle : c.session.tlsStatus = .idle)
    (hparse : parseClientHello bytes = .ok info) (hplain : info.isClientHello = false)
    (hclean : f.attack = false) (hagain : f.backend.send = .again) (hne : bytes ≠ [])
    (hconnected : c.session.backendFd ≠ none) (hrouted : c.session.backendPort ≠ 0)
    (hwaits : c.session.backendTxBuf ≠ [])
    (hroom : c.session.backendTxBuf.length + bytes.length ≤ maxBackendBuf) :
    ∃ kernel armed, applyPolicy cfg f c bytes =
      .ok ((c.scanBytes f bytes).queued bytes kernel armed,.reply) := by
  have hinspect : applyPolicy cfg f c bytes = relay cfg f (c.scanBytes f bytes) bytes := by
    simp only [applyPolicy,hparse,bind,Except.bind,hplain,Bool.false_eq_true,if_false,dispatch,
      hidle,ne_eq,not_true_eq_false,inspect,hclean]
  rw [hinspect]
  exact relay_queued cfg (c := c.scanBytes f bytes) hagain hne hconnected hrouted hwaits hroom

/-- The client is told of a segment at the end of the call, with the window then. -/
def Answered (p : Nat) (segment : List UInt8) (s : TcpStreamSession) (out : Output) : Prop :=
  ∃ quiet, (∀ a ∈ quiet, a.isSilent = true ∧ a.isFeed = false) ∧
    traceOf p out.actions =
      .delivered segment :: (quiet ++ [.ack s.sendNxt s.rcvNxt (recvWindow s)])

/-- What a segment for a stalled backend leads to. -/
structure Goes (key : TcpKey) (p : Nat) (st : State) (s : TcpStreamSession) (f : TcpFrame)
    (segment held : List UInt8) (st' : State) (s' : TcpStreamSession) (out : Output) : Prop where
  stalled : Stalled key p st' s' held
  next : s'.rcvNxt = s.rcvNxt + BitVec.ofNat 32 segment.length
  table : SameTable st f st'
  answered : Answered p segment s' out

/-- A segment that completes no hello, or is none, goes to the backend buffer. -/
theorem Stalled.queue (h : Stalled key p st s held) {info : TlsParseResult}
    (hf : DataFrame key s.rcvNxt segment f) (hne : segment ≠ [])
    (hmeets : st.engine.Meets f.call s₁) (hclean : f.attack = false)
    (hagain : f.backend.send = .again)
    (hpass : holdHello (afterSegment s f segment) segment = .pass t bytes)
    (hbytes : bytes ≠ []) (hparse : parseClientHello bytes = .ok info)
    (hplain : info.isClientHello = false)
    (hroom : s.backendTxBuf.length + bytes.length ≤ maxBackendBuf) :
    ∃ st' out s', handleTcpPacket cfg st f = .ok (st',out) ∧
      Goes key p st s f segment [] st' s' out ∧ s'.backendTxBuf = s.backendTxBuf ++ bytes := by
  obtain ⟨e,c,verdict,hclean',_,hready,_,hrun,hserving⟩ := h.handle cfg hf hne hmeets
  have ht := holdHello_session (Or.inr ⟨bytes,hpass⟩)
  have hqueued := applyPolicy_queued cfg
    (c := { deliveredConn p s f segment e.kernel st.txPool with session := t })
    (by rw [ht]; exact h.tlsStatus) hparse hplain hclean hagain hbytes
    (by rw [ht]; exact h.connected) (by rw [ht]; exact h.routed) (by rw [ht]; exact h.waits)
    (by rw [ht]; exact hroom)
  obtain ⟨kernel,armed,hpolicy⟩ := hqueued
  rw [handleReady_pass cfg hpass,hpolicy] at hready
  cases hready
  have hnext := hserving.put (c := ((Conn.scanBytes
    { deliveredConn p s f segment e.kernel st.txPool with session := t } f bytes).queued bytes
      kernel armed)) rfl
  refine ⟨_,_,_,hrun,⟨⟨⟨hnext,?_,?_,?_,rfl⟩,?_,?_,?_⟩,?_,⟨e,hclean',rfl,rfl⟩,
    [.scan bytes f.attack,.target t.backendPort,.forward t.backendPort bytes],?_,?_⟩,?_⟩
  · rw [ht]
    rfl
  · rw [ht]
    exact h.outOfOrderCount
  · rw [ht]
    exact h.tlsStatus
  · rw [ht]
    exact h.connected
  · rw [ht]
    exact h.routed
  · exact List.append_ne_nil_of_right_ne_nil _ hbytes
  · rw [ht]
    rfl
  · simp [Action.isSilent,Action.isFeed]
  · exact traceOf_self _ _
  · rw [ht]
    rfl

/-- A segment that leaves a hello incomplete is held. -/
theorem Stalled.hold (h : Stalled key p st s held)
    (hf : DataFrame key s.rcvNxt segment f) (hne : segment ≠ [])
    (hmeets : st.engine.Meets f.call s₁)
    (hwait : holdHello (afterSegment s f segment) segment = .wait t) :
    ∃ st' out s', handleTcpPacket cfg st f = .ok (st',out) ∧
      Goes key p st s f segment (held ++ segment) st' s' out ∧
      s'.backendTxBuf = s.backendTxBuf := by
  obtain ⟨e,c,verdict,hclean,_,hready,_,hrun,hserving⟩ := h.handle cfg hf hne hmeets
  have ht := holdHello_wait hwait
  rw [handleReady_wait cfg hwait,ht] at hready
  cases hready
  have hheld : (afterSegment s f segment).clientHelloBuf = held := h.clientHelloBuf
  refine ⟨_,_,_,hrun,⟨⟨⟨hserving.put rfl,rfl,h.outOfOrderCount,h.tlsStatus,?_⟩,h.connected,
    h.routed,h.waits⟩,rfl,⟨e,hclean,rfl,rfl⟩,[],by simp,?_⟩,rfl⟩
  · exact congrArg (· ++ segment) hheld
  · exact traceOf_self _ _

/-- What the client of a session without TLS was told: where its next byte goes, and at least the
window that there is now. -/
structure Told (acts : List Action) (s : TcpStreamSession) (o : Offer) : Prop where
  plain : Plain acts
  offer : offered acts = some o
  next : o.next = s.rcvNxt
  window : o.received + recvWindow s ≤ o.edge

namespace Told

variable {acts : List Action} {o : Offer} {s' : TcpStreamSession}

/-- An answer moves the client on and takes no offer back. -/
theorem answered (h : Told acts s o)
    (hnext : s'.rcvNxt = s.rcvNxt + BitVec.ofNat 32 segment.length)
    (ha : Answered p segment s' out) :
    ∃ o', Told (acts ++ traceOf p out.actions) s' o' ∧
      o'.received = o.received + segment.length ∧ o.edge ≤ o'.edge := by
  obtain ⟨quiet,hquiet,htrace⟩ := ha
  have hdeliver : (o.deliver segment.length).next = s'.rcvNxt := by
    rw [Offer.next_deliver,h.next,hnext]
  refine ⟨(o.deliver segment.length).extend s'.rcvNxt (recvWindow s'),⟨?_,?_,hdeliver,?_⟩,rfl,
    le_max_left _ _⟩
  · intro a ha
    rw [htrace] at ha
    simp only [List.mem_append,List.mem_cons,List.not_mem_nil,or_false] at ha
    rcases ha with hold | rfl | hq | rfl
    · exact h.plain a hold
    · rfl
    · exact (hquiet a hq).2
    · rfl
  · rw [offered_append,h.offer,htrace,List.foldl_cons,List.foldl_append]
    change List.foldl Offer.note (List.foldl Offer.note (some (o.deliver segment.length)) quiet)
      _ = _
    rw [foldl_note_silent _ fun a ha => (hquiet a ha).1]
    rfl
  · refine le_max_of_le_right ?_
    have hzero : (s'.rcvNxt - s'.rcvNxt).toInt = 0 := by simp
    rw [Offer.position,hdeliver,hzero]
    exact le_of_eq (by simp [Offer.extend])

/-- A segment in order that ends before the edge. -/
theorem sendsWithin (h : Told acts s o) {pkt : TcpPacket} (hseq : pkt.seq = s.rcvNxt)
    (hend : (o.received + pkt.payload.length : Int) ≤ o.edge) : SendsWithin acts pkt := by
  intro _ _ o' ho'
  rw [h.offer] at ho'
  cases ho'
  have hzero : (s.rcvNxt - s.rcvNxt).toInt = 0 := by simp
  rw [Offer.position,hseq,h.next,hzero]
  omega

/-- Bytes for which there is room are within the window. -/
theorem room (h : Told acts s o) {n : Nat} (hn : n < 65536)
    (hroom : s.backendTxBuf.length + n ≤ maxBackendBuf) : (o.received + n : Int) ≤ o.edge := by
  have hwindow := h.window
  unfold recvWindow at hwindow
  split_ifs at hwindow <;> omega

end Told

section Plain

variable {b : UInt8} {rest : List UInt8}

/-- Bytes that do not open with the type of a handshake record are not held. -/
theorem holdHello_plain (hempty : s.clientHelloBuf = []) (hb : b ≠ 0x16) :
    holdHello s (b :: rest) = .pass s (b :: rest) := by
  have hnot : ¬ (s.tlsStatus = .idle ∧
      (s.clientHelloBuf ≠ [] ∨ startsHello (b :: rest) = true)) := by
    simp [hempty,startsHello,hb]
  rw [holdHello,if_neg hnot]

theorem parseClientHello_plain (rest : List UInt8) (hb : b ≠ 0x16) :
    ∃ info, parseClientHello (b :: rest) = .ok info ∧ info.isClientHello = false := by
  unfold parseClientHello
  dsimp only
  split
  · exact ⟨{},rfl,rfl⟩
  · have hkind : b ≠ tlsRecordHandshake := hb
    have hbyte : byteAt (b :: rest) 0 = .ok b := rfl
    simp only [hbyte,bind,Except.bind,hkind,ne_eq,not_false_eq_true,if_true]
    exact ⟨_,rfl,rfl⟩

end Plain

theorem segmentFrame_again {seq : BitVec 32} (h : segment.length < 65536) :
    (segmentFrame seq segment).backend.send = .again := by
  rw [segmentFrame,dif_pos h]
  rfl

end Aethon.Pipeline
