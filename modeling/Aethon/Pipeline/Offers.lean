import Aethon.Transport.TcpWindow
import Aethon.Pipeline.Answers

/-!
# Windows that the client is offered

Every SYN-ACK, ACK, data segment and FIN offers the client a window. The largest edge that it
was offered, the bytes that wait for the backend and the held part of a hello have to fit into
the backend buffer together, since the client may send up to that edge.
-/

namespace Aethon.Pipeline

open Framework

def synAckWindow : Nat := 65535

/-- What the client was told: the sequence number of its SYN, how many bytes it has got across,
and the largest edge of a window, as a position in its stream. -/
structure Offer where
  isn : BitVec 32
  received : Nat
  edge : Int

namespace Offer

/-- The sequence number of the next byte. -/
def next (o : Offer) : BitVec 32 := o.isn + 1 + BitVec.ofNat 32 o.received

/-- The position of a sequence number in the stream, the one that is closest to the next byte. -/
def position (o : Offer) (seq : BitVec 32) : Int := o.received + (seq - o.next).toInt

def extend (o : Offer) (ackNo : BitVec 32) (window : Nat) : Offer :=
  { o with edge := max o.edge (o.position ackNo + window) }

def deliver (o : Offer) (n : Nat) : Offer := { o with received := o.received + n }

/-- How many bytes the client may still send. -/
def ahead (o : Offer) : Int := o.edge - o.received

theorem next_deliver (o : Offer) (n : Nat) : (o.deliver n).next = o.next + BitVec.ofNat 32 n := by
  simp only [next,deliver,BitVec.ofNat_add,BitVec.add_assoc]

theorem ahead_deliver (o : Offer) (n : Nat) : (o.deliver n).ahead = o.ahead - n := by
  simp only [ahead,deliver]
  push_cast
  omega

theorem ahead_extend (o : Offer) (ackNo : BitVec 32) (window : Nat) :
    (o.extend ackNo window).ahead = max o.ahead ((ackNo - o.next).toInt + window) := by
  simp only [ahead,extend,position]
  omega

/-- What an action tells the client. -/
def note : Option Offer → Action → Option Offer
  | none, .synAck _ clientSeq => some ⟨clientSeq,0,synAckWindow⟩
  | some o, .synAck _ clientSeq => some (o.extend (clientSeq + 1) synAckWindow)
  | some o, .ack _ ackNo window => some (o.extend ackNo window)
  | some o, .data _ ackNo _ window => some (o.extend ackNo window)
  | some o, .fin _ ackNo window => some (o.extend ackNo window)
  | some o, .delivered payload => some (o.deliver payload.length)
  | o, _ => o

end Offer

/-- The windows that the actions of a session offer. -/
def offered (acts : List Action) : Option Offer := acts.foldl Offer.note none

theorem offered_append (acts acts' : List Action) :
    offered (acts ++ acts') = acts'.foldl Offer.note (offered acts) := List.foldl_append

/-- The client sends no byte at or beyond the largest edge that it was offered. -/
def SendsWithin (acts : List Action) (pkt : TcpPacket) : Prop :=
  pkt.has thSyn = false → 0 < pkt.payload.length →
    ∀ o, offered acts = some o → o.position pkt.seq + pkt.payload.length ≤ o.edge

instance (acts : List Action) (pkt : TcpPacket) : Decidable (SendsWithin acts pkt) :=
  match h : offered acts with
  | none => isTrue fun _ _ o ho => by
      rw [h] at ho
      cases ho
  | some o => decidable_of_iff (pkt.has thSyn = false → 0 < pkt.payload.length →
      o.position pkt.seq + pkt.payload.length ≤ o.edge) (by simp [SendsWithin,h])

/-- The action neither offers a window nor delivers bytes. -/
def Action.isSilent : Action → Bool
  | .synAck _ _ => false
  | .ack _ _ _ => false
  | .data _ _ _ _ => false
  | .fin _ _ _ => false
  | .delivered _ => false
  | _ => true

theorem note_silent (o : Option Offer) {a : Action} (h : a.isSilent = true) :
    Offer.note o a = o := by
  cases o <;> cases a <;> first | rfl | cases h

theorem foldl_note_silent {acts : List Action} (o : Option Offer)
    (h : ∀ a ∈ acts, a.isSilent = true) : acts.foldl Offer.note o = o := by
  induction acts with
  | nil => rfl
  | cons a acts ih =>
    rw [List.foldl_cons,note_silent o (h a (by simp))]
    exact ih fun b hb => h b (by simp [hb])

/-- With `n` delivered bytes in hand, the buffer has room for all that the client may send. -/
structure Fits (s : TcpStreamSession) (n : Nat) (o : Offer) : Prop where
  next : s.rcvNxt = o.next
  queue : s.backendTxBuf.length ≤ maxBackendBuf
  held : s.clientHelloBuf ≠ [] →
    s.backendTxBuf.length + maxClientHello + synAckWindow ≤ maxBackendBuf
  hello : s.clientHelloBuf.length ≤ maxClientHello
  room : (s.backendTxBuf.length + s.clientHelloBuf.length + n : Int) + o.ahead ≤ maxBackendBuf
  marks : s.MarkedBelow o.ahead

namespace Fits

variable {s s' : TcpStreamSession} {n : Nat} {o : Offer}

/-- A window for which there is room may be offered. -/
theorem extend (h : Fits s n o) {ackNo : BitVec 32} {window : Nat}
    (hroom : (s.backendTxBuf.length + s.clientHelloBuf.length + n : Int) +
      ((ackNo - s.rcvNxt).toInt + window) ≤ maxBackendBuf) : Fits s n (o.extend ackNo window) := by
  refine ⟨h.next,h.queue,h.held,h.hello,?_,?_⟩
  · rw [Offer.ahead_extend,← h.next]
    have := h.room
    omega
  · intro i hi hbit
    rw [Offer.ahead_extend]
    exact lt_max_of_lt_left (h.marks i hi hbit)

/-- The window of `recv_window` leaves room for the held bytes. -/
theorem window (h : Fits s 0 o) :
    s.backendTxBuf.length + s.clientHelloBuf.length + recvWindow s ≤ maxBackendBuf := by
  have hqueue := h.queue
  have hhello := h.hello
  have hheld := h.held
  unfold recvWindow
  by_cases hempty : s.clientHelloBuf = []
  · rw [hempty,List.length_nil]
    split_ifs <;> omega
  · have hroom := hheld hempty
    simp only [synAckWindow] at hroom
    split_ifs <;> omega

theorem acknowledge (h : Fits s 0 o) : Fits s 0 (o.extend s.rcvNxt (recvWindow s)) := by
  apply h.extend
  have hwindow := h.window
  have hzero : (s.rcvNxt - s.rcvNxt).toInt = 0 := by simp
  rw [hzero]
  push_cast
  omega

/-- Bytes that leave the buffers make room. -/
theorem ease (h : Fits s n o) (hnxt : s'.rcvNxt = s.rcvNxt) (hring : s'.ring = s.ring)
    (hbuf : s'.backendTxBuf.length ≤ s.backendTxBuf.length)
    (hhello : s'.clientHelloBuf = s.clientHelloBuf) : Fits s' n o := by
  refine ⟨hnxt.trans h.next,hbuf.trans h.queue,?_,hhello ▸ h.hello,?_,?_⟩
  · intro hne
    have := h.held (hhello ▸ hne)
    omega
  · have := h.room
    rw [hhello]
    omega
  · intro i hi hbit
    apply h.marks i hi
    unfold TcpStreamSession.bit at hbit ⊢
    rwa [hnxt,hring] at hbit

end Fits

/-- What a call tells the client leaves room for what the client may send, and the TLS status
stays. -/
structure Honours (c c' : Conn) : Prop where
  log : ∃ acts, c'.log = c.log ++ acts ∧ ∀ o, Fits c.session 0 o →
    ∃ o', acts.foldl Offer.note (some o) = some o' ∧ Fits c'.session 0 o'
  status : c'.session.tlsStatus = c.session.tlsStatus

namespace Honours

variable {a b c c' : Conn}

theorem trans (h : Honours a b) (h' : Honours b c) : Honours a c := by
  obtain ⟨acts,hlog,hfits⟩ := h.log
  obtain ⟨acts',hlog',hfits'⟩ := h'.log
  refine ⟨⟨acts ++ acts',by rw [hlog',hlog,List.append_assoc],?_⟩,h'.status.trans h.status⟩
  intro o ho
  obtain ⟨o₁,hnote,ho₁⟩ := hfits o ho
  obtain ⟨o₂,hnote',ho₂⟩ := hfits' o₁ ho₁
  exact ⟨o₂,by rw [List.foldl_append,hnote,hnote'],ho₂⟩

/-- Nothing is said, and the buffers do not grow. -/
theorem silent (acts : List Action) (hlog : c'.log = c.log ++ acts)
    (hacts : ∀ a ∈ acts, a.isSilent = true) (hnxt : c'.session.rcvNxt = c.session.rcvNxt)
    (hring : c'.session.ring = c.session.ring)
    (hbuf : c'.session.backendTxBuf.length ≤ c.session.backendTxBuf.length)
    (hhello : c'.session.clientHelloBuf = c.session.clientHelloBuf)
    (hstatus : c'.session.tlsStatus = c.session.tlsStatus) : Honours c c' := by
  refine ⟨⟨acts,hlog,?_⟩,hstatus⟩
  intro o ho
  exact ⟨o,foldl_note_silent _ hacts,ho.ease hnxt hring hbuf hhello⟩

theorem refl (c : Conn) : Honours c c :=
  silent [] (List.append_nil _).symm (by simp) rfl rfl le_rfl rfl rfl

/-- The client is told what has arrived and what the window is. -/
theorem emitAck (c : Conn) : Honours c c.emitAck :=
  ⟨⟨[_],rfl,fun _ ho => ⟨_,rfl,ho.acknowledge⟩⟩,rfl⟩

theorem flushBackendTx (c : Conn) (io : BackendIo) : Honours c (c.flushBackendTx io) := by
  unfold Conn.flushBackendTx
  split
  · exact refl c
  · rename_i fd _
    split_ifs
    · exact refl c
    · split
      · rename_i n _
        split_ifs
        · exact silent [.write (c.kernel.sockets fd) (c.session.backendTxBuf.take n)] rfl
            (by simp [Action.isSilent]) rfl rfl (by simp [Conn.setTxBuf]) rfl rfl
        · exact refl c
      · exact refl c
      · exact refl c

theorem announceWindow (c : Conn) (ev : BackendEvent) (oldWin : Nat) :
    Honours c (c.announceWindow ev oldWin (recvWindow c.session)) := by
  unfold Conn.announceWindow
  split
  · exact refl c
  · split_ifs
    · exact ⟨⟨[_],rfl,fun _ ho => ⟨_,rfl,ho.acknowledge⟩⟩,rfl⟩
    · exact refl c

/-- The segments of a block offer the same window. -/
theorem acknowledge_all {s : TcpStreamSession} {acts : List Action} {o : Offer}
    (hacts : ∀ a ∈ acts, ∃ seq payload, a = .data seq s.rcvNxt payload (recvWindow s))
    (ho : Fits s 0 o) : ∃ o', acts.foldl Offer.note (some o) = some o' ∧ Fits s 0 o' := by
  induction acts generalizing o with
  | nil => exact ⟨o,rfl,ho⟩
  | cons a acts ih =>
    obtain ⟨seq,payload,rfl⟩ := hacts a (by simp)
    exact ih (fun b hb => hacts b (by simp [hb])) ho.acknowledge

theorem sendTcpSegmentedData (c : Conn) (sent : Nat → Bool) (data : List UInt8) :
    Honours c (c.sendTcpSegmentedData sent data).2 := by
  unfold Conn.sendTcpSegmentedData
  split_ifs
  · exact refl c
  · refine ⟨⟨_,rfl,?_⟩,rfl⟩
    intro o ho
    obtain ⟨o',hnote,ho'⟩ := acknowledge_all (s := c.session) (fun a ha =>
      Conn.sendSegments_log a ha) ho
    exact ⟨o',hnote,ho'.ease rfl rfl le_rfl rfl⟩

theorem rule : EventRule Honours where
  refl := refl
  trans _ _ _ := trans
  epoll _ _ _ := silent [] (List.append_nil _).symm (by simp) rfl rfl le_rfl rfl rfl
  flush := flushBackendTx
  update := announceWindow
  read _ bytes := silent [.backendRead bytes] rfl (by simp [Action.isSilent]) rfl rfl le_rfl rfl rfl
  segments := sendTcpSegmentedData

end Honours

end Aethon.Pipeline
