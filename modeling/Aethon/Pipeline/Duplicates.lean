import Aethon.Pipeline.Served

/-!
# Segments behind the stream

A segment that ends at or before `rcv_nxt` should be acknowledged again. The window check comes
first and works on the end of the segment modulo 2^32, so only a segment that ends exactly at
`rcv_nxt` gets as far as the duplicate check.
-/

namespace Aethon

open Framework

namespace TcpStreamSession

variable {s : TcpStreamSession} {seq : BitVec 32} {payload : List UInt8}

/-- The segment ends at or before `rcv_nxt`. -/
def EndsBehind (s : TcpStreamSession) (seq : BitVec 32) (payload : List UInt8) : Prop :=
  (s.rcvNxt - (seq + BitVec.ofNat 32 payload.length)).toNat < 2 ^ 31

theorem diff_add_eq (s : TcpStreamSession) (seq : BitVec 32) (payload : List UInt8) :
    TcpSeq.diff seq s.rcvNxt + BitVec.ofNat 32 payload.length =
      seq + BitVec.ofNat 32 payload.length - s.rcvNxt := by
  simp only [TcpSeq.diff,BitVec.sub_eq_add_neg]
  ac_rfl

/-- How far a segment behind the stream seems to reach beyond it. -/
theorem EndsBehind.reach (h : s.EndsBehind seq payload)
    (hne : seq + BitVec.ofNat 32 payload.length ≠ s.rcvNxt) :
    (seq + BitVec.ofNat 32 payload.length - s.rcvNxt).toNat > tcpWindowSize := by
  unfold EndsBehind at h
  generalize seq + BitVec.ofNat 32 payload.length = x at h hne ⊢
  have hx := x.isLt
  have hr := s.rcvNxt.isLt
  have hnat : x.toNat ≠ s.rcvNxt.toNat := fun heq => hne (BitVec.eq_of_toNat_eq heq)
  rw [BitVec.toNat_sub] at h ⊢
  unfold tcpWindowSize
  omega

/-- Only a segment that ends at `rcv_nxt` is seen as a duplicate. -/
theorem EndsBehind.receiveData (h : s.EndsBehind seq payload) (garbage : Nat → UInt8) :
    s.receiveData seq payload garbage =
      if seq + BitVec.ofNat 32 payload.length = s.rcvNxt then .duplicate else .outOfWindow := by
  unfold TcpStreamSession.receiveData
  rw [diff_add_eq]
  by_cases heq : seq + BitVec.ofNat 32 payload.length = s.rcvNxt
  · simp only [heq,BitVec.sub_self,TcpSeq.lte]
    simp
  · rw [if_pos (h.reach heq),if_neg heq]

/-- What `process_packet` makes of a segment behind the stream. -/
theorem EndsBehind.onPacket {pkt : TcpPacket} (h : s.EndsBehind pkt.seq pkt.payload)
    (hstate : s.state = .established) (hsyn : pkt.has thSyn = false)
    (hrst : pkt.has thRst = false) (hpos : 0 < pkt.payload.length) (nowNs : BitVec 64)
    (garbage : Nat → UInt8) :
    s.onPacket pkt nowNs garbage = (some (s.awake nowNs),
      { needAck := decide (pkt.seq + BitVec.ofNat 32 pkt.payload.length = s.rcvNxt) }) := by
  have htake : s.takesData pkt = true := by
    simp [takesData,hsyn,hrst,hstate]
  have hreceive : (s.awake nowNs).receiveData pkt.seq pkt.payload garbage =
      if pkt.seq + BitVec.ofNat 32 pkt.payload.length = s.rcvNxt then .duplicate
      else .outOfWindow := EndsBehind.receiveData (s := s.awake nowNs) h garbage
  rw [onPacket_takesData nowNs garbage htake,onEstablished,if_pos hpos,hreceive]
  by_cases heq : pkt.seq + BitVec.ofNat 32 pkt.payload.length = s.rcvNxt
  · simp only [heq,if_true,decide_true]
  · simp only [heq,if_false,decide_false]

end TcpStreamSession

namespace Pipeline

open TcpAssemblerEngine

/-- `process_packet` asks for an ACK and leaves the stream of the session as it is, and
`handle_tcp_packet` answers with an ACK for `rcv_nxt`. -/
def Reacknowledges (cfg : Config) (st : State) (f : TcpFrame) (s : TcpStreamSession) : Prop :=
  ∃ engine res p t, st.engine.processPacket f.call = .ok (engine,res) ∧ res.needAck = true ∧
    engine.heap.mem p = some t ∧ t.rcvNxt = s.rcvNxt ∧ t.ring = s.ring ∧
    t.outOfOrderCount = s.outOfOrderCount ∧
    ∃ st' out, handleTcpPacket cfg st f = .ok (st',out) ∧
      ∃ seq window, (p,.ack seq s.rcvNxt window) ∈ out.actions

/-- A segment behind the stream is acknowledged again exactly when it ends at `rcv_nxt`. -/
theorem reacknowledges_iff (cfg : Config) (st : State) (hreached : Reached cfg st) (f : TcpFrame)
    (s : TcpStreamSession) (hheaders : f.headersOk = true) (hmeets : st.engine.Meets f.call s)
    (hstate : s.state = .established) (hsyn : f.packet.has thSyn = false)
    (hrst : f.packet.has thRst = false) (hpos : 0 < f.packet.payload.length)
    (hbehind : s.EndsBehind f.packet.seq f.packet.payload) :
    Reacknowledges cfg st f s ↔
      f.packet.seq + BitVec.ofNat 32 f.packet.payload.length = s.rcvNxt := by
  have hon := hbehind.onPacket hstate hsyn hrst hpos f.call.nowNs f.call.garbage
  obtain ⟨u,p,hp,_,hmem,_⟩ := hmeets.kept hreached.engineWf (not_refused hsyn) hon
  constructor
  · intro h
    obtain ⟨engine,res,_,_,hpacket,hack,_⟩ := h
    rw [hp] at hpacket
    cases hpacket
    simpa [portsOf] using hack
  · intro heq
    simp only [heq,decide_true] at hp
    have hrun : handleResult cfg f ⟨p,s.awake f.call.nowNs,u.kernel,st.txPool,[]⟩
        (portsOf f.packet { needAck := true } (some p)) =
          .ok (Conn.emitAck ⟨p,s.awake f.call.nowNs,u.kernel,st.txPool,[]⟩,.reply) := by
      simp [handleResult,portsOf,Conn.noteDelivery]
    refine ⟨u,_,p,_,hp,rfl,hmem,rfl,rfl,rfl,_,_,handleTcpPacket_eq hheaders hp rfl hmem hrun,?_⟩
    exact ⟨_,_,List.mem_singleton_self _⟩

def twoByteState : State :=
  match runOut (step mixedConfig) (State.new []) twoByteEvents with
  | .ok (st,_) => st
  | .error _ => .new []

def twoByteSession : TcpStreamSession := (twoByteState.engine.heap.mem 1).getD sampleStart

theorem twoByteState_reached : Reached mixedConfig twoByteState := ⟨[],twoByteEvents,_,rfl⟩

theorem twoByteState_meets {f : TcpFrame} (hkey : f.call.packet.key = ⟨1,2,3,4⟩)
    (hnow : f.call.nowNs = 0) : twoByteState.engine.Meets f.call twoByteSession := by
  refine ⟨twoByteState.engine,1,?_,?_,rfl⟩
  · rw [hnow]
    rfl
  · rw [hkey]
    rfl

theorem reacknowledges_secondByte :
    Reacknowledges mixedConfig twoByteState (sampleFrame thAck 2 [6] (by decide))
      twoByteSession :=
  (reacknowledges_iff mixedConfig twoByteState twoByteState_reached _ twoByteSession
    (by decide) (twoByteState_meets rfl rfl) (by decide +kernel) (by decide) (by decide)
    (by decide) (by unfold TcpStreamSession.EndsBehind; decide +kernel)).mpr (by decide +kernel)

/-- The first of the two bytes alone is dropped without an answer. -/
theorem drops_old_segment :
    Reached mixedConfig twoByteState ∧ twoByteSession.state = .established ∧
      twoByteState.engine.Meets (sampleFrame thAck 1 [5] (by decide)).call twoByteSession ∧
      twoByteSession.EndsBehind 1 [5] ∧
      ∃ st out, handleTcpPacket mixedConfig twoByteState (sampleFrame thAck 1 [5] (by decide)) =
          .ok (st,out) ∧ out.actions = [] ∧
        (∃ engine res, twoByteState.engine.processPacket
          (sampleFrame thAck 1 [5] (by decide)).call = .ok (engine,res) ∧ res.needAck = false) :=
  ⟨twoByteState_reached,by decide +kernel,twoByteState_meets rfl rfl,
    by unfold TcpStreamSession.EndsBehind; decide +kernel,_,_,rfl,rfl,_,_,rfl,rfl⟩

end Pipeline

end Aethon
