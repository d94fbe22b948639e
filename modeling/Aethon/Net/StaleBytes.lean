import Aethon.Net.Agreement

/-!
# Stale bytes

A received frame keeps what earlier packets left behind its end. Two frames that agree on the bytes
of the packet are handled alike: every field that is used lies within the packet.
-/

namespace Aethon.Net

open Framework Pipeline

variable {pkt pkt' : Nat → UInt8} {len : Nat}

section Accept

theorem acceptsIpv4_of_agree (hagree : AgreeTo len pkt pkt') (h : acceptsIpv4 pkt len = true) :
    acceptsIpv4 pkt' len = true := by
  obtain ⟨_,hihl,_,hhdr,hend⟩ := acceptsIpv4_lengths h
  have hmin : ipHdrLen pkt = ihl pkt * 4 := rfl
  have hsame := headers_same hagree (by omega)
  have hsum := checksum_same hsame hagree (by omega)
  rwa [acceptsIpv4,hsame.etherType,hsum,ipHdrLen_same hsame,hsame.totLen,← acceptsIpv4] at h

/-- A checksum over options that reach behind the packet is never the reason to take it. -/
theorem acceptsIpv4_agree (hagree : AgreeTo len pkt pkt') :
    acceptsIpv4 pkt len = acceptsIpv4 pkt' len :=
  Bool.eq_iff_iff.mpr ⟨acceptsIpv4_of_agree hagree,acceptsIpv4_of_agree hagree.symm⟩

end Accept

/-- Two frames with the same bytes of an accepted packet. -/
structure SamePacket (len : Nat) (pkt pkt' : Nat → UInt8) : Prop where
  agree : AgreeTo len pkt pkt'
  accepted : acceptsIpv4 pkt len = true

namespace SamePacket

variable (h : SamePacket len pkt pkt')
include h

theorem lengths : 5 ≤ ihl pkt ∧ ipHdrLen pkt ≤ totLen pkt ∧ 14 + totLen pkt ≤ len :=
  have hlengths := acceptsIpv4_lengths h.accepted
  ⟨hlengths.2.1,hlengths.2.2.2⟩

theorem headers : SameHeaders pkt pkt' := by
  obtain ⟨hihl,hhdr,hend⟩ := h.lengths
  have hmin : ipHdrLen pkt = ihl pkt * 4 := rfl
  exact headers_same h.agree (by omega)

theorem payload : ipPayload pkt = ipPayload pkt' :=
  payload_same h.headers h.agree h.lengths.2.1 h.lengths.2.2

theorem forThisHost (hostIps : List (BitVec 32)) :
    isForThisHost pkt hostIps = isForThisHost pkt' hostIps := by
  rw [isForThisHost,h.headers.daddr,h.headers.destination,← isForThisHost]

end SamePacket

section Udp

theorem onUdp_same (h : SamePacket len pkt pkt') (env : RxEnv) (w : Worker) :
    onUdp env w pkt = onUdp env w pkt' := by
  have hmore : moreFragments pkt = moreFragments pkt' := by
    rw [moreFragments,h.headers.fragOff,← moreFragments]
  have hoffset : fragOffset pkt = fragOffset pkt' := by
    rw [fragOffset,h.headers.fragOff,← fragOffset]
  have hfragment : fragmentOf pkt = fragmentOf pkt' := by
    simp only [fragmentOf,hoffset,h.payload,hmore]
  have hkey : fragmentKeyOf pkt = fragmentKeyOf pkt' := by
    rw [fragmentKeyOf,h.headers.saddr,h.headers.daddr,h.headers.ipId,h.headers.protocol,
      ← fragmentKeyOf]
  rw [onUdp,hmore,hoffset,h.payload,hfragment,hkey,← onUdp]

end Udp

section Tcp

/-- The whole TCP header lies in the packet. -/
def HoldsTcp (pkt : Nat → UInt8) : Prop :=
  ipHdrLen pkt + 20 ≤ totLen pkt ∧ 20 ≤ tcpHdrLen pkt ∧ ipHdrLen pkt + tcpHdrLen pkt ≤ totLen pkt

instance (pkt : Nat → UInt8) : Decidable (HoldsTcp pkt) := inferInstanceAs (Decidable (_ ∧ _ ∧ _))

theorem headersOk_iff (env : RxEnv) : (tcpFrameOf env pkt).headersOk = true ↔ HoldsTcp pkt := by
  simp only [TcpFrame.headersOk,Bool.and_eq_true,Bool.not_eq_true',Bool.or_eq_false_iff,
    decide_eq_false_iff_not,not_lt]
  exact ⟨fun h => ⟨h.1.1,h.1.2⟩,fun h => ⟨h,h.2.2⟩⟩

theorem tcpHdrLen_same (h : SamePacket len pkt pkt') (hlen : ipHdrLen pkt + 20 ≤ totLen pkt) :
    tcpHdrLen pkt = tcpHdrLen pkt' := by
  have hend := h.lengths.2.2
  have hstart : tcphOf pkt = 14 + ipHdrLen pkt := rfl
  rw [tcpHdrLen,tcpHdrLen,tcpDoff,tcpDoff,← tcph_same h.headers,h.agree _ (by omega)]

theorem holdsTcp_same (h : SamePacket len pkt pkt') : HoldsTcp pkt ↔ HoldsTcp pkt' := by
  rw [HoldsTcp,HoldsTcp,← ipHdrLen_same h.headers,← h.headers.totLen]
  apply and_congr_right
  intro hlen
  rw [tcpHdrLen_same h hlen]

/-- The fields of the TCP header and what follows it. -/
theorem tcpFrameOf_same (h : SamePacket len pkt pkt') (htcp : HoldsTcp pkt) (env : RxEnv) :
    tcpFrameOf env pkt = tcpFrameOf env pkt' := by
  obtain ⟨hlen,hdoff,hpayload⟩ := htcp
  have hend := h.lengths.2.2
  have hstart : tcphOf pkt = 14 + ipHdrLen pkt := rfl
  have hsame := tcpHdrLen_same h hlen
  have hpacket : tcpPacketOf pkt = tcpPacketOf pkt' := by
    simp only [tcpPacketOf,tcpSource,tcpDest,tcpSeq,tcpFlags,u16At,ntohlAt,tcphdrLen,← hsame,
      ← tcph_same h.headers,← ipHdrLen_same h.headers,← h.headers.totLen,h.headers.saddr,
      h.headers.daddr,h.agree (tcphOf pkt + 13) (by omega)]
    simp only [TcpPacket.mk.injEq,true_and]
    refine ⟨?_,?_,?_,?_,?_⟩
    · rw [h.agree.read (by omega)]
    · rw [h.agree.read (by omega)]
    · rw [h.agree.read (by omega)]
    · rw [h.agree.read (by omega)]
    · rw [h.agree.read (by omega)]
  have hdoff' : tcpDoff pkt (tcphOf pkt) = tcpDoff pkt' (tcphOf pkt') := by
    rw [tcpHdrLen,tcpHdrLen] at hsame
    omega
  simp only [tcpFrameOf,hpacket,h.headers.ihl,hdoff',h.headers.totLen,h.headers.etherShost,
    h.headers.etherDhost]

/-- A segment written over two frames that agree. -/
theorem buildSegment_agree (h : AgreeTo len pkt pkt') (s : Segment)
    (hlen : 54 + s.payload.length ≤ len) :
    AgreeTo len (buildSegment pkt s).pkt (buildSegment pkt' s).pkt := by
  have hether : AgreeTo len (writeEther pkt s.clientMac s.serverMac)
      (writeEther pkt' s.clientMac s.serverMac) := ((h.store _ _).store _ _).store _ _
  have hip := hether.store 14 (ipHeader (20 + 20 + s.payload.length) s.serverIp s.clientIp)
  have hiph : AgreeTo len (writeIph (writeEther pkt s.clientMac s.serverMac)
      (20 + 20 + s.payload.length) s.serverIp s.clientIp)
      (writeIph (writeEther pkt' s.clientMac s.serverMac) (20 + 20 + s.payload.length) s.serverIp
        s.clientIp) := by
    rw [writeIph,writeIph,hip.read (by omega)]
    exact hip.store _ _
  have htcp := (hiph.store 34 (tcpHeader s)).store 54 s.payload
  change AgreeTo len (writeTcph _ s) (writeTcph _ s)
  rw [writeTcph,writeTcph,u32At,u32At,htcp.read (by omega),htcp.read (by omega),
    htcp.read (by omega)]
  exact htcp.store _ _

theorem TxFrame.bytes_agree {frame frame' : TxFrame} (h : AgreeTo len frame.pkt frame'.pkt)
    (hlen : frame.len ≤ len) (hsame : frame.len = frame'.len) : frame.bytes = frame'.bytes := by
  rw [TxFrame.bytes,TxFrame.bytes,← hsame,h.read (by omega)]

theorem answer_same (h : SamePacket len pkt pkt') (htcp : HoldsTcp pkt) (seq ackSeq : List UInt8)
    (flags : BitVec 8) (window : Nat) :
    (buildSegment pkt (answerTo pkt (tcphOf pkt) seq ackSeq flags window)).bytes =
      (buildSegment pkt' (answerTo pkt' (tcphOf pkt') seq ackSeq flags window)).bytes := by
  have hend := h.lengths.2.2
  have hmin : ipHdrLen pkt = ihl pkt * 4 := rfl
  have hihl := h.lengths.1
  have hstart : tcphOf pkt = 14 + ipHdrLen pkt := rfl
  have hlen := htcp.1
  have hanswer : answerTo pkt (tcphOf pkt) seq ackSeq flags window =
      answerTo pkt' (tcphOf pkt') seq ackSeq flags window := by
    rw [answerTo,answerTo,h.headers.etherShost,h.headers.etherDhost,h.headers.saddr,
      h.headers.daddr,← tcph_same h.headers,tcpSource,tcpSource,tcpDest,tcpDest,u16At,u16At,u16At,
      u16At,h.agree.read (by omega),h.agree.read (by omega)]
  rw [← hanswer]
  exact TxFrame.bytes_agree (buildSegment_agree h.agree _ (show 54 + 0 ≤ len by omega))
    (show 54 ≤ len by omega) rfl

/-- The reply to a TCP segment. -/
theorem replyFrame_same (h : SamePacket len pkt pkt') (htcp : HoldsTcp pkt) (a : Action) :
    (replyFrame pkt a).map TxFrame.bytes = (replyFrame pkt' a).map TxFrame.bytes := by
  have hpacket : tcpPacketOf pkt = tcpPacketOf pkt' :=
    congrArg (fun f : TcpFrame => f.call.packet) (tcpFrameOf_same h htcp {})
  cases a with
  | synAck isn clientSeq => exact congrArg some (answer_same h htcp ..)
  | ack seq ackNo window => exact congrArg some (answer_same h htcp ..)
  | rst =>
    have hflags : tcpFlags pkt (tcphOf pkt) = tcpFlags pkt' (tcphOf pkt') :=
      congrArg TcpPacket.flags hpacket
    have hseq : tcpSeq pkt (tcphOf pkt) = tcpSeq pkt' (tcphOf pkt') :=
      congrArg TcpPacket.seq hpacket
    have hack : readBytes pkt (tcphOf pkt + 8) 4 = readBytes pkt' (tcphOf pkt' + 8) 4 := by
      have hend := h.lengths.2.2
      have hlen := htcp.1
      have hstart : tcphOf pkt = 14 + ipHdrLen pkt := rfl
      rw [← tcph_same h.headers,h.agree.read (by omega)]
    apply congrArg some
    rw [ipv4SendTcpRst,ipv4SendTcpRst,← hflags,← hseq,← hack,← hpacket]
    split
    · exact answer_same h htcp ..
    · exact answer_same h htcp ..
  | _ => rfl

theorem tcpTransmitted_same (h : SamePacket len pkt pkt') (htcp : HoldsTcp pkt) (cfg : Config)
    (env : RxEnv) (st : State) (out : Output) :
    tcpTransmitted cfg env st pkt out = tcpTransmitted cfg env st pkt' out := by
  have hreply : (replyFrame pkt · |>.map TxFrame.bytes) = (replyFrame pkt' · |>.map TxFrame.bytes) :=
    funext (replyFrame_same h htcp)
  simp only [tcpTransmitted,tcpFrameOf_same h htcp env,List.map_append,apply_ite (List.map _),
    List.map_filterMap,hreply]

/-- A segment with a bad header changes nothing. -/
theorem handleTcpPacket_dropped (cfg : Config) (st : State) {f : TcpFrame}
    (h : f.headersOk = false) : handleTcpPacket cfg st f = .ok (st,{}) := by
  rw [handleTcpPacket,h]
  rfl

theorem onTcp_same (h : SamePacket len pkt pkt') (cfg : Config) (env : RxEnv) (w : Worker) :
    onTcp cfg env w pkt = onTcp cfg env w pkt' := by
  by_cases htcp : HoldsTcp pkt
  · simp only [onTcp,tcpTransmitted_same h htcp,tcpFrameOf_same h htcp env]
  · have hdropped : ∀ p, ¬ HoldsTcp p → onTcp cfg env w p = .ok (w,{}) := by
      intro p hp
      have hheaders : (tcpFrameOf env p).headersOk = false := by
        rw [← Bool.not_eq_true,headersOk_iff]
        exact hp
      rw [onTcp,handleTcpPacket_dropped cfg w.tcp hheaders]
      simp [tcpTransmitted]
    rw [hdropped pkt htcp,hdropped pkt' (mt (holdsTcp_same h).mpr htcp)]

end Tcp

section Icmp

theorem swapMacs_agree (h : AgreeTo len pkt pkt') (hlen : 12 ≤ len) :
    AgreeTo len (swapMacs pkt) (swapMacs pkt') := by
  rw [swapMacs,swapMacs,h.read (by omega),h.read (by omega)]
  exact (h.store _ _).store _ _

theorem swapIps_agree (h : AgreeTo len pkt pkt') (hlen : 34 ≤ len) :
    AgreeTo len (swapIps pkt) (swapIps pkt') := by
  rw [swapIps,swapIps,h.read (by omega),h.read (by omega)]
  exact (h.store _ _).store _ _

theorem writeIcmp_agree (h : AgreeTo len pkt pkt') {icmph n : Nat} (hlen : icmph + n ≤ len) :
    AgreeTo len (writeIcmp pkt icmph n) (writeIcmp pkt' icmph n) := by
  have hzero := (h.store icmph [icmpEchoReply]).store (icmph + 2) [0,0]
  rw [writeIcmp,writeIcmp,hzero.read hlen]
  exact hzero.store _ _

theorem renewIpCheck_agree (h : AgreeTo len pkt pkt') {n : Nat} (hlen : 14 + n ≤ len) :
    AgreeTo len (renewIpCheck pkt n) (renewIpCheck pkt' n) := by
  have hzero := h.store 24 [0,0]
  rw [renewIpCheck,renewIpCheck,hzero.read hlen]
  exact hzero.store _ _

theorem icmpEchoReplyTo_same (h : SamePacket len pkt pkt') :
    (icmpEchoReplyTo pkt len).bytes = (icmpEchoReplyTo pkt' len).bytes := by
  obtain ⟨hihl,hhdr,hend⟩ := h.lengths
  have hmin : ipHdrLen pkt = ihl pkt * 4 := rfl
  have hstart : tcphOf pkt = 14 + ipHdrLen pkt := rfl
  have hips := swapIps_agree (swapMacs_agree h.agree (by omega)) (by omega)
  have hpkt : AgreeTo len (icmpEchoReplyTo pkt len).pkt (icmpEchoReplyTo pkt' len).pkt := by
    simp only [icmpEchoReplyTo]
    rw [← tcph_same h.headers,← ipHdrLen_same h.headers,← h.headers.totLen]
    exact renewIpCheck_agree (writeIcmp_agree hips (by omega)) (by omega)
  exact TxFrame.bytes_agree hpkt le_rfl rfl

theorem onIcmp_same (h : SamePacket len pkt pkt') (env : RxEnv) :
    onIcmp env pkt len = onIcmp env pkt' len := by
  have hend := h.lengths.2.2
  have hstart : tcphOf pkt = 14 + ipHdrLen pkt := rfl
  rw [onIcmp,onIcmp,← tcph_same h.headers,← ipHdrLen_same h.headers,← h.headers.totLen,
    ← h.headers.ihl,icmpEchoReplyTo_same h]
  by_cases hlen : totLen pkt < ipHdrLen pkt + icmphdrLen
  · simp only [if_pos hlen]
  · rw [icmphdrLen] at hlen
    rw [h.agree (tcphOf pkt) (by omega),h.agree (tcphOf pkt + 1) (by omega)]

end Icmp

/-- What lies behind the end of a packet has no effect on its handling. -/
theorem rxPacket_ignores_stale_bytes (cfg : Config) (env : RxEnv) (w : Worker)
    (pkt pkt' : Nat → UInt8) (len : Nat) (hostIps : List (BitVec 32))
    (hagree : ∀ i < len, pkt i = pkt' i) :
    rxPacket cfg env w pkt len hostIps = rxPacket cfg env w pkt' len hostIps := by
  cases haccept : acceptsIpv4 pkt len with
  | false =>
    have haccept' := (acceptsIpv4_agree hagree).symm.trans haccept
    rw [rxPacket,rxPacket,haccept,haccept',if_neg Bool.false_ne_true,if_neg Bool.false_ne_true]
  | true =>
    have haccept' := (acceptsIpv4_agree hagree).symm.trans haccept
    have h : SamePacket len pkt pkt' := ⟨hagree,haccept⟩
    rw [rxPacket,rxPacket,haccept,haccept',h.forThisHost hostIps,h.headers.protocol,
      onUdp_same h env w,onTcp_same h cfg env w,onIcmp_same h env]

/-- A SYN of 54 bytes. -/
def synFrame : List UInt8 :=
  [1,1,1,1,1,1,2,2,2,2,2,2,0x08,0x00,
    0x45,0,0,40,0,0,0,0,64,6,0x66,0xce,10,0,0,1,10,0,0,2,
    0,1,0,80,0,0,0,9,0,0,0,0,0x50,2,255,255,0,0,0,0]

theorem rxPacket_ignores_stale_bytes_syn :
    acceptsIpv4 (bufferOf synFrame) 54 = true ∧ (∀ i < 54, bufferOf synFrame i =
      bufferOf (synFrame ++ [71,69,84]) i) ∧
      rxPacket {} {} (.new []) (bufferOf synFrame) 54 [] =
        rxPacket {} {} (.new []) (bufferOf (synFrame ++ [71,69,84])) 54 [] :=
  have h : ∀ i < 54, bufferOf synFrame i = bufferOf (synFrame ++ [71,69,84]) i := by decide +kernel
  ⟨by decide +kernel,h,rxPacket_ignores_stale_bytes {} {} (.new []) _ _ 54 [] h⟩

end Aethon.Net
