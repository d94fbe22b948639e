import Aethon.Transport.TcpOverlap

/-!
# Teardown by RST and FIN

A session should only be torn down by an RST or a FIN at the position that the receiver has
reached. `process_packet` does not look at the sequence number of an RST at all, and it acts
on a FIN as soon as the data of its packet was accepted, wherever that data lies.
-/

namespace Aethon

open Framework

namespace TcpStreamSession

theorem ofNat_inj_window {m n : Nat} (hm : m ≤ tcpWindowSize) (hn : n ≤ tcpWindowSize) :
    BitVec.ofNat 32 m = BitVec.ofNat 32 n ↔ m = n := by
  unfold tcpWindowSize at hm hn
  constructor
  · intro h
    have hnat := congrArg BitVec.toNat h
    rw [BitVec.toNat_ofNat,BitVec.toNat_ofNat] at hnat
    omega
  · intro h
    rw [h]

theorem onFin_closing {s t : TcpStreamSession} {pkt : TcpPacket} {res res' : TcpAssemblyResult}
    (hfin : pkt.has thFin = true) (h : s.onFin pkt res = (some t,res')) : t.state = .closing := by
  simp only [onFin,hfin,if_true] at h
  split_ifs at h
  · cases h
  · cases h
    rfl

end TcpStreamSession

namespace TcpAssemblerEngine

open TcpStreamSession

section Teardown

variable (e : TcpAssemblerEngine) (c : PacketCall) (s : TcpStreamSession)

/-- The session once the data of the packet has been processed, before its FIN is looked at. -/
def afterData : Option TcpStreamSession :=
  if c.packet.has thSyn ∨ c.packet.payload.length = 0 then some (s.awake c.nowNs)
  else match received c s with
    | .outOfWindow => some (s.awake c.nowNs)
    | .duplicate => some (s.awake c.nowNs)
    | .conflict => none
    | .accepted t _ => some t

/-- The call leaves the session of its key open, with the `rcv_nxt` and the ring of `s`. -/
def InPlace : Prop :=
  ∃ u res p t, e.processPacket c = .ok (u,res) ∧ u.sessions.Stored c.packet.key p ∧
    u.heap.mem p = some t ∧ t.state = .established ∧ t.rcvNxt = s.rcvNxt ∧ t.ring = s.ring

/-- An RST away from `rcv_nxt` leaves the session in place, and so does a FIN away from the
`rcv_nxt` that the data of its packet leads to. -/
structure InSequence : Prop where
  rst : c.packet.has thRst = true → c.packet.seq ≠ s.rcvNxt → InPlace e c s
  fin : c.packet.has thRst = false → c.packet.has thFin = true →
    ∀ t, afterData c s = some t →
      c.packet.seq + BitVec.ofNat 32 c.packet.payload.length ≠ t.rcvNxt → InPlace e c t

/-- A FIN at `rcv_nxt`, or one whose data is not accepted or leads exactly to it. -/
def FinReached : Prop :=
  if c.packet.payload.length = 0 then c.packet.seq = s.rcvNxt
  else s.inWindow c.packet.seq c.packet.payload = true →
    (s.slowPath c.packet.seq c.packet.payload = true ∧
      (s.initBuffers c.garbage).overlapConflict (segment c s).1 (segment c s).2 = true) ∨
    ((segment c s).1 = s.rcvNxt ∧
      (s.fastPath c.packet.seq c.packet.payload = true ∨ s.bit (segment c s).2.length = false))

variable {e c s}

/-- What a call leaves in place is decided by `onPacket`. -/
theorem inPlace_iff {I : TcpKey → TcpStreamSession → Prop} {v : TcpStreamSession}
    (hwf : EngineWf I e) (hmeet : e.Meets c s) (hopen : ¬ e.Refused c) :
    InPlace e c v ↔ ∃ t res, s.onPacket c.packet c.nowNs c.garbage = (some t,res) ∧
      t.state = .established ∧ t.rcvNxt = v.rcvNxt ∧ t.ring = v.ring := by
  constructor
  · intro h
    obtain ⟨u,res,p,t,hp,hst,hmem,hplace⟩ := h
    cases hon : s.onPacket c.packet c.nowNs c.garbage with
    | mk fate r =>
      cases fate with
      | none =>
        obtain ⟨u',hp',hgone⟩ := hmeet.removed hwf hopen hon
        rw [hp] at hp'
        cases hp'
        exact absurd hst (hgone p)
      | some t' =>
        obtain ⟨u',q,hp',_,hmem',honly⟩ := hmeet.kept hwf hopen hon
        rw [hp] at hp'
        cases hp'
        rw [honly p hst,hmem'] at hmem
        cases hmem
        exact ⟨t,r,rfl,hplace⟩
  · intro h
    obtain ⟨t,res,hon,hplace⟩ := h
    obtain ⟨u,p,hp,hst,hmem,_⟩ := hmeet.kept hwf hopen hon
    exact ⟨u,_,p,t,hp,hst,hmem,hplace⟩

/-- No FIN that is looked at leaves the session in place. -/
theorem not_inPlace_onFin {I : TcpKey → TcpStreamSession → Prop} {t v : TcpStreamSession}
    {res : TcpAssemblyResult} (hwf : EngineWf I e) (hmeet : e.Meets c s)
    (hopen : ¬ e.Refused c) (hfin : c.packet.has thFin = true)
    (hon : s.onPacket c.packet c.nowNs c.garbage = t.onFin c.packet res) : ¬ InPlace e c v := by
  rw [inPlace_iff hwf hmeet hopen,hon]
  intro h
  obtain ⟨t',res',ht,hstate,_⟩ := h
  rw [onFin_closing hfin ht] at hstate
  cases hstate

/-- The position after the segment is the new `rcv_nxt` exactly when the segment starts at
the old one and nothing behind it is drained. -/
theorem accepted_end_iff {t : TcpStreamSession} {ready : Option (List UInt8)}
    (hpos : 0 < c.packet.payload.length)
    (hin : s.inWindow c.packet.seq c.packet.payload = true)
    (hacc : received c s = .accepted t ready) :
    c.packet.seq + BitVec.ofNat 32 c.packet.payload.length = t.rcvNxt ↔
      (segment c s).1 = s.rcvNxt ∧ (s.fastPath c.packet.seq c.packet.payload = true ∨
        s.bit (segment c s).2.length = false) := by
  have hlen := c.packet.payload_lt
  obtain ⟨off,k,hp⟩ := s.inWindow_placed c.packet.seq c.packet.payload hpos hlen hin
  have hp' : (s.awake c.nowNs).Placed c.packet.seq c.packet.payload off k :=
    ⟨hp.trim,hp.behind,hp.fits,hp.seq_eq,hp.cut⟩
  have hdrop : (c.packet.payload.drop k).length + k = c.packet.payload.length := by
    have := hp.behind
    rw [List.length_drop]
    omega
  have hend : c.packet.seq + BitVec.ofNat 32 c.packet.payload.length =
      s.rcvNxt + BitVec.ofNat 32 (off + (c.packet.payload.drop k).length) := by
    rw [← hdrop,Nat.add_comm _ k,BitVec.ofNat_add,BitVec.ofNat_add,← BitVec.add_assoc,
      ← BitVec.add_assoc,hp.seq_eq]
  have hseg : segment c s = (s.rcvNxt + BitVec.ofNat 32 off,c.packet.payload.drop k) := hp.trim
  have hoff := hp.off_lt
  have hnonempty := hp.nonempty
  have hfits := hp.fits
  rw [received,receiveData_placed hp' hin] at hacc
  rw [hend,hseg,add_eq_self _ hoff.le,hp.fastPath_iff hin]
  split_ifs at hacc with hfast hahead
  · obtain ⟨hzero,hcount⟩ := hfast
    subst hzero
    have hcount' : s.outOfOrderCount = 0#16 := hcount
    cases hacc
    simp [hcount',awake]
  · have hnxt : t.rcvNxt = s.rcvNxt := by
      rcases bufferSegment_cases (s.awake c.nowNs) ((s.awake c.nowNs).initBuffers c.garbage)
        ((s.awake c.nowNs).rcvNxt + BitVec.ofNat 32 off) (c.packet.payload.drop k) with
        ⟨_,hc⟩ | ⟨_,hc⟩
      · rw [hc] at hacc
        cases hacc
      · rw [hc] at hacc
        cases hacc
        rfl
    rw [hnxt,add_eq_self _ hfits]
    constructor
    · intro hzero
      omega
    · intro hzero
      omega
  · have hzero : off = 0 := by omega
    subst hzero
    have hcount : s.outOfOrderCount ≠ 0#16 := fun hc => hfast ⟨rfl,hc⟩
    have hlt : (c.packet.payload.drop k).length < tcpWindowSize := by
      unfold tcpWindowSize
      omega
    rcases (s.awake c.nowNs).fillGap_cases ((s.awake c.nowNs).initBuffers c.garbage)
      (c.packet.payload.drop k) hnonempty hlt.le with ⟨_,hc⟩ | ⟨_,n,t',bytes,hc,hd⟩
    · rw [hc] at hacc
      cases hacc
    · rw [hc] at hacc
      cases hacc
      have hiff : n = (c.packet.payload.drop k).length ↔
          s.bit (c.packet.payload.drop k).length = false := hd.eq_front_iff hlt
      have hnxt : t.rcvNxt = s.rcvNxt + BitVec.ofNat 32 n := hd.rcvNxt
      rw [hnxt,BitVec.add_right_inj,Nat.zero_add,ofNat_inj_window hlt.le hd.le,eq_comm,hiff]
      simp [hcount]

/-- A segment is outside the window, torn down by the overlap check, or accepted. -/
theorem received_cases (hpos : 0 < c.packet.payload.length) :
    (s.inWindow c.packet.seq c.packet.payload = false ∧
      (received c s = .outOfWindow ∨ received c s = .duplicate)) ∨
    (s.slowPath c.packet.seq c.packet.payload = true ∧
      (s.initBuffers c.garbage).overlapConflict (segment c s).1 (segment c s).2 = true ∧
      received c s = .conflict) ∨
    (s.inWindow c.packet.seq c.packet.payload = true ∧
      ¬ (s.slowPath c.packet.seq c.packet.payload = true ∧
        (s.initBuffers c.garbage).overlapConflict (segment c s).1 (segment c s).2 = true) ∧
      ∃ t ready, received c s = .accepted t ready) := by
  cases hin : s.inWindow c.packet.seq c.packet.payload with
  | false => exact Or.inl ⟨rfl,receiveData_outside (s := s.awake c.nowNs) hin c.garbage⟩
  | true =>
    right
    cases hfast : s.fastPath c.packet.seq c.packet.payload with
    | true =>
      right
      refine ⟨rfl,by simp [slowPath,hfast],?_⟩
      have hin' : (s.awake c.nowNs).inWindow c.packet.seq c.packet.payload = true := hin
      have hfast' : (s.awake c.nowNs).fastPath c.packet.seq c.packet.payload = true := hfast
      obtain ⟨off,k,hp⟩ := inWindow_placed _ _ _ hpos c.packet.payload_lt hin'
      rw [received,receiveData_placed hp hin',if_pos ((hp.fastPath_iff hin').mp hfast')]
      exact ⟨_,_,rfl⟩
    | false =>
      have hslow : s.slowPath c.packet.seq c.packet.payload = true := by
        simp [slowPath,hin,hfast]
      rcases (received_slow hpos hslow).2 with ⟨hyes,hc⟩ | ⟨hno,t,ready,hc,_⟩
      · exact Or.inl ⟨hslow,hyes,hc⟩
      · exact Or.inr ⟨rfl,by simp [hno],t,ready,hc⟩

theorem inPlace_self {I : TcpKey → TcpStreamSession → Prop} {res : TcpAssemblyResult}
    (hwf : EngineWf I e) (hmeet : e.Meets c s) (hopen : ¬ e.Refused c)
    (hstate : s.state = .established)
    (hon : s.onPacket c.packet c.nowNs c.garbage = (some { s with lastSeenNs := c.nowNs },res)) :
    InPlace e c s :=
  (inPlace_iff hwf hmeet hopen).mpr ⟨_,res,hon,hstate,rfl,rfl⟩

/-- An RST leaves the session in place exactly when the flood guard turns it away. -/
theorem inPlace_rst_iff {I : TcpKey → TcpStreamSession → Prop} (hwf : EngineWf I e)
    (hmeet : e.Meets c s) (hstate : s.state = .established) (hrst : c.packet.has thRst = true) :
    InPlace e c s ↔ e.Refused c := by
  constructor
  · intro h
    by_contra hopen
    obtain ⟨t,res,hon,_⟩ := (inPlace_iff hwf hmeet hopen).mp h
    simp only [onPacket,hrst,if_true] at hon
    cases hon
  · intro h
    obtain ⟨u,p,hp,hst,hmem⟩ := hmeet.refused hwf h
    exact ⟨u,_,p,s,hp,hst,hmem,hstate,rfl,rfl⟩

/-- A SYN never touches a session that exists. -/
theorem inPlace_syn {I : TcpKey → TcpStreamSession → Prop} (hwf : EngineWf I e)
    (hmeet : e.Meets c s) (hstate : s.state = .established)
    (hrst : c.packet.has thRst = false) (hsyn : c.packet.has thSyn = true) : InPlace e c s := by
  by_cases hopen : e.Refused c
  · obtain ⟨u,p,hp,hst,hmem⟩ := hmeet.refused hwf hopen
    exact ⟨u,_,p,s,hp,hst,hmem,hstate,rfl,rfl⟩
  · apply inPlace_self hwf hmeet hopen hstate
    simp only [onPacket,hrst,hsyn,if_true,if_false,Bool.false_eq_true]
    rfl

theorem fin_inPlace_iff {I : TcpKey → TcpStreamSession → Prop} (hwf : EngineWf I e)
    (hmeet : e.Meets c s) (hstate : s.state = .established)
    (hrst : c.packet.has thRst = false) (hsyn : c.packet.has thSyn = false)
    (hfin : c.packet.has thFin = true) :
    (∀ t, afterData c s = some t →
      c.packet.seq + BitVec.ofNat 32 c.packet.payload.length ≠ t.rcvNxt → InPlace e c t) ↔
      FinReached c s := by
  have htake : s.takesData c.packet = true := by simp [takesData,hstate,hrst,hsyn]
  have hopen : ¬ e.Refused c := not_refused hsyn
  have hon := onPacket_takesData c.nowNs c.garbage htake
  by_cases hempty : c.packet.payload.length = 0
  · have hpos : ¬ c.packet.payload.length > 0 := by omega
    rw [onEstablished,if_neg hpos] at hon
    simp only [afterData,FinReached,hempty,or_true,if_true,Option.some.injEq,forall_eq',
      BitVec.add_zero]
    constructor
    · intro h
      by_contra hne
      exact not_inPlace_onFin hwf hmeet hopen hfin hon (h hne)
    · intro h hne
      exact absurd h hne
  · have hpos : 0 < c.packet.payload.length := by omega
    rw [onEstablished,if_pos hpos,← received] at hon
    have hafter : afterData c s = match received c s with
        | .outOfWindow => some (s.awake c.nowNs)
        | .duplicate => some (s.awake c.nowNs)
        | .conflict => none
        | .accepted t _ => some t := if_neg (by simp [hsyn,hempty])
    simp only [FinReached,hafter,hempty,if_false]
    rcases received_cases hpos with ⟨hin,hr⟩ | ⟨hslow,hyes,hr⟩ | ⟨hin,hpass,t,ready,hr⟩
    · have hself : InPlace e c (s.awake c.nowNs) := by
        apply (inPlace_iff hwf hmeet hopen).mpr
        rcases hr with hr | hr
        · exact ⟨_,_,by rw [hon,hr],rfl,rfl,rfl⟩
        · exact ⟨_,_,by rw [hon,hr],rfl,rfl,rfl⟩
      rcases hr with hr | hr
      · simpa [hr,hin] using fun _ => hself
      · simpa [hr,hin] using fun _ => hself
    · simp [hr,hslow,hyes]
    · rw [hr] at hon
      rw [← accepted_end_iff hpos hin hr]
      simp only [hr,Option.some.injEq,forall_eq',hin,hpass,false_or,true_implies]
      constructor
      · intro h
        by_contra hne
        exact not_inPlace_onFin hwf hmeet hopen hfin hon (h hne)
      · intro h hne
        exact absurd h hne

end Teardown

/-- For every packet that meets a reachable established session: an RST or a FIN takes effect
only in sequence if and only if an RST carries `rcv_nxt` as its sequence number or is turned
away by the flood guard, and a FIN is reached by the data of its packet. -/
theorem teardown_in_sequence_iff (e : TcpAssemblerEngine) (hreach : Reachable e) (c : PacketCall)
    (s : TcpStreamSession) (hmeet : e.Meets c s) (hstate : s.state = .established) :
    InSequence e c s ↔
      (c.packet.has thRst = true → c.packet.seq = s.rcvNxt ∨ e.Refused c) ∧
      (c.packet.has thRst = false → c.packet.has thSyn = false → c.packet.has thFin = true →
        FinReached c s) := by
  have hwf := hreach.engineWf
  constructor
  · intro h
    refine ⟨?_,?_⟩
    · intro hrst
      by_cases hseq : c.packet.seq = s.rcvNxt
      · exact Or.inl hseq
      · exact Or.inr ((inPlace_rst_iff hwf hmeet hstate hrst).mp (h.rst hrst hseq))
    · intro hrst hsyn hfin
      exact (fin_inPlace_iff hwf hmeet hstate hrst hsyn hfin).mp (h.fin hrst hfin)
  · intro h
    obtain ⟨hrstOk,hfinOk⟩ := h
    refine ⟨?_,?_⟩
    · intro hrst hseq
      exact (inPlace_rst_iff hwf hmeet hstate hrst).mpr ((hrstOk hrst).resolve_left hseq)
    · intro hrst hfin t ht hne
      cases hsyn : c.packet.has thSyn with
      | true =>
        simp only [afterData,hsyn,true_or,if_true,Option.some.injEq] at ht
        subst ht
        exact (inPlace_syn hwf hmeet hstate hrst hsyn : InPlace e c s)
      | false =>
        exact (fin_inPlace_iff hwf hmeet hstate hrst hsyn hfin).mpr (hfinOk hrst hsyn hfin) t ht
          hne

/-- A session that has received one byte. -/
def byteSession : TcpStreamSession :=
  sessionAfter sampleStart [byteCall thAck 1 5]

theorem byte_reachable : Reachable (sampleEngine byteSession) :=
  ⟨_,_,sample_run [byteCall thAck 1 5] (by decide) (by decide +kernel)⟩

/-- A FIN with one byte of data, in sequence. -/
def finCall : PacketCall := byteCall (thFin ||| thAck) 2 6

theorem teardown_in_sequence_fin : InSequence (sampleEngine byteSession) finCall byteSession := by
  apply (teardown_in_sequence_iff (sampleEngine byteSession) byte_reachable finCall byteSession
    ((sampleEngine_meets rfl rfl).mpr rfl) (by decide +kernel)).mpr
  refine ⟨?_,?_⟩
  · intro hrst
    cases hrst
  · intro _ _ _ _
    exact Or.inr (by decide +kernel)

/-- An RST far from `rcv_nxt`. -/
def strayRst : PacketCall := sampleCall thRst 1000000 [] nil_length_lt

/-- A stray RST removes an established session. -/
theorem removes_on_stray_rst :
    Reachable (sampleEngine byteSession) ∧
      (sampleEngine byteSession).Meets strayRst byteSession ∧
      byteSession.state = .established ∧ strayRst.packet.has thRst = true ∧
      strayRst.packet.seq ≠ byteSession.rcvNxt ∧
      ∃ u res, (sampleEngine byteSession).processPacket strayRst = .ok (u,res) ∧
        ∀ p, ¬ u.sessions.Stored strayRst.packet.key p := by
  have hmeet : (sampleEngine byteSession).Meets strayRst byteSession :=
    (sampleEngine_meets rfl rfl).mpr rfl
  have hon : byteSession.onPacket strayRst.packet strayRst.nowNs strayRst.garbage =
      (none,{ isClosed := true }) := rfl
  obtain ⟨u,hp,hgone⟩ := hmeet.removed byte_reachable.engineWf (not_refused (by decide)) hon
  exact ⟨byte_reachable,hmeet,by decide +kernel,by decide,by decide +kernel,u,_,hp,hgone⟩

end TcpAssemblerEngine

end Aethon
