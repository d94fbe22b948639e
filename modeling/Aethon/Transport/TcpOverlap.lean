import Aethon.Transport.TcpRun

/-!
# Overlapping segments

Both slow branches tear a session down when a segment contradicts what is already buffered.
The check asks for a mark anywhere in the segment's range and then compares the first 1500
ring bytes, marked or not. It is exact when the unmarked bytes it compares and the marked
bytes it leaves out balance.
-/

namespace Aethon

open Framework

namespace TcpRing

variable (r : TcpRing) (seq : BitVec 32) (data : List UInt8)

/-- A buffered byte of the segment's range differs from the segment. -/
def RealConflict : Prop :=
  ∃ i < data.length, r.bit seq.toNat i = true ∧ r.byte seq.toNat i ≠ data.getD i 0

instance : Decidable (r.RealConflict seq data) :=
  inferInstanceAs (Decidable (∃ i, i < data.length ∧ r.bit seq.toNat i = true ∧
    r.byte seq.toNat i ≠ data.getD i 0))

/-- If the range overlaps buffered bytes and those among the first 1500 agree with the segment,
then an unbuffered position among the first 1500 differs exactly when a buffered position
beyond them does. -/
def CheckDecides : Prop :=
  (∃ i < data.length, r.bit seq.toNat i = true) →
    (∀ i < min data.length 1500, r.bit seq.toNat i = true →
      r.byte seq.toNat i = data.getD i 0) →
    ((∃ i < min data.length 1500, r.bit seq.toNat i = false ∧
        r.byte seq.toNat i ≠ data.getD i 0) ↔
      ∃ i < data.length, 1500 ≤ i ∧ r.bit seq.toNat i = true ∧
        r.byte seq.toNat i ≠ data.getD i 0)

variable {r seq data}

theorem overlapConflict_front (hfit : data.length ≤ tcpWindowSize) :
    r.overlapConflict seq data = true ↔
      (∃ i < data.length, r.bit seq.toNat i = true) ∧
        ∃ i < min data.length 1500, r.byte seq.toNat i ≠ data.getD i 0 := by
  have h := r.overlapConflict_iff seq 0 data (by omega)
  rw [BitVec.add_zero] at h
  simpa only [Nat.zero_add] using h

/-- A real conflict lies among the first 1500 positions or beyond them. -/
theorem realConflict_split :
    r.RealConflict seq data ↔
      (∃ i < min data.length 1500, r.bit seq.toNat i = true ∧
        r.byte seq.toNat i ≠ data.getD i 0) ∨
      ∃ i < data.length, 1500 ≤ i ∧ r.bit seq.toNat i = true ∧
        r.byte seq.toNat i ≠ data.getD i 0 := by
  constructor
  · intro h
    obtain ⟨i,hi,hb,hne⟩ := h
    by_cases hlow : i < 1500
    · exact Or.inl ⟨i,by omega,hb,hne⟩
    · exact Or.inr ⟨i,hi,by omega,hb,hne⟩
  · intro h
    rcases h with ⟨i,hi,hb,hne⟩ | ⟨i,hi,_,hb,hne⟩
    · exact ⟨i,by omega,hb,hne⟩
    · exact ⟨i,hi,hb,hne⟩

theorem overlapConflict_exact_iff (hfit : data.length ≤ tcpWindowSize) :
    (r.overlapConflict seq data = true ↔ r.RealConflict seq data) ↔
      r.CheckDecides seq data := by
  rw [overlapConflict_front hfit,realConflict_split]
  constructor
  · intro hexact hmark hagree
    have hlow : ¬ ∃ i < min data.length 1500, r.bit seq.toNat i = true ∧
        r.byte seq.toNat i ≠ data.getD i 0 := by
      intro h
      obtain ⟨i,hi,hb,hne⟩ := h
      exact hne (hagree i hi hb)
    constructor
    · intro h
      obtain ⟨i,hi,_,hne⟩ := h
      exact (hexact.mp ⟨hmark,i,hi,hne⟩).resolve_left hlow
    · intro h
      obtain ⟨_,i,hi,hne⟩ := hexact.mpr (Or.inr h)
      refine ⟨i,hi,?_,hne⟩
      by_contra hb
      exact hne (hagree i hi (by simpa using hb))
  · intro hcheck
    constructor
    · intro h
      obtain ⟨hmark,i,hi,hne⟩ := h
      by_cases hlow : ∃ i < min data.length 1500, r.bit seq.toNat i = true ∧
          r.byte seq.toNat i ≠ data.getD i 0
      · exact Or.inl hlow
      · right
        apply (hcheck hmark ?_).mp
        · refine ⟨i,hi,?_,hne⟩
          by_contra hb
          exact hlow ⟨i,hi,by simpa using hb,hne⟩
        · intro j hj hb
          by_contra hc
          exact hlow ⟨j,hj,hb,hc⟩
    · intro h
      by_cases hlow : ∃ i < min data.length 1500, r.bit seq.toNat i = true ∧
          r.byte seq.toNat i ≠ data.getD i 0
      · obtain ⟨i,hi,hb,hne⟩ := hlow
        exact ⟨⟨i,by omega,hb⟩,i,hi,hne⟩
      · have hhigh := h.resolve_left hlow
        have hmark : ∃ i < data.length, r.bit seq.toNat i = true := by
          obtain ⟨i,hi,_,hb,_⟩ := hhigh
          exact ⟨i,hi,hb⟩
        obtain ⟨i,hi,_,hne⟩ := (hcheck hmark (by
          intro j hj hb
          by_contra hc
          exact hlow ⟨j,hj,hb,hc⟩)).mpr hhigh
        exact ⟨hmark,i,hi,hne⟩

end TcpRing

namespace TcpStreamSession

/-- The segment lies in the window and does not take the fast path. -/
def slowPath (s : TcpStreamSession) (seq : BitVec 32) (payload : List UInt8) : Bool :=
  s.inWindow seq payload && !s.fastPath seq payload

/-- An accepted segment is in the ring, or at the front of the bytes handed out. -/
def Keeps (s t : TcpStreamSession) (seq : BitVec 32) (data : List UInt8) :
    Option (List UInt8) → Prop
  | none => t.rcvNxt = s.rcvNxt ∧ ∃ r, t.ring = some r ∧
      ∀ i < data.length, r.bit seq.toNat i = true ∧ r.byte seq.toNat i = data.getD i 0
  | some bytes => data <+: bytes ∧ t.rcvNxt = s.rcvNxt + BitVec.ofNat 32 bytes.length

/-- Both slow branches run the overlap check and keep the segment when it passes. -/
theorem receiveData_slow {s : TcpStreamSession} {seq : BitVec 32} {payload : List UInt8}
    (hpos : 0 < payload.length) (hlen : payload.length < 65536) (garbage : Nat → UInt8)
    (hslow : s.slowPath seq payload = true) :
    (s.trim seq payload).2.length ≤ tcpWindowSize ∧
    (((s.initBuffers garbage).overlapConflict (s.trim seq payload).1 (s.trim seq payload).2 =
        true ∧ s.receiveData seq payload garbage = .conflict) ∨
      ((s.initBuffers garbage).overlapConflict (s.trim seq payload).1 (s.trim seq payload).2 =
        false ∧ ∃ t ready, s.receiveData seq payload garbage = .accepted t ready ∧
        s.Keeps t (s.trim seq payload).1 (s.trim seq payload).2 ready ∧ t.state = s.state)) := by
  simp only [slowPath,Bool.and_eq_true,Bool.not_eq_true'] at hslow
  obtain ⟨hin,hnot⟩ := hslow
  obtain ⟨off,k,hp⟩ := s.inWindow_placed seq payload hpos hlen hin
  have hfast : ¬ (off = 0 ∧ s.outOfOrderCount = 0#16) := by
    intro h
    rw [(hp.fastPath_iff hin).mpr h] at hnot
    cases hnot
  have hfit := hp.fits
  have hle : (payload.drop k).length ≤ tcpWindowSize := by omega
  simp only [hp.trim,receiveData_placed hp hin garbage,hfast,if_false]
  refine ⟨hle,?_⟩
  split_ifs with hahead
  · rcases bufferSegment_cases s (s.initBuffers garbage) (s.rcvNxt + BitVec.ofNat 32 off)
      (payload.drop k) with h | ⟨hno,hc⟩
    · exact Or.inl h
    · refine Or.inr ⟨hno,_,_,hc,⟨rfl,_,rfl,?_⟩,rfl⟩
      intro i hi
      rw [TcpRing.store_bit_front _ _ _ hle i (by omega),
        TcpRing.store_byte_front _ _ _ hle i (by omega),decide_eq_true hi,if_pos hi]
      exact ⟨Bool.or_true _,rfl⟩
  · have hzero : off = 0 := by omega
    subst hzero
    rw [BitVec.add_zero]
    rcases s.fillGap_cases (s.initBuffers garbage) (payload.drop k) hp.nonempty hle with
      h | ⟨hno,n,t,bytes,hc,hd⟩
    · exact Or.inl h
    · refine Or.inr ⟨hno,_,_,hc,⟨hd.front_prefix hle,?_⟩,hd.state⟩
      have hbytes : bytes.length = n := by simp [hd.bytes]
      rw [hbytes]
      exact hd.rcvNxt

end TcpStreamSession

namespace TcpAssemblerEngine

open TcpStreamSession

section Exact

variable (c : PacketCall) (s : TcpStreamSession)

/-- What the data part of the call makes of the segment. -/
def received : DataOutcome :=
  (s.awake c.nowNs).receiveData c.packet.seq c.packet.payload c.garbage

/-- The first sequence number of the segment from `rcv_nxt` on, and its bytes there. -/
def segment : BitVec 32 × List UInt8 := s.trim c.packet.seq c.packet.payload

/-- A byte of the segment differs from a buffered byte at its position. -/
def Contradicts : Prop :=
  (s.initBuffers c.garbage).RealConflict (segment c s).1 (segment c s).2

/-- The overlap check of the call is exact for the session `s`: it tears the session down
exactly when the segment contradicts what is buffered, and any other segment is stored in a
session that stays open. -/
structure OverlapExact (e : TcpAssemblerEngine) : Prop where
  conflict_iff : received c s = .conflict ↔ Contradicts c s
  torn : Contradicts c s →
    ∃ u, e.processPacket c = .ok (u,portsOf c.packet { isClosed := true } none) ∧
      ∀ p, ¬ u.sessions.Stored c.packet.key p
  kept : ¬ Contradicts c s → ∃ t ready, received c s = .accepted t ready ∧
    s.Keeps t (segment c s).1 (segment c s).2 ready ∧
    (c.packet.has thFin = false → t.state = .established ∧
      ∃ u p res, e.processPacket c = .ok (u,portsOf c.packet res (some p)) ∧
        res.isClosed = false ∧ u.sessions.Stored c.packet.key p ∧ u.heap.mem p = some t)

variable {c s}

theorem received_slow (hpos : 0 < c.packet.payload.length)
    (hslow : s.slowPath c.packet.seq c.packet.payload = true) :
    (segment c s).2.length ≤ tcpWindowSize ∧
      (((s.initBuffers c.garbage).overlapConflict (segment c s).1 (segment c s).2 = true ∧
          received c s = .conflict) ∨
        ((s.initBuffers c.garbage).overlapConflict (segment c s).1 (segment c s).2 = false ∧
          ∃ t ready, received c s = .accepted t ready ∧
            s.Keeps t (segment c s).1 (segment c s).2 ready ∧ t.state = .established)) :=
  receiveData_slow (s := s.awake c.nowNs) hpos c.packet.payload_lt c.garbage hslow

theorem received_conflict_iff (hpos : 0 < c.packet.payload.length)
    (hslow : s.slowPath c.packet.seq c.packet.payload = true) :
    received c s = .conflict ↔
      (s.initBuffers c.garbage).overlapConflict (segment c s).1 (segment c s).2 = true := by
  rcases (received_slow hpos hslow).2 with ⟨hyes,hc⟩ | ⟨hno,t,ready,hc,_⟩
  · exact ⟨fun _ => hyes,fun _ => hc⟩
  · rw [hc,hno]
    constructor
    · intro h
      cases h
    · intro h
      cases h

theorem onPacket_received (htake : s.takesData c.packet = true)
    (hpos : 0 < c.packet.payload.length) :
    (received c s = .conflict →
      s.onPacket c.packet c.nowNs c.garbage = (none,{ isClosed := true })) ∧
    ∀ t ready, received c s = .accepted t ready → c.packet.has thFin = false →
      s.onPacket c.packet c.nowNs c.garbage =
        (some t,{ isReady := ready.isSome, payload := ready.getD [] }) := by
  rw [onPacket_takesData c.nowNs c.garbage htake,onEstablished,if_pos hpos]
  constructor
  · intro hc
    rw [received] at hc
    rw [hc]
  · intro t ready hc hfin
    rw [received] at hc
    rw [hc]
    exact onFin_none _ hfin

end Exact

/-- For every segment that a reachable established session takes in a slow branch, the overlap
check is exact if and only if the unbuffered bytes it compares and the buffered bytes it leaves
out balance. -/
theorem overlap_exact_iff (e : TcpAssemblerEngine) (hreach : Reachable e) (c : PacketCall)
    (s : TcpStreamSession) (hmeet : e.Meets c s) (hstate : s.state = .established)
    (hrst : c.packet.has thRst = false) (hsyn : c.packet.has thSyn = false)
    (hpos : 0 < c.packet.payload.length)
    (hslow : s.slowPath c.packet.seq c.packet.payload = true) :
    OverlapExact c s e ↔
      (s.initBuffers c.garbage).CheckDecides (segment c s).1 (segment c s).2 := by
  have hwf := hreach.engineWf
  have htake : s.takesData c.packet = true := by
    simp [takesData,hstate,hrst,hsyn]
  obtain ⟨hfit,hcases⟩ := received_slow hpos hslow
  obtain ⟨hend,hstay⟩ := onPacket_received htake hpos
  rw [← TcpRing.overlapConflict_exact_iff hfit,← received_conflict_iff hpos hslow]
  constructor
  · intro hexact
    exact hexact.conflict_iff
  · intro hiff
    refine ⟨hiff,?_,?_⟩
    · intro hreal
      exact hmeet.removed hwf (not_refused hsyn) (hend (hiff.mpr hreal))
    · intro hnone
      rcases hcases with ⟨_,hc⟩ | ⟨_,t,ready,hc,hkeeps,ht⟩
      · exact absurd (hiff.mp hc) hnone
      · refine ⟨t,ready,hc,hkeeps,?_⟩
        intro hfin
        obtain ⟨u,p,hp,hst,hmem,_⟩ := hmeet.kept hwf (not_refused hsyn) (hstay t ready hc hfin)
        exact ⟨ht,u,p,_,hp,rfl,hst,hmem⟩

/-- Two bytes ahead of the stream. -/
def aheadCalls : List PacketCall := [sampleCall thAck 11 [7,7] (by decide)]

def aheadSession : TcpStreamSession := sessionAfter sampleStart aheadCalls

theorem ahead_reachable : Reachable (sampleEngine aheadSession) :=
  ⟨_,_,sample_run aheadCalls (by decide) (by decide +kernel)⟩

/-- The same bytes again, with one more behind them. -/
def repeatCall : PacketCall := sampleCall thAck 11 [7,7,0] (by decide)

theorem overlap_exact_repeat : OverlapExact repeatCall aheadSession (sampleEngine aheadSession) := by
  apply (overlap_exact_iff (sampleEngine aheadSession) ahead_reachable repeatCall aheadSession
    ((sampleEngine_meets rfl rfl).mpr rfl) (by decide +kernel) (by decide) (by decide) (by decide)
    (by decide +kernel)).mpr
  intro _ _
  decide +kernel

/-- The same bytes again, with one more in front of them. -/
def frontCall : PacketCall := sampleCall thAck 10 [9,7,7] (by decide)

/-- The segment of `frontCall` agrees with every buffered byte, but it also covers a position
that was never received, and the session is torn down. -/
theorem tears_down_agreeing_segment :
    Reachable (sampleEngine aheadSession) ∧ (sampleEngine aheadSession).Meets frontCall
        aheadSession ∧ aheadSession.state = .established ∧ frontCall.packet.flags = thAck ∧
      aheadSession.slowPath frontCall.packet.seq frontCall.packet.payload = true ∧
      ¬ Contradicts frontCall aheadSession ∧
      ∃ u res, (sampleEngine aheadSession).processPacket frontCall = .ok (u,res) ∧
        res.isClosed = true ∧ ∀ p, ¬ u.sessions.Stored frontCall.packet.key p := by
  have hmeet : (sampleEngine aheadSession).Meets frontCall aheadSession :=
    (sampleEngine_meets rfl rfl).mpr rfl
  have hslow : aheadSession.slowPath frontCall.packet.seq frontCall.packet.payload = true := by
    decide +kernel
  have hon := (onPacket_received (c := frontCall) (s := aheadSession) (by decide +kernel)
    (by decide)).1 ((received_conflict_iff (by decide) hslow).mpr (by decide +kernel))
  obtain ⟨u,hp,hgone⟩ := hmeet.removed ahead_reachable.engineWf (not_refused (by decide)) hon
  refine ⟨ahead_reachable,hmeet,by decide +kernel,rfl,hslow,?_,u,_,hp,rfl,hgone⟩
  unfold Contradicts
  decide +kernel

end TcpAssemblerEngine

end Aethon
