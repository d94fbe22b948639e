import Aethon.Transport.TcpLifetime

/-!
# Bytes within a window

A client that keeps to a window never sends a byte at or beyond its edge. Then every marked
position of the ring lies before the edge and so do the bytes that come out, as long as the fast
path does not pass over marks, which come round again beyond the edge.
-/

namespace Aethon

open Framework

namespace TcpStreamSession

variable {s t : TcpStreamSession} {seq : BitVec 32} {payload : List UInt8}
  {garbage : Nat → UInt8}

/-- Every marked position lies less than `ahead` after `rcv_nxt`. -/
def MarkedBelow (s : TcpStreamSession) (ahead : Int) : Prop :=
  ∀ i < tcpWindowSize, s.bit i = true → (i : Int) < ahead

/-- Where a segment ends, counted from `rcv_nxt`. -/
def endOffset (s : TcpStreamSession) (seq : BitVec 32) (payload : List UInt8) : Int :=
  (seq - s.rcvNxt).toInt + payload.length

theorem sub_toInt_ahead (a : BitVec 32) {n : Nat} (h : n ≤ tcpWindowSize) :
    (a + BitVec.ofNat 32 n - a).toInt = n := by
  unfold tcpWindowSize at h
  rw [BitVec.toInt_eq_toNat_cond,BitVec.toNat_sub,BitVec.toNat_add,BitVec.toNat_ofNat]
  have := a.isLt
  split_ifs <;> omega

theorem sub_toInt_behind (a : BitVec 32) {n : Nat} (h : n ≤ tcpWindowSize) :
    (a - (a + BitVec.ofNat 32 n)).toInt = -n := by
  unfold tcpWindowSize at h
  rw [BitVec.toInt_eq_toNat_cond,BitVec.toNat_sub,BitVec.toNat_add,BitVec.toNat_ofNat]
  have := a.isLt
  split_ifs <;> omega

/-- The end of a segment in window coordinates. -/
theorem Placed.endOffset {off k : Nat} (h : s.Placed seq payload off k)
    (hlen : payload.length < 65536) :
    s.endOffset seq payload = off + (payload.drop k).length := by
  have hbehind := h.behind
  have hseq := h.seq_eq
  have hdiff : (seq - s.rcvNxt).toInt = off - k := by
    rcases h.cut with rfl | rfl
    · rw [BitVec.add_zero] at hseq
      rw [← hseq,sub_toInt_behind _ (by unfold tcpWindowSize; omega)]
      omega
    · rw [BitVec.add_zero] at hseq
      rw [hseq,sub_toInt_ahead _ h.off_lt.le]
      omega
  rw [TcpStreamSession.endOffset,hdiff,List.length_drop]
  omega

section Outcomes

variable {ahead : Int} {off k n : Nat} (hmarks : s.MarkedBelow ahead)
include hmarks

theorem MarkedBelow.deliver (hclear : ∀ i < n, s.bit i = false)
    (hring : t.ring = s.ring) (hnxt : t.rcvNxt = s.rcvNxt + BitVec.ofNat 32 n) :
    t.MarkedBelow (ahead - n) := by
  intro i hi hbit
  rw [bit_advance hring hnxt] at hbit
  by_cases hin : n + i < tcpWindowSize
  · have hbelow := hmarks (n + i) hin hbit
    push_cast at hbelow
    omega
  · have hwrap : n + i = n + i - tcpWindowSize + tcpWindowSize := by omega
    rw [hwrap,s.bit_wrap,hclear _ (by omega)] at hbit
    cases hbit

theorem MarkedBelow.store {data : List UInt8} (hoff : off < tcpWindowSize)
    (hfit : off + data.length ≤ tcpWindowSize) (hend : (off + data.length : Int) ≤ ahead)
    (garbage : Nat → UInt8) (i : Nat) (hi : i < tcpWindowSize)
    (hbit : ((s.initBuffers garbage).store (s.rcvNxt + BitVec.ofNat 32 off) data).bit
      s.rcvNxt.toNat i = true) : (i : Int) < ahead := by
  rw [TcpRing.store_bit _ _ _ _ hoff hfit i hi,initBuffers_bit,Bool.or_eq_true] at hbit
  rcases hbit with hold | hnew
  · exact hmarks i hi hold
  · have hrange := of_decide_eq_true hnew
    omega

omit hmarks in
theorem MarkedBelow.drain {r : TcpRing} {bytes : List UInt8} (hd : s.Drained r n t bytes)
    (hring : ∀ i < tcpWindowSize, r.bit s.rcvNxt.toNat i = true → (i : Int) < ahead) :
    (n : Int) ≤ ahead ∧ t.MarkedBelow (ahead - n) := by
  have hpos := hd.pos
  have hle := hd.le
  constructor
  · have hlast := hring (n - 1) (by omega) (hd.run (n - 1) (by omega))
    omega
  · intro i hi hbit
    rw [hd.bit hi,Bool.and_eq_true,decide_eq_true_eq] at hbit
    have hbelow := hring (n + i) hbit.1 hbit.2
    push_cast at hbelow
    omega

end Outcomes

/-- What comes out when a segment is accepted ends before the edge, starts with the new bytes of
the segment, and leaves no mark beyond the edge. -/
theorem receiveData_below {ahead : Int} {ready : Option (List UInt8)}
    (hmarks : s.MarkedBelow ahead) (hpos : 0 < payload.length) (hlen : payload.length < 65536)
    (hend : s.endOffset seq payload ≤ ahead)
    (hpass : s.fastPath seq payload = true → s.marksPassed seq payload = false)
    (h : s.receiveData seq payload garbage = .accepted t ready) :
    t.MarkedBelow (ahead - (ready.getD []).length) ∧
      ∀ bytes, ready = some bytes → (bytes.length : Int) ≤ ahead ∧
        (s.trim seq payload).1 = s.rcvNxt ∧
        bytes.head? = (s.trim seq payload).2.head? := by
  cases receiveData_accepted hpos hlen h with
  | delivered k hp hfast =>
    rw [hp.endOffset hlen] at hend
    rw [hp.trim]
    refine ⟨hmarks.deliver (marksPassed_eq_false hp (hpass hfast)) rfl rfl,?_⟩
    rintro bytes ⟨⟩
    exact ⟨by simpa using hend,by simp,rfl⟩
  | buffered off k hp _ =>
    rw [hp.endOffset hlen] at hend
    refine ⟨?_,by simp⟩
    intro i hi hbit
    rw [Option.getD_none,List.length_nil,Nat.cast_zero,sub_zero]
    exact hmarks.store hp.off_lt hp.fits hend garbage i hi hbit
  | drained k n _ bytes hp hd =>
    rw [hp.endOffset hlen] at hend
    rw [hp.trim]
    have hfits := hp.fits
    have hbytes : bytes.length = n := by simp [hd.bytes]
    have hring : ∀ i < tcpWindowSize, ((s.initBuffers garbage).store s.rcvNxt
        (payload.drop k)).bit s.rcvNxt.toNat i = true → (i : Int) < ahead := by
      intro i hi hbit
      have hoff : 0 < tcpWindowSize := by decide
      apply hmarks.store hoff hfits hend garbage i hi
      rwa [BitVec.add_zero]
    obtain ⟨hn,hbelow⟩ := MarkedBelow.drain hd hring
    refine ⟨by rwa [Option.getD_some,hbytes],?_⟩
    rintro _ ⟨⟩
    refine ⟨by rwa [hbytes],by simp,?_⟩
    obtain ⟨rest,hrest⟩ := hd.front_prefix (by omega)
    rw [← hrest,List.head?_append_of_ne_nil _ (List.ne_nil_of_length_pos hp.nonempty)]

theorem onFin_kept {pkt : TcpPacket} {r res : TcpAssemblyResult}
    (h : s.onFin pkt r = (some t,res)) :
    res.payload = r.payload ∧ (t.state ≠ .closing → t = s) := by
  unfold onFin at h
  split_ifs at h
  · cases h
  · cases h
    exact ⟨rfl,fun hne => absurd rfl hne⟩
  · cases h
    exact ⟨rfl,fun _ => rfl⟩

/-- The same for a packet that the session survives. -/
theorem onPacket_below {ahead : Int} {pkt : TcpPacket} {nowNs : BitVec 64}
    {res : TcpAssemblyResult} (hmarks : s.MarkedBelow ahead)
    (hend : s.takesData pkt = true → 0 < pkt.payload.length →
      s.endOffset pkt.seq pkt.payload ≤ ahead)
    (hpass : s.takesData pkt = true → s.fastPath pkt.seq pkt.payload = true →
      s.marksPassed pkt.seq pkt.payload = false)
    (h : s.onPacket pkt nowNs garbage = (some t,res)) :
    (t.state ≠ .closing → t.MarkedBelow (ahead - res.payload.length)) ∧
      (0 < res.payload.length → (res.payload.length : Int) ≤ ahead ∧
        s.takesData pkt = true ∧ (s.trim pkt.seq pkt.payload).1 = s.rcvNxt ∧
        res.payload.head? = (s.trim pkt.seq pkt.payload).2.head?) := by
  have hnone : ∀ nowNs state, MarkedBelow { s with lastSeenNs := nowNs, state := state }
      (ahead - ([] : List UInt8).length) := by
    intro nowNs state
    rw [List.length_nil,Nat.cast_zero,sub_zero]
    exact hmarks
  cases htakes : s.takesData pkt with
  | false =>
    rcases onPacket_other nowNs garbage htakes with ⟨_,hon⟩ | ⟨_,r,hon,_,hpayload,_⟩
    · rw [hon] at h
      cases h
    · rw [hon] at h
      cases h
      rw [hpayload]
      exact ⟨fun _ => hnone nowNs s.state,by simp⟩
  | true =>
    have hawake : (s.awake nowNs).MarkedBelow ahead := hmarks
    rw [onPacket_takesData nowNs garbage htakes] at h
    unfold onEstablished at h
    split_ifs at h with hpos
    · cases hr : (s.awake nowNs).receiveData pkt.seq pkt.payload garbage with
      | outOfWindow =>
        rw [hr] at h
        cases h
        exact ⟨fun _ => hnone nowNs .established,by simp⟩
      | duplicate =>
        rw [hr] at h
        cases h
        exact ⟨fun _ => hnone nowNs .established,by simp⟩
      | conflict =>
        rw [hr] at h
        cases h
      | accepted v ready =>
        rw [hr] at h
        obtain ⟨hbelow,hready⟩ := receiveData_below hawake hpos pkt.payload_lt
          (hend htakes hpos) (hpass htakes) hr
        obtain ⟨hpayload,hsame⟩ := onFin_kept h
        rw [hpayload]
        constructor
        · intro hopen
          rw [hsame hopen]
          exact hbelow
        · intro hbytes
          cases ready with
          | none => simp at hbytes
          | some bytes =>
            obtain ⟨hle,hplace,hhead⟩ := hready bytes rfl
            exact ⟨hle,rfl,hplace,hhead⟩
    · obtain ⟨hpayload,hsame⟩ := onFin_kept h
      rw [hpayload]
      constructor
      · intro hopen
        rw [hsame hopen]
        exact hnone nowNs .established
      · simp

end TcpStreamSession

end Aethon
