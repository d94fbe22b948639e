import Aethon.Transport.TcpData

/-!
# What a session buffers and delivers

Two invariants of one session. Every marked byte of the ring is a byte of the client's
stream, so what is drained continues what was delivered; and the byte at `rcv_nxt` is not
marked, so nothing deliverable stays behind. Both hold as long as the fast path, which leaves
the ring alone, never passes over a mark that matters.
-/

namespace Aethon

open Framework

namespace TcpStreamSession

/-- The packet reaches the data part of `process_packet`. -/
def takesData (s : TcpStreamSession) (pkt : TcpPacket) : Bool :=
  !pkt.has thRst && !pkt.has thSyn &&
    (s.state = .established || s.state = .synSent && pkt.has thAck)

/-- The session as the data part of `process_packet` meets it. -/
def awake (s : TcpStreamSession) (nowNs : BitVec 64) : TcpStreamSession :=
  { s with lastSeenNs := nowNs, state := .established }

theorem onPacket_takesData {s : TcpStreamSession} {pkt : TcpPacket} (nowNs : BitVec 64)
    (garbage : Nat → UInt8) (h : s.takesData pkt = true) :
    s.onPacket pkt nowNs garbage = (s.awake nowNs).onEstablished pkt garbage := by
  simp only [takesData,Bool.and_eq_true,Bool.not_eq_true',Bool.or_eq_true,
    decide_eq_true_eq] at h
  obtain ⟨⟨hrst,hsyn⟩,hstate⟩ := h
  rcases hstate with hstate | ⟨hstate,hack⟩
  · simp [onPacket,hrst,hsyn,hstate,awake]
  · simp [onPacket,hrst,hsyn,hstate,hack,awake]

/-- A packet that does not reach the data part ends the session or leaves its stream alone. -/
theorem onPacket_other {s : TcpStreamSession} {pkt : TcpPacket} (nowNs : BitVec 64)
    (garbage : Nat → UInt8) (h : s.takesData pkt = false) :
    (pkt.has thRst = true ∧ s.onPacket pkt nowNs garbage = (none,{ isClosed := true })) ∨
      (pkt.has thRst = false ∧ ∃ res, s.onPacket pkt nowNs garbage =
        (some { s with lastSeenNs := nowNs },res) ∧ res.isReady = false ∧ res.payload = [] ∧
        res.isClosed = false) := by
  unfold onPacket
  cases hrst : pkt.has thRst with
  | true => exact Or.inl ⟨rfl,by simp⟩
  | false =>
    refine Or.inr ⟨rfl,?_⟩
    cases hsyn : pkt.has thSyn with
    | true => exact ⟨_,by simp; rfl,rfl,rfl,rfl⟩
    | false =>
      simp only [takesData,hrst,hsyn,Bool.not_false,Bool.true_and,Bool.or_eq_false_iff,
        decide_eq_false_iff_not] at h
      obtain ⟨hest,hsent⟩ := h
      cases hstate : s.state with
      | established => exact absurd hstate hest
      | synSent =>
        have hack : pkt.has thAck = false := by simpa [hstate] using hsent
        exact ⟨{},by simp [hack],rfl,rfl,rfl⟩
      | closed => exact ⟨{},by simp,rfl,rfl,rfl⟩
      | closing => exact ⟨{},by simp,rfl,rfl,rfl⟩

theorem onFin_none {s : TcpStreamSession} {pkt : TcpPacket} (res : TcpAssemblyResult)
    (h : pkt.has thFin = false) : s.onFin pkt res = (some s,res) := by
  simp [onFin,h]

/-- A session that survives its FIN is closing. -/
theorem onFin_some {s t : TcpStreamSession} {pkt : TcpPacket} {res res' : TcpAssemblyResult}
    (h : s.onFin pkt res = (some t,res')) : t = s ∨ t.state = .closing := by
  unfold onFin at h
  split_ifs at h
  · cases h
  · cases h
    exact Or.inr rfl
  · cases h
    exact Or.inl rfl

/-- The in-order fast path is taken: nothing counts as waiting in the ring. -/
def fastPath (s : TcpStreamSession) (seq : BitVec 32) (payload : List UInt8) : Bool :=
  s.inWindow seq payload && (s.trim seq payload).1 = s.rcvNxt && s.outOfOrderCount = 0#16

/-- Marks that the fast path would pass over. -/
def marksPassed (s : TcpStreamSession) (seq : BitVec 32) (payload : List UInt8) : Bool :=
  match s.ring with
  | none => false
  | some r => r.isRangeSet s.rcvNxt.toNat (s.trim seq payload).2.length

theorem Placed.fastPath_iff {s : TcpStreamSession} {seq : BitVec 32} {payload : List UInt8}
    {off k : Nat} (h : s.Placed seq payload off k) (hin : s.inWindow seq payload = true) :
    s.fastPath seq payload = true ↔ off = 0 ∧ s.outOfOrderCount = 0#16 := by
  simp [fastPath,hin,h.trim,add_eq_self _ h.off_lt.le]

/-- How a segment is accepted: delivered by the fast path, buffered, or drained together with
what it fills the gap to. -/
inductive Accepted (s : TcpStreamSession) (seq : BitVec 32) (payload : List UInt8)
    (garbage : Nat → UInt8) : TcpStreamSession → Option (List UInt8) → Prop where
  | delivered (k : Nat) (hp : s.Placed seq payload 0 k) (hfast : s.fastPath seq payload = true) :
      Accepted s seq payload garbage
        { s with rcvNxt := s.rcvNxt + BitVec.ofNat 32 (payload.drop k).length }
        (some (payload.drop k))
  | buffered (off k : Nat) (hp : s.Placed seq payload off k) (hahead : 0 < off) :
      Accepted s seq payload garbage
        { s with
          ring := some ((s.initBuffers garbage).store (s.rcvNxt + BitVec.ofNat 32 off)
            (payload.drop k))
          outOfOrderCount := s.outOfOrderCount + 1#16 } none
  | drained (k n : Nat) (t : TcpStreamSession) (bytes : List UInt8)
      (hp : s.Placed seq payload 0 k)
      (hd : s.Drained ((s.initBuffers garbage).store s.rcvNxt (payload.drop k)) n t bytes) :
      Accepted s seq payload garbage t (some bytes)

theorem receiveData_accepted {s t : TcpStreamSession} {seq : BitVec 32} {payload : List UInt8}
    {garbage : Nat → UInt8} {ready : Option (List UInt8)} (hpos : 0 < payload.length)
    (hlen : payload.length < 65536) (h : s.receiveData seq payload garbage = .accepted t ready) :
    s.Accepted seq payload garbage t ready := by
  have hin : s.inWindow seq payload = true := by
    by_contra hout
    rcases receiveData_outside (by simpa using hout) garbage with hr | hr
    · rw [hr] at h
      cases h
    · rw [hr] at h
      cases h
  obtain ⟨off,k,hp⟩ := s.inWindow_placed seq payload hpos hlen hin
  rw [receiveData_placed hp hin] at h
  split_ifs at h with hfast hahead
  · have hzero := hfast.1
    subst hzero
    cases h
    exact .delivered k hp ((hp.fastPath_iff hin).mpr hfast)
  · rcases s.bufferSegment_cases (s.initBuffers garbage) (s.rcvNxt + BitVec.ofNat 32 off)
      (payload.drop k) with ⟨_,hc⟩ | ⟨_,hc⟩
    · rw [hc] at h
      cases h
    · rw [hc] at h
      cases h
      exact .buffered off k hp hahead
  · have hzero : off = 0 := by omega
    subst hzero
    have hfit : 0 + (payload.drop k).length ≤ tcpWindowSize := hp.fits
    rcases s.fillGap_cases (s.initBuffers garbage) (payload.drop k) hp.nonempty (by omega) with
      ⟨_,hc⟩ | ⟨_,n,t',bytes,hc,hd⟩
    · rw [hc] at h
      cases h
    · rw [hc] at h
      cases h
      exact .drained k n _ bytes hp hd

theorem marksPassed_eq_false {s : TcpStreamSession} {seq : BitVec 32} {payload : List UInt8}
    {k : Nat} (h : s.Placed seq payload 0 k) (hq : s.marksPassed seq payload = false) (i : Nat)
    (hi : i < (payload.drop k).length) : s.bit i = false := by
  cases hr : s.ring with
  | none => simp [bit,hr]
  | some r =>
    have hfit : 0 + (payload.drop k).length ≤ tcpWindowSize := h.fits
    have hiff := r.isRangeSet_segment s.rcvNxt 0 (payload.drop k) hfit
    rw [BitVec.add_zero] at hiff
    simp only [marksPassed,hr,h.trim] at hq
    rw [hq] at hiff
    rw [bit_some hr]
    by_contra hb
    have hset := hiff.mpr ⟨i,hi,by simpa using hb⟩
    cases hset

/-- The payload is the slice of the stream `S` at its sequence number. -/
def SliceOf (S : List UInt8) (isn seq : BitVec 32) (payload : List UInt8) : Prop :=
  ∃ pos, seq = isn + 1 + BitVec.ofNat 32 pos ∧ pos + payload.length ≤ S.length ∧
    payload = (S.drop pos).take payload.length

/-- Marked bytes of the ring from stream position `a` on are bytes of `S`. -/
def FaithfulRing (S : List UInt8) (a : Nat) (bit : Nat → Bool) (byte : Nat → UInt8) : Prop :=
  ∀ i < tcpWindowSize, bit i = true → a + i < S.length ∧ byte i = S.getD (a + i) 0

/-- The session has delivered `d` and buffers only bytes of `S`. -/
structure Faithful (S : List UInt8) (isn : BitVec 32) (d : List UInt8) (s : TcpStreamSession) :
    Prop where
  delivered : d = S.take d.length
  le : d.length ≤ S.length
  rcvNxt : s.rcvNxt = isn + 1 + BitVec.ofNat 32 d.length
  ring : FaithfulRing S d.length s.bit s.byte

theorem Faithful.congr {S : List UInt8} {isn : BitVec 32} {d : List UInt8}
    {s t : TcpStreamSession} (h : Faithful S isn d s) (hnxt : t.rcvNxt = s.rcvNxt)
    (hring : t.ring = s.ring) : Faithful S isn d t := by
  refine ⟨h.delivered,h.le,hnxt.trans h.rcvNxt,?_⟩
  intro i hi hb
  have hbit : t.bit i = s.bit i := by simp [bit,hnxt,hring]
  have hbyte : t.byte i = s.byte i := by simp [byte,hnxt,hring]
  rw [hbyte]
  exact h.ring i hi (hbit ▸ hb)

theorem Faithful.opened (S : List UInt8) (pkt : TcpPacket) (nowNs : BitVec 64) :
    Faithful S pkt.seq [] (.opened pkt nowNs) where
  delivered := rfl
  le := Nat.zero_le _
  rcvNxt := by simp [TcpStreamSession.opened]
  ring := by
    intro i _ hb
    simp [bit,TcpStreamSession.opened] at hb

section Slice

variable {S : List UInt8} {isn : BitVec 32} {d : List UInt8} {s : TcpStreamSession}
  {seq : BitVec 32} {payload : List UInt8} {off k : Nat}

/-- A placed slice of `S` starts `off` bytes after what was delivered. -/
theorem Faithful.slice (h : Faithful S isn d s) (hS : S.length < 2 ^ 31)
    (hsl : SliceOf S isn seq payload) (hp : s.Placed seq payload off k) :
    d.length + off + (payload.drop k).length ≤ S.length ∧
      payload.drop k = (S.drop (d.length + off)).take (payload.drop k).length := by
  obtain ⟨pos,hseq,hle,hpay⟩ := hsl
  have hk := hp.behind
  have hoff := hp.off_lt
  have hdl := h.le
  have hpos : pos + k = d.length + off := by
    have heq := hp.seq_eq
    rw [hseq,h.rcvNxt] at heq
    generalize isn + 1 = base at heq
    have hnat := congrArg BitVec.toNat heq
    simp only [BitVec.toNat_add,BitVec.toNat_ofNat] at hnat
    unfold tcpWindowSize at hoff
    omega
  have hlen : (payload.drop k).length = payload.length - k := List.length_drop
  refine ⟨by omega,?_⟩
  rw [← hpos,← List.drop_drop,hlen]
  conv_lhs => rw [hpay]
  rw [List.drop_take]

theorem slice_getD {data : List UInt8} {a : Nat}
    (h : data = (S.drop a).take data.length) (i : Nat) (hi : i < data.length) :
    data.getD i 0 = S.getD (a + i) 0 := by
  simp only [List.getD_eq_getElem?_getD]
  conv_lhs => rw [h]
  rw [List.getElem?_take_of_lt hi,List.getElem?_drop]

theorem Faithful.extend {data : List UInt8} (h : Faithful S isn d s)
    (hle : d.length + data.length ≤ S.length)
    (hdata : data = (S.drop d.length).take data.length) {t : TcpStreamSession}
    (hnxt : t.rcvNxt = s.rcvNxt + BitVec.ofNat 32 data.length)
    (hring : FaithfulRing S (d.length + data.length) t.bit t.byte) :
    Faithful S isn (d ++ data) t where
  delivered := by
    rw [List.length_append,List.take_add,← h.delivered,← hdata]
  le := by
    rw [List.length_append]
    exact hle
  rcvNxt := by
    rw [hnxt,h.rcvNxt,List.length_append,BitVec.ofNat_add,BitVec.add_assoc]
  ring := by
    rw [List.length_append]
    exact hring

/-- Storing a slice of `S` keeps the ring faithful. -/
theorem Faithful.store (h : Faithful S isn d s) (garbage : Nat → UInt8) {data : List UInt8}
    (hoff : off < tcpWindowSize) (hfit : off + data.length ≤ tcpWindowSize)
    (hle : d.length + off + data.length ≤ S.length)
    (hdata : data = (S.drop (d.length + off)).take data.length) :
    FaithfulRing S d.length
      (((s.initBuffers garbage).store (s.rcvNxt + BitVec.ofNat 32 off) data).bit s.rcvNxt.toNat)
      (((s.initBuffers garbage).store (s.rcvNxt + BitVec.ofNat 32 off) data).byte
        s.rcvNxt.toNat) := by
  intro i hi hb
  rw [TcpRing.store_bit _ _ _ _ hoff hfit i hi,initBuffers_bit] at hb
  rw [TcpRing.store_byte _ _ _ _ hoff hfit i hi]
  split_ifs with hin
  · refine ⟨by omega,?_⟩
    rw [slice_getD hdata (i - off) (by omega)]
    congr 1
    omega
  · have hold : s.bit i = true := by simpa [hin] using hb
    rw [initBuffers_byte garbage hold]
    exact h.ring i hi hold

end Slice

section Branches

variable {S : List UInt8} {isn : BitVec 32} {d : List UInt8} {s t : TcpStreamSession}
  {seq : BitVec 32} {payload : List UInt8} {off k : Nat} {ready : Option (List UInt8)}

theorem Faithful.deliver (h : Faithful S isn d s) (hS : S.length < 2 ^ 31)
    (hsl : SliceOf S isn seq payload) (hp : s.Placed seq payload 0 k)
    (hq : s.marksPassed seq payload = false)
    (ht : s.deliver (payload.drop k) = .accepted t ready) :
    Faithful S isn (d ++ ready.getD []) t := by
  obtain ⟨hle,hdata⟩ := h.slice hS hsl hp
  have hring : t.ring = s.ring := by
    cases ht
    rfl
  have hnxt : t.rcvNxt = s.rcvNxt + BitVec.ofNat 32 (payload.drop k).length := by
    cases ht
    rfl
  have hready : ready = some (payload.drop k) := by
    cases ht
    rfl
  subst hready
  apply h.extend hle hdata hnxt
  intro i hi hb
  have hpos := hp.nonempty
  have hfit := hp.fits
  rw [bit_advance hring hnxt] at hb
  rw [byte_advance hring hnxt]
  by_cases hin : (payload.drop k).length + i < tcpWindowSize
  · have hold := h.ring _ hin hb
    rwa [← Nat.add_assoc] at hold
  · have hwrap : (payload.drop k).length + i =
        (payload.drop k).length + i - tcpWindowSize + tcpWindowSize := by omega
    rw [hwrap,bit_wrap,marksPassed_eq_false hp hq _ (by omega)] at hb
    cases hb

theorem Faithful.bufferSegment (h : Faithful S isn d s) (hS : S.length < 2 ^ 31)
    (hsl : SliceOf S isn seq payload) (hp : s.Placed seq payload off k) (garbage : Nat → UInt8)
    (ht : s.bufferSegment (s.initBuffers garbage) (s.rcvNxt + BitVec.ofNat 32 off)
      (payload.drop k) = .accepted t ready) :
    Faithful S isn (d ++ ready.getD []) t := by
  obtain ⟨hle,hdata⟩ := h.slice hS hsl hp
  rcases bufferSegment_cases s (s.initBuffers garbage) (s.rcvNxt + BitVec.ofNat 32 off)
    (payload.drop k) with ⟨_,hc⟩ | ⟨_,hc⟩
  · rw [hc] at ht
    cases ht
  · have hstore := h.store garbage hp.off_lt hp.fits hle hdata
    rw [hc] at ht
    cases ht
    refine ⟨by simpa using h.delivered,by simpa using h.le,by simpa using h.rcvNxt,?_⟩
    rw [Option.getD_none,List.append_nil]
    exact hstore

theorem Faithful.fillGap (h : Faithful S isn d s) (hS : S.length < 2 ^ 31)
    (hsl : SliceOf S isn seq payload) (hp : s.Placed seq payload 0 k) (garbage : Nat → UInt8)
    (ht : s.fillGap (s.initBuffers garbage) s.rcvNxt (payload.drop k) = .accepted t ready) :
    Faithful S isn (d ++ ready.getD []) t := by
  obtain ⟨hle,hdata⟩ := h.slice hS hsl hp
  have hfit : 0 + (payload.drop k).length ≤ tcpWindowSize := hp.fits
  have hring := h.store garbage (by decide) hfit hle hdata
  rw [BitVec.add_zero] at hring
  rcases s.fillGap_cases (s.initBuffers garbage) (payload.drop k) hp.nonempty (by omega) with
    ⟨_,hc⟩ | ⟨_,n,t',bytes,hc,hd⟩
  · rw [hc] at ht
    cases ht
  · rw [hc] at ht
    cases ht
    have hlen : bytes.length = n := by simp [hd.bytes]
    have hlast := hring (n - 1) (by have := hd.le; have := hd.pos; omega)
      (hd.run (n - 1) (by have := hd.pos; omega))
    have hend : d.length + n ≤ S.length := by
      have := hd.pos
      omega
    apply h.extend
    · change d.length + bytes.length ≤ S.length
      rwa [hlen]
    · change bytes = (S.drop d.length).take bytes.length
      rw [hlen,hd.bytes]
      apply map_range_eq
      · simp
        omega
      · intro i hi
        have hb := hring i (by have := hd.le; omega) (hd.run i hi)
        rw [hb.2,List.getElem?_take_of_lt hi,List.getElem?_drop,List.getD_eq_getElem?_getD,
          List.getElem?_eq_getElem hb.1,Option.getD_some]
    · change t.rcvNxt = s.rcvNxt + BitVec.ofNat 32 bytes.length
      rw [hlen,hd.rcvNxt]
    · change FaithfulRing S (d.length + bytes.length) t.bit t.byte
      rw [hlen]
      intro i hi hb
      rw [hd.bit hi,Bool.and_eq_true,decide_eq_true_eq] at hb
      rw [hd.byte]
      have hold := hring (n + i) hb.1 hb.2
      rwa [← Nat.add_assoc] at hold

/-- One segment of the stream keeps a session faithful. -/
theorem Faithful.receiveData (h : Faithful S isn d s) (hS : S.length < 2 ^ 31)
    (hsl : SliceOf S isn seq payload) (hpos : 0 < payload.length)
    (hlen : payload.length < 65536) (garbage : Nat → UInt8)
    (hq : s.fastPath seq payload = true → s.marksPassed seq payload = false)
    (ht : s.receiveData seq payload garbage = .accepted t ready) :
    Faithful S isn (d ++ ready.getD []) t := by
  cases hin : s.inWindow seq payload with
  | false =>
    rcases receiveData_outside hin garbage with hc | hc
    · rw [hc] at ht
      cases ht
    · rw [hc] at ht
      cases ht
  | true =>
    obtain ⟨off,k,hp⟩ := s.inWindow_placed seq payload hpos hlen hin
    rw [receiveData_placed hp hin garbage] at ht
    split_ifs at ht with hfast hahead
    · have hzero := hfast.1
      subst hzero
      exact h.deliver hS hsl hp (hq ((hp.fastPath_iff hin).mpr hfast)) ht
    · exact h.bufferSegment hS hsl hp garbage ht
    · have hzero : off = 0 := by omega
      subst hzero
      exact h.fillGap hS hsl hp garbage ht

end Branches

/-- A packet of the stream: ACK only, with a slice of `S` as payload. -/
structure StreamPacket (S : List UInt8) (isn : BitVec 32) (pkt : TcpPacket) : Prop where
  ack : pkt.has thAck = true
  noSyn : pkt.has thSyn = false
  noRst : pkt.has thRst = false
  noFin : pkt.has thFin = false
  slice : SliceOf S isn pkt.seq pkt.payload

/-- Bytes that a result hands out. -/
def handedOut (res : TcpAssemblyResult) : List UInt8 := if res.isReady then res.payload else []

theorem Faithful.onPacket {S : List UInt8} {isn : BitVec 32} {d : List UInt8}
    {s : TcpStreamSession} {pkt : TcpPacket} {nowNs : BitVec 64} {garbage : Nat → UInt8}
    (h : Faithful S isn d s) (hS : S.length < 2 ^ 31) (hpkt : StreamPacket S isn pkt)
    (hq : s.takesData pkt = true → s.fastPath pkt.seq pkt.payload = true →
      s.marksPassed pkt.seq pkt.payload = false) :
    (∃ t res, s.onPacket pkt nowNs garbage = (some t,res) ∧
      Faithful S isn (d ++ handedOut res) t) ∨
    ∃ res, s.onPacket pkt nowNs garbage = (none,res) ∧ handedOut res = [] := by
  cases htake : s.takesData pkt with
  | false =>
    rcases onPacket_other nowNs garbage htake with ⟨hrst,_⟩ | ⟨_,res,hon,hready,_⟩
    · rw [hpkt.noRst] at hrst
      cases hrst
    · refine Or.inl ⟨_,res,hon,?_⟩
      have hempty : handedOut res = [] := by simp [handedOut,hready]
      rw [hempty,List.append_nil]
      exact h.congr rfl rfl
  | true =>
    have hawake : Faithful S isn d (s.awake nowNs) := h.congr rfl rfl
    rw [onPacket_takesData nowNs garbage htake]
    unfold onEstablished
    split_ifs with hpos
    · cases hr : (s.awake nowNs).receiveData pkt.seq pkt.payload garbage with
      | outOfWindow => exact Or.inl ⟨_,_,rfl,by simpa [handedOut] using hawake⟩
      | duplicate => exact Or.inl ⟨_,_,rfl,by simpa [handedOut] using hawake⟩
      | conflict => exact Or.inr ⟨_,rfl,rfl⟩
      | accepted t ready =>
        refine Or.inl ⟨t,_,onFin_none _ hpkt.noFin,?_⟩
        have hnext := hawake.receiveData hS hpkt.slice hpos pkt.payload_lt garbage (hq htake) hr
        cases ready with
        | none => simpa [handedOut] using hnext
        | some bytes => simpa [handedOut] using hnext
    · exact Or.inl ⟨_,_,onFin_none _ hpkt.noFin,by simpa [handedOut] using hawake⟩

/-- The fast path would not disagree with the gap filler: the overlap check passes, and the
position right after the segment is not marked. -/
def fastPathQuiet (s : TcpStreamSession) (seq : BitVec 32) (payload : List UInt8) : Bool :=
  match s.ring with
  | none => true
  | some r =>
      !r.overlapConflict s.rcvNxt (s.trim seq payload).2 &&
        !r.bit s.rcvNxt.toNat (s.trim seq payload).2.length

theorem fastPathQuiet_spec {s : TcpStreamSession} {seq : BitVec 32} {payload : List UInt8}
    {k : Nat} (hp : s.Placed seq payload 0 k) (hq : s.fastPathQuiet seq payload = true)
    (garbage : Nat → UInt8) :
    (s.initBuffers garbage).overlapConflict s.rcvNxt (payload.drop k) = false ∧
      s.bit (payload.drop k).length = false := by
  cases hr : s.ring with
  | none =>
    refine ⟨?_,by simp [bit,hr]⟩
    have hfit : 0 + (payload.drop k).length ≤ tcpWindowSize := hp.fits
    have hiff := (s.initBuffers garbage).overlapConflict_iff s.rcvNxt 0 (payload.drop k) hfit
    rw [BitVec.add_zero] at hiff
    by_contra hc
    obtain ⟨⟨i,_,hb⟩,_⟩ := hiff.mp (by simpa using hc)
    rw [initBuffers_bit] at hb
    simp [bit,hr] at hb
  | some r =>
    simp only [fastPathQuiet,hr,hp.trim,Bool.and_eq_true,Bool.not_eq_true'] at hq
    refine ⟨by simpa [initBuffers,hr] using hq.1,?_⟩
    rw [bit_some hr]
    exact hq.2

section NextClear

variable {s t : TcpStreamSession} {seq : BitVec 32} {payload : List UInt8}
  {ready : Option (List UInt8)}

/-- Draining stops at a clear position. -/
theorem Drained.next_clear {r : TcpRing} {n : Nat} {bytes : List UInt8}
    (h : s.Drained r n t bytes) : t.bit 0 = false := by
  rw [h.bit (by decide)]
  by_cases hn : n + 0 < tcpWindowSize
  · simp [h.stop hn]
  · simp only [hn,decide_false,Bool.false_and]

/-- A segment that is accepted leaves the position at `rcv_nxt` clear. -/
theorem receiveData_next_clear (hclear : s.bit 0 = false) (hpos : 0 < payload.length)
    (hlen : payload.length < 65536) (garbage : Nat → UInt8)
    (hq : s.fastPath seq payload = true → s.fastPathQuiet seq payload = true)
    (ht : s.receiveData seq payload garbage = .accepted t ready) : t.bit 0 = false := by
  cases receiveData_accepted hpos hlen ht with
  | delivered k hp hfast =>
    have hnext := (fastPathQuiet_spec hp (hq hfast) garbage).2
    have hadvance := bit_advance (s := s)
      (t := { s with rcvNxt := s.rcvNxt + BitVec.ofNat 32 (payload.drop k).length }) rfl rfl 0
    exact hadvance.trans hnext
  | buffered off k hp hahead =>
    change ((s.initBuffers garbage).store _ _).bit s.rcvNxt.toNat 0 = false
    have hout : ¬ (off ≤ 0 ∧ 0 < off + (payload.drop k).length) := by omega
    rw [TcpRing.store_bit _ _ _ _ hp.off_lt hp.fits 0 (by decide),initBuffers_bit,hclear,
      decide_eq_false hout,Bool.or_false]
  | drained k n _ bytes hp hd => exact hd.next_clear

/-- The fast path and the gap filler agree on the segment: the same bytes are handed out and
the same `rcv_nxt` is reached. -/
def PathsAgree (s : TcpStreamSession) (seq : BitVec 32) (payload : List UInt8)
    (garbage : Nat → UInt8) : Prop :=
  ∃ t t' bytes, s.deliver (s.trim seq payload).2 = .accepted t (some bytes) ∧
    s.fillGap (s.initBuffers garbage) s.rcvNxt (s.trim seq payload).2 =
      .accepted t' (some bytes) ∧ t.rcvNxt = t'.rcvNxt

theorem fastPathQuiet_agree (hpos : 0 < payload.length) (hlen : payload.length < 65536)
    (garbage : Nat → UInt8) (hfast : s.fastPath seq payload = true)
    (hq : s.fastPathQuiet seq payload = true) : s.PathsAgree seq payload garbage := by
  have hin : s.inWindow seq payload = true := by
    simp only [fastPath,Bool.and_eq_true] at hfast
    exact hfast.1.1
  obtain ⟨off,k,hp⟩ := s.inWindow_placed seq payload hpos hlen hin
  have hzero := ((hp.fastPath_iff hin).mp hfast).1
  subst hzero
  obtain ⟨hno,hnext⟩ := fastPathQuiet_spec hp hq garbage
  have hdrop : (payload.drop k).length < tcpWindowSize := by
    rw [List.length_drop,tcpWindowSize]
    omega
  simp only [PathsAgree,hp.trim]
  rcases s.fillGap_cases (s.initBuffers garbage) (payload.drop k) hp.nonempty hdrop.le with
    ⟨hyes,_⟩ | ⟨_,n,t',bytes,hc,hd⟩
  · rw [hno] at hyes
    cases hyes
  · have hn : n = (payload.drop k).length := (hd.eq_front_iff hdrop).mpr hnext
    have hlen : bytes.length = n := by simp [hd.bytes]
    have hbytes : payload.drop k = bytes :=
      (hd.front_prefix hdrop.le).eq_of_length (hlen.trans hn).symm
    refine ⟨_,t',payload.drop k,rfl,?_,?_⟩
    · rw [hc,← hbytes]
    · rw [hd.rcvNxt,hn]

/-- A session that still takes data has a clear position at `rcv_nxt`. -/
def NextClear (s : TcpStreamSession) : Prop :=
  s.state = .synSent ∨ s.state = .established → s.bit 0 = false

theorem NextClear.onPacket {pkt : TcpPacket} {nowNs : BitVec 64} {garbage : Nat → UInt8}
    {res : TcpAssemblyResult} (h : s.NextClear)
    (hq : s.takesData pkt = true → s.fastPath pkt.seq pkt.payload = true →
      s.fastPathQuiet pkt.seq pkt.payload = true)
    (hon : s.onPacket pkt nowNs garbage = (some t,res)) : t.NextClear := by
  have hfin : ∀ v : TcpStreamSession, v.bit 0 = false →
      ∀ r, v.onFin pkt r = (some t,res) → t.NextClear := by
    intro v hv r hvt
    rcases onFin_some hvt with rfl | hstate
    · exact fun _ => hv
    · intro hopen
      rw [hstate] at hopen
      simp at hopen
  cases htake : s.takesData pkt with
  | false =>
    rcases onPacket_other nowNs garbage htake with ⟨_,hc⟩ | ⟨_,res',hc,_⟩
    · rw [hc] at hon
      cases hon
    · rw [hc] at hon
      cases hon
      exact h
  | true =>
    have hclear : (s.awake nowNs).bit 0 = false := by
      apply h
      simp only [takesData,Bool.and_eq_true,Bool.or_eq_true,decide_eq_true_eq] at htake
      exact htake.2.symm.imp And.left id
    rw [onPacket_takesData nowNs garbage htake] at hon
    unfold onEstablished at hon
    split_ifs at hon with hpos
    · cases hr : (s.awake nowNs).receiveData pkt.seq pkt.payload garbage with
      | outOfWindow =>
        rw [hr] at hon
        cases hon
        exact fun _ => hclear
      | duplicate =>
        rw [hr] at hon
        cases hon
        exact fun _ => hclear
      | conflict =>
        rw [hr] at hon
        cases hon
      | accepted v ready =>
        rw [hr] at hon
        exact hfin v (receiveData_next_clear hclear hpos pkt.payload_lt garbage (hq htake) hr) _
          hon
    · exact hfin _ hclear _ hon

end NextClear

/-- The session changes in what the assembler works on at most. -/
def Updated (s t : TcpStreamSession) : Prop :=
  ∃ state count nxt seen ring, t = { s with
    state := state
    outOfOrderCount := count
    rcvNxt := nxt
    lastSeenNs := seen
    ring := ring }

theorem Updated.refl (s : TcpStreamSession) : s.Updated s := ⟨_,_,_,_,_,rfl⟩

theorem Updated.trans {s t u : TcpStreamSession} (h : s.Updated t) (h' : t.Updated u) :
    s.Updated u := by
  obtain ⟨_,_,_,_,_,rfl⟩ := h
  obtain ⟨_,_,_,_,_,rfl⟩ := h'
  exact ⟨_,_,_,_,_,rfl⟩

section Updated

variable {s t : TcpStreamSession} {pkt : TcpPacket} {garbage : Nat → UInt8}

theorem drain_updated (s : TcpStreamSession) (r : TcpRing) : s.Updated (s.drain r).1 := by
  unfold drain
  dsimp only
  split
  · exact ⟨_,_,_,_,_,rfl⟩
  · exact ⟨_,_,_,_,_,rfl⟩

theorem receiveData_updated {seq : BitVec 32} {payload : List UInt8}
    {ready : Option (List UInt8)} (h : s.receiveData seq payload garbage = .accepted t ready) :
    s.Updated t := by
  unfold receiveData at h
  dsimp only at h
  split_ifs at h
  · cases h
    exact ⟨_,_,_,_,_,rfl⟩
  · unfold bufferSegment at h
    split_ifs at h
    cases h
    exact ⟨_,_,_,_,_,rfl⟩
  · unfold fillGap at h
    split_ifs at h
    cases h
    exact drain_updated _ _

theorem onFin_updated {res res' : TcpAssemblyResult} (h : s.onFin pkt res = (some t,res')) :
    s.Updated t := by
  unfold onFin at h
  split_ifs at h
  · cases h
  · cases h
    exact ⟨_,_,_,_,_,rfl⟩
  · cases h
    exact Updated.refl s

theorem onEstablished_updated {res : TcpAssemblyResult}
    (h : s.onEstablished pkt garbage = (some t,res)) : s.Updated t := by
  unfold onEstablished at h
  split_ifs at h
  · split at h
    · cases h
      exact Updated.refl s
    · cases h
      exact Updated.refl s
    · cases h
    · rename_i v ready hr
      exact (receiveData_updated hr).trans (onFin_updated h)
  · exact onFin_updated h

theorem onPacket_updated {nowNs : BitVec 64} {res : TcpAssemblyResult}
    (h : s.onPacket pkt nowNs garbage = (some t,res)) : s.Updated t := by
  cases htakes : s.takesData pkt with
  | true =>
    rw [onPacket_takesData nowNs garbage htakes] at h
    have hawake : s.Updated (s.awake nowNs) := ⟨_,_,_,_,_,rfl⟩
    exact hawake.trans (onEstablished_updated h)
  | false =>
    rcases onPacket_other nowNs garbage htakes with ⟨_,hon⟩ | ⟨_,r,hon,_⟩
    · rw [hon] at h
      cases h
    · rw [hon] at h
      cases h
      exact ⟨_,_,_,_,_,rfl⟩

end Updated

end TcpStreamSession

end Aethon
