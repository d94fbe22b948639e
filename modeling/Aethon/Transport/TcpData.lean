import Aethon.Transport.TcpSession

/-!
# Segments in window coordinates

A segment that passes the window checks covers the positions `off, …, off + len - 1` after
`rcv_nxt`, with `off + len` at most the window size. In these coordinates the ring operations
and the three data branches have short specifications.
-/

namespace Aethon

open Framework

namespace TcpSeq

theorem lt_eq (a b : BitVec 32) : lt a b = decide (2 ^ 31 ≤ (a - b).toNat) := by
  apply decide_eq_decide.mpr
  rw [BitVec.toInt_eq_toNat_cond]
  have := (a - b).isLt
  split_ifs <;> omega

theorem lte_eq (a b : BitVec 32) :
    lte a b = decide ((a - b).toNat = 0 ∨ 2 ^ 31 ≤ (a - b).toNat) := by
  apply decide_eq_decide.mpr
  rw [BitVec.toInt_eq_toNat_cond]
  have := (a - b).isLt
  split_ifs <;> omega

theorem gt_eq (a b : BitVec 32) :
    gt a b = decide (0 < (a - b).toNat ∧ (a - b).toNat < 2 ^ 31) := by
  apply decide_eq_decide.mpr
  rw [BitVec.toInt_eq_toNat_cond]
  have := (a - b).isLt
  split_ifs <;> omega

end TcpSeq

namespace TcpRing

variable (r : TcpRing)

theorem bit_congr {a b : Nat} (h : a % tcpWindowSize = b % tcpWindowSize) (i : Nat) :
    r.bit a i = r.bit b i := by
  rw [bit,bit,← slot_mod,h,slot_mod]

theorem byte_congr {a b : Nat} (h : a % tcpWindowSize = b % tcpWindowSize) (i : Nat) :
    r.byte a i = r.byte b i := by
  rw [byte,byte,← slot_mod,h,slot_mod]

theorem bit_add (a k i : Nat) : r.bit (a + k) i = r.bit a (k + i) := by
  rw [bit,bit,slot_add]

theorem byte_add (a k i : Nat) : r.byte (a + k) i = r.byte a (k + i) := by
  rw [byte,byte,slot_add]

theorem bit_wrap (a i : Nat) : r.bit a (i + tcpWindowSize) = r.bit a i := by
  rw [bit,bit,slot_wrap]

theorem writeRingBuffer_congr {a b : Nat} (h : a % tcpWindowSize = b % tcpWindowSize)
    (data : List UInt8) : r.writeRingBuffer a data = r.writeRingBuffer b data := by
  unfold tcpWindowSize at h
  simp only [writeRingBuffer,and_ffff,h]

theorem setBitmapRange_congr {a b : Nat} (h : a % tcpWindowSize = b % tcpWindowSize)
    (count : Nat) : r.setBitmapRange a count = r.setBitmapRange b count := by
  unfold tcpWindowSize at h
  simp only [setBitmapRange,and_ffff,h]

theorem isRangeSet_congr {a b : Nat} (h : a % tcpWindowSize = b % tcpWindowSize)
    (count : Nat) : r.isRangeSet a count = r.isRangeSet b count := by
  unfold tcpWindowSize at h
  simp only [isRangeSet,and_ffff,h]

/-- The low bits of a sequence number `off` positions after another. -/
theorem toNat_add_mod (seq : BitVec 32) (off : Nat) :
    (seq + BitVec.ofNat 32 off).toNat % tcpWindowSize = (seq.toNat + off) % tcpWindowSize := by
  unfold tcpWindowSize
  rw [BitVec.toNat_add,BitVec.toNat_ofNat]
  omega

section Segment

variable (seq : BitVec 32) (off : Nat) (data : List UInt8) (hoff : off < tcpWindowSize)
  (hfit : off + data.length ≤ tcpWindowSize)
include hoff hfit

theorem store_bit (i : Nat) (hi : i < tcpWindowSize) :
    (r.store (seq + BitVec.ofNat 32 off) data).bit seq.toNat i =
      (r.bit seq.toNat i || decide (off ≤ i ∧ i < off + data.length)) := by
  rw [store,setBitmapRange_congr _ (toNat_add_mod seq off),
    setBitmapRange_bit _ _ _ _ hoff hfit i hi,writeRingBuffer_bit]

theorem store_byte (i : Nat) (hi : i < tcpWindowSize) :
    (r.store (seq + BitVec.ofNat 32 off) data).byte seq.toNat i =
      if off ≤ i ∧ i < off + data.length then data.getD (i - off) 0
      else r.byte seq.toNat i := by
  rw [store,setBitmapRange_byte,writeRingBuffer_congr _ (toNat_add_mod seq off),
    writeRingBuffer_byte_window _ _ _ _ hoff hfit i hi]

omit hoff in
theorem isRangeSet_segment :
    r.isRangeSet (seq + BitVec.ofNat 32 off).toNat data.length = true ↔
      ∃ i < data.length, r.bit seq.toNat (off + i) = true := by
  rw [isRangeSet_congr _ (toNat_add_mod seq off)]
  exact r.isRangeSet_window _ _ _ hfit

omit hoff in
/-- The overlap check: some position of the segment is marked, and one of its first 1500
positions holds another byte than the segment. -/
theorem overlapConflict_iff :
    r.overlapConflict (seq + BitVec.ofNat 32 off) data = true ↔
      (∃ i < data.length, r.bit seq.toNat (off + i) = true) ∧
        ∃ i < min data.length 1500, r.byte seq.toNat (off + i) ≠ data.getD i 0 := by
  have hset := r.isRangeSet_segment seq off data hfit
  have hlen : (if data.length < 1500 then data.length else 1500) = min data.length 1500 := by
    split_ifs <;> omega
  unfold overlapConflict
  by_cases h : r.isRangeSet (seq + BitVec.ofNat 32 off).toNat data.length = true
  · have hread : r.readRingBuffer (seq + BitVec.ofNat 32 off).toNat (min data.length 1500) =
        (List.range (min data.length 1500)).map fun i => r.byte seq.toNat (off + i) := by
      rw [readRingBuffer_eq _ _ _ (by omega)]
      apply List.map_congr_left
      intro i _
      rw [byte_congr _ (toNat_add_mod seq off),byte_add]
    have hsome := hset.mp h
    simp only [h,if_true,hlen,hread,decide_eq_true_eq,hsome,true_and]
    constructor
    · intro hne
      by_contra hall
      apply hne
      apply map_range_eq
      · simp
      · intro i hi
        have hd : i < data.length := by omega
        have heq : r.byte seq.toNat (off + i) = data.getD i 0 := by
          by_contra hc
          exact hall ⟨i,hi,hc⟩
        rw [heq,List.getElem?_take_of_lt hi,List.getD_eq_getElem?_getD,
          List.getElem?_eq_getElem hd,Option.getD_some]
    · intro hex heq
      obtain ⟨i,hi,hne⟩ := hex
      apply hne
      have hd : i < data.length := by omega
      have hget := congrArg (fun l => l[i]?) heq
      simp only [List.getElem?_map,List.getElem?_range hi,Option.map_some,
        List.getElem?_take_of_lt hi] at hget
      rw [List.getD_eq_getElem?_getD,← hget,Option.getD_some]
  · simp only [h,if_false,Bool.false_eq_true,false_iff,not_and]
    intro hex
    exact absurd (hset.mpr hex) h

end Segment

theorem store_bit_front (seq : BitVec 32) (data : List UInt8) (hfit : data.length ≤ tcpWindowSize)
    (i : Nat) (hi : i < tcpWindowSize) :
    (r.store seq data).bit seq.toNat i = (r.bit seq.toNat i || decide (i < data.length)) := by
  have h := r.store_bit seq 0 data (by decide) (by omega) i hi
  rw [BitVec.add_zero] at h
  simpa using h

theorem store_byte_front (seq : BitVec 32) (data : List UInt8) (hfit : data.length ≤ tcpWindowSize)
    (i : Nat) (hi : i < tcpWindowSize) :
    (r.store seq data).byte seq.toNat i =
      if i < data.length then data.getD i 0 else r.byte seq.toNat i := by
  have h := r.store_byte seq 0 data (by decide) (by omega) i hi
  rw [BitVec.add_zero] at h
  simpa using h

end TcpRing

namespace TcpStreamSession

/-- The mark and the byte at a position after `rcv_nxt`; nothing is marked before the ring
exists. -/
def bit (s : TcpStreamSession) (off : Nat) : Bool :=
  match s.ring with
  | none => false
  | some r => r.bit s.rcvNxt.toNat off

theorem bit_some {s : TcpStreamSession} {r : TcpRing} (h : s.ring = some r) (off : Nat) :
    s.bit off = r.bit s.rcvNxt.toNat off := by
  simp [bit,h]

theorem initBuffers_bit (s : TcpStreamSession) (garbage : Nat → UInt8) (off : Nat) :
    (s.initBuffers garbage).bit s.rcvNxt.toNat off = s.bit off := by
  cases h : s.ring with
  | none => simp [initBuffers,bit,h,TcpRing.bit,bitAt]
  | some r => simp [initBuffers,bit,h]

/-- The segment passes the window check and is not wholly behind `rcv_nxt`. -/
def inWindow (s : TcpStreamSession) (seq : BitVec 32) (payload : List UInt8) : Bool :=
  (TcpSeq.diff seq s.rcvNxt + BitVec.ofNat 32 payload.length).toNat ≤ tcpWindowSize &&
    !TcpSeq.lte (seq + BitVec.ofNat 32 payload.length) s.rcvNxt

/-- The window coordinates of a segment: `k` bytes lie behind `rcv_nxt`, and the rest starts
`off` positions after it. -/
structure Placed (s : TcpStreamSession) (seq : BitVec 32) (payload : List UInt8)
    (off k : Nat) : Prop where
  trim : s.trim seq payload = (s.rcvNxt + BitVec.ofNat 32 off,payload.drop k)
  behind : k < payload.length
  fits : off + (payload.drop k).length ≤ tcpWindowSize
  seq_eq : seq + BitVec.ofNat 32 k = s.rcvNxt + BitVec.ofNat 32 off
  cut : off = 0 ∨ k = 0

theorem Placed.nonempty {s : TcpStreamSession} {seq : BitVec 32} {payload : List UInt8}
    {off k : Nat} (h : s.Placed seq payload off k) : 0 < (payload.drop k).length := by
  have := h.behind
  rw [List.length_drop]
  omega

theorem Placed.off_lt {s : TcpStreamSession} {seq : BitVec 32} {payload : List UInt8}
    {off k : Nat} (h : s.Placed seq payload off k) : off < tcpWindowSize := by
  have := h.nonempty
  have := h.fits
  omega

theorem inWindow_placed (s : TcpStreamSession) (seq : BitVec 32) (payload : List UInt8)
    (hpos : 0 < payload.length) (hlen : payload.length < 65536)
    (h : s.inWindow seq payload = true) : ∃ off k, s.Placed seq payload off k := by
  have hcomm : seq + BitVec.ofNat 32 payload.length - s.rcvNxt =
      seq - s.rcvNxt + BitVec.ofNat 32 payload.length := by
    rw [BitVec.sub_eq_add_neg,BitVec.sub_eq_add_neg,BitVec.add_assoc,BitVec.add_assoc,
      BitVec.add_comm (BitVec.ofNat 32 payload.length)]
  have hseq : s.rcvNxt + (seq - s.rcvNxt) = seq := by
    rw [BitVec.add_comm,BitVec.sub_add_cancel]
  have hback : s.rcvNxt - seq = -(seq - s.rcvNxt) := by
    rw [BitVec.neg_sub,BitVec.sub_eq_add_neg,BitVec.add_comm]
  have hlt := TcpSeq.lt_eq seq s.rcvNxt
  simp only [inWindow,TcpSeq.diff,TcpSeq.lte_eq,hcomm,BitVec.toNat_add,BitVec.toNat_ofNat,
    Bool.and_eq_true,decide_eq_true_eq,Bool.not_eq_true',decide_eq_false_iff_not,
    tcpWindowSize] at h
  obtain ⟨d,hdef⟩ : ∃ d, seq - s.rcvNxt = d := ⟨_,rfl⟩
  simp only [hdef] at hseq hback hlt h
  have hd := d.isLt
  by_cases hahead : d.toNat < 2 ^ 31
  · rw [decide_eq_false (by omega)] at hlt
    refine ⟨d.toNat,0,?_,by omega,?_,?_,Or.inr rfl⟩
    · simp [trim,hlt,hseq]
    · simp only [List.drop_zero,tcpWindowSize]
      omega
    · simp [hseq]
  · rw [decide_eq_true (by omega)] at hlt
    have hneg : (s.rcvNxt - seq).toNat = 2 ^ 32 - d.toNat := by
      rw [hback,BitVec.toNat_neg]
      omega
    refine ⟨0,(s.rcvNxt - seq).toNat,?_,by omega,?_,?_,Or.inl rfl⟩
    · simp [trim,hlt]
    · simp only [List.length_drop,tcpWindowSize]
      omega
    · rw [BitVec.ofNat_toNat,BitVec.setWidth_eq,BitVec.add_comm,BitVec.sub_add_cancel]
      simp

theorem gt_add (seq : BitVec 32) {off : Nat} (hoff : off ≤ tcpWindowSize) :
    TcpSeq.gt (seq + BitVec.ofNat 32 off) seq = decide (0 < off) := by
  have hsub : seq + BitVec.ofNat 32 off - seq = BitVec.ofNat 32 off := by
    rw [BitVec.add_comm,BitVec.add_sub_cancel]
  unfold tcpWindowSize at hoff
  rw [TcpSeq.gt_eq,hsub,BitVec.toNat_ofNat]
  apply decide_eq_decide.mpr
  omega

theorem add_eq_self (seq : BitVec 32) {off : Nat} (hoff : off ≤ tcpWindowSize) :
    seq + BitVec.ofNat 32 off = seq ↔ off = 0 := by
  unfold tcpWindowSize at hoff
  constructor
  · intro h
    have hnat := congrArg BitVec.toNat h
    rw [BitVec.toNat_add,BitVec.toNat_ofNat] at hnat
    have := seq.isLt
    omega
  · intro h
    simp [h]

/-- The branch that a placed segment takes. -/
theorem receiveData_placed {s : TcpStreamSession} {seq : BitVec 32} {payload : List UInt8}
    {off k : Nat} (h : s.Placed seq payload off k) (hin : s.inWindow seq payload = true)
    (garbage : Nat → UInt8) :
    s.receiveData seq payload garbage =
      if off = 0 ∧ s.outOfOrderCount = 0#16 then s.deliver (payload.drop k)
      else if 0 < off then
        s.bufferSegment (s.initBuffers garbage) (s.rcvNxt + BitVec.ofNat 32 off) (payload.drop k)
      else s.fillGap (s.initBuffers garbage) s.rcvNxt (payload.drop k) := by
  simp only [inWindow,Bool.and_eq_true,decide_eq_true_eq,Bool.not_eq_true'] at hin
  have hoff := h.off_lt.le
  simp only [receiveData,hin.2,not_lt.mpr hin.1,if_false,Bool.false_eq_true,h.trim,
    add_eq_self _ hoff,gt_add _ hoff,decide_eq_true_eq]
  split_ifs with hfast hpos
  · rfl
  · rfl
  · have hzero : off = 0 := by omega
    simp [hzero]

theorem receiveData_outside {s : TcpStreamSession} {seq : BitVec 32} {payload : List UInt8}
    (hout : s.inWindow seq payload = false) (garbage : Nat → UInt8) :
    s.receiveData seq payload garbage = .outOfWindow ∨
      s.receiveData seq payload garbage = .duplicate := by
  unfold receiveData
  split_ifs with h1 h2
  · exact Or.inl rfl
  · exact Or.inr rfl
  · have hin : s.inWindow seq payload = true := by
      simp only [inWindow,Bool.and_eq_true,decide_eq_true_eq,Bool.not_eq_true']
      exact ⟨not_lt.mp h1,by simpa using h2⟩
    rw [hin] at hout
    cases hout

/-- Draining a ring whose bit at `rcv_nxt` is set. -/
structure Drained (s : TcpStreamSession) (r : TcpRing) (n : Nat) (t : TcpStreamSession)
    (bytes : List UInt8) : Prop where
  pos : 0 < n
  le : n ≤ tcpWindowSize
  rcvNxt : t.rcvNxt = s.rcvNxt + BitVec.ofNat 32 n
  run : ∀ i < n, r.bit s.rcvNxt.toNat i = true
  stop : n < tcpWindowSize → r.bit s.rcvNxt.toNat n = false
  bytes : bytes = (List.range n).map fun i => r.byte s.rcvNxt.toNat i
  ring : ∃ r', t.ring = some r' ∧
    (∀ i < tcpWindowSize, r'.bit s.rcvNxt.toNat i = (r.bit s.rcvNxt.toNat i && decide (n ≤ i))) ∧
    ∀ i, r'.byte s.rcvNxt.toNat i = r.byte s.rcvNxt.toNat i
  state : t.state = s.state

theorem drain_spec (s : TcpStreamSession) (r : TcpRing)
    (h : r.bit s.rcvNxt.toNat 0 = true) :
    ∃ n t bytes, s.drain r = (t,some bytes) ∧ s.Drained r n t bytes := by
  obtain ⟨hle,hset,hclear⟩ := r.countContinuousBytes_spec s.rcvNxt.toNat tcpWindowSize
  have hpos : 0 < r.countContinuousBytes s.rcvNxt.toNat tcpWindowSize := by
    by_contra hz
    have hzero : r.countContinuousBytes s.rcvNxt.toNat tcpWindowSize = 0 := by omega
    rw [hzero] at hclear
    rw [hclear (by decide)] at h
    cases h
  simp only [drain,gt_iff_lt,hpos,if_true]
  refine ⟨_,_,_,rfl,hpos,hle,rfl,hset,hclear,?_,⟨_,rfl,?_,fun _ => rfl⟩,rfl⟩
  · exact r.readRingBuffer_eq _ _ hle
  · intro i hi
    exact r.clearBitmapRange_bit _ _ hle i hi

/-- The byte of the ring at a position after `rcv_nxt`. -/
def byte (s : TcpStreamSession) (off : Nat) : UInt8 :=
  match s.ring with
  | none => 0
  | some r => r.byte s.rcvNxt.toNat off

theorem byte_some {s : TcpStreamSession} {r : TcpRing} (h : s.ring = some r) (off : Nat) :
    s.byte off = r.byte s.rcvNxt.toNat off := by
  simp [byte,h]

theorem initBuffers_byte {s : TcpStreamSession} {off : Nat} (garbage : Nat → UInt8)
    (h : s.bit off = true) : (s.initBuffers garbage).byte s.rcvNxt.toNat off = s.byte off := by
  cases hr : s.ring with
  | none => simp [bit,hr] at h
  | some r => simp [initBuffers,byte,hr]

theorem bit_wrap (s : TcpStreamSession) (off : Nat) : s.bit (off + tcpWindowSize) = s.bit off := by
  unfold bit
  cases s.ring with
  | none => rfl
  | some r => exact r.bit_wrap _ _

/-- Moving `rcv_nxt` forward over an unchanged ring. -/
theorem bit_advance {s t : TcpStreamSession} {n : Nat} (hring : t.ring = s.ring)
    (hnxt : t.rcvNxt = s.rcvNxt + BitVec.ofNat 32 n) (i : Nat) : t.bit i = s.bit (n + i) := by
  unfold bit
  rw [hring,hnxt]
  cases s.ring with
  | none => rfl
  | some r =>
    change r.bit _ i = r.bit _ (n + i)
    rw [r.bit_congr (TcpRing.toNat_add_mod s.rcvNxt n),r.bit_add]

theorem byte_advance {s t : TcpStreamSession} {n : Nat} (hring : t.ring = s.ring)
    (hnxt : t.rcvNxt = s.rcvNxt + BitVec.ofNat 32 n) (i : Nat) : t.byte i = s.byte (n + i) := by
  unfold byte
  rw [hring,hnxt]
  cases s.ring with
  | none => rfl
  | some r =>
    change r.byte _ i = r.byte _ (n + i)
    rw [r.byte_congr (TcpRing.toNat_add_mod s.rcvNxt n),r.byte_add]

/-- A position that was drained is clear afterwards, also when it comes round again. -/
theorem Drained.bit {s t : TcpStreamSession} {r : TcpRing} {n : Nat} {bytes : List UInt8}
    (h : s.Drained r n t bytes) {i : Nat} (hi : i < tcpWindowSize) :
    t.bit i = (decide (n + i < tcpWindowSize) && r.bit s.rcvNxt.toNat (n + i)) := by
  obtain ⟨r',hring,hbit,_⟩ := h.ring
  have hpos := h.pos
  have hle := h.le
  rw [bit_some hring,h.rcvNxt,r'.bit_congr (TcpRing.toNat_add_mod s.rcvNxt n),r'.bit_add]
  by_cases hin : n + i < tcpWindowSize
  · rw [hbit _ hin]
    simp [hin]
  · have hwrap : n + i = n + i - tcpWindowSize + tcpWindowSize := by omega
    rw [hwrap,r'.bit_wrap,hbit _ (by omega)]
    have hlt : ¬ n ≤ n + i - tcpWindowSize := by omega
    have hout : ¬ n + i - tcpWindowSize + tcpWindowSize < tcpWindowSize := by omega
    simp [hlt,hout]

theorem Drained.byte {s t : TcpStreamSession} {r : TcpRing} {n : Nat} {bytes : List UInt8}
    (h : s.Drained r n t bytes) (i : Nat) : t.byte i = r.byte s.rcvNxt.toNat (n + i) := by
  obtain ⟨r',hring,_,hbyte⟩ := h.ring
  rw [byte_some hring,h.rcvNxt,r'.byte_congr (TcpRing.toNat_add_mod s.rcvNxt n),r'.byte_add,
    hbyte]

section Front

variable {s t : TcpStreamSession} {n : Nat} {data bytes : List UInt8} {garbage : Nat → UInt8}
  (hd : s.Drained ((s.initBuffers garbage).store s.rcvNxt data) n t bytes)
include hd

/-- Draining a segment that was stored at `rcv_nxt` hands out at least that segment. -/
theorem Drained.le_front (hle : data.length ≤ tcpWindowSize) : data.length ≤ n := by
  by_contra hc
  have hstop := hd.stop (by omega)
  rw [TcpRing.store_bit_front _ _ _ hle n (by omega),
    decide_eq_true (by omega : n < data.length),Bool.or_true] at hstop
  cases hstop

theorem Drained.front_prefix (hle : data.length ≤ tcpWindowSize) : data <+: bytes := by
  have hn := hd.le_front hle
  rw [List.prefix_iff_getElem?]
  intro i hi
  rw [hd.bytes,List.getElem?_map,List.getElem?_range (by omega),Option.map_some,
    TcpRing.store_byte_front _ _ _ hle i (by omega),if_pos hi,List.getD_eq_getElem?_getD,
    List.getElem?_eq_getElem hi,Option.getD_some]

/-- It hands out nothing else exactly when the position after it is not marked. -/
theorem Drained.eq_front_iff (hlt : data.length < tcpWindowSize) :
    n = data.length ↔ s.bit data.length = false := by
  have hn := hd.le_front hlt.le
  have hstore := (s.initBuffers garbage).store_bit_front s.rcvNxt data hlt.le data.length hlt
  rw [initBuffers_bit,decide_eq_false (lt_irrefl _),Bool.or_false] at hstore
  rw [← hstore]
  constructor
  · intro heq
    rw [← heq]
    exact hd.stop (by omega)
  · intro hclear
    by_contra hne
    rw [hd.run data.length (by omega)] at hclear
    cases hclear

end Front

theorem bufferSegment_cases (s : TcpStreamSession) (r : TcpRing) (seq : BitVec 32)
    (data : List UInt8) :
    (r.overlapConflict seq data = true ∧ s.bufferSegment r seq data = .conflict) ∨
      (r.overlapConflict seq data = false ∧ s.bufferSegment r seq data = .accepted { s with
        ring := some (r.store seq data)
        outOfOrderCount := s.outOfOrderCount + 1#16 } none) := by
  unfold bufferSegment
  cases h : r.overlapConflict seq data with
  | true => exact Or.inl ⟨rfl,rfl⟩
  | false => exact Or.inr ⟨rfl,rfl⟩

/-- The gap filler stores a segment at `rcv_nxt` and drains it. -/
theorem fillGap_cases (s : TcpStreamSession) (r : TcpRing) (data : List UInt8)
    (hpos : 0 < data.length) (hlen : data.length ≤ tcpWindowSize) :
    (r.overlapConflict s.rcvNxt data = true ∧ s.fillGap r s.rcvNxt data = .conflict) ∨
      (r.overlapConflict s.rcvNxt data = false ∧
        ∃ n t bytes, s.fillGap r s.rcvNxt data = .accepted t (some bytes) ∧
          s.Drained (r.store s.rcvNxt data) n t bytes) := by
  unfold fillGap
  cases h : r.overlapConflict s.rcvNxt data with
  | true => exact Or.inl ⟨rfl,rfl⟩
  | false =>
    have hbit : (r.store s.rcvNxt data).bit s.rcvNxt.toNat 0 = true := by
      rw [r.store_bit_front s.rcvNxt data hlen 0 (by decide)]
      simp [hpos]
    obtain ⟨n,t,bytes,hdrain,hspec⟩ := s.drain_spec _ hbit
    refine Or.inr ⟨rfl,n,t,bytes,?_,hspec⟩
    rw [hdrain]
    rfl

end TcpStreamSession

end Aethon
