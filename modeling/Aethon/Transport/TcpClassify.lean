import Aethon.Transport.TcpData

/-!
# The window check in exact arithmetic

The window check, the duplicate check and the trim of `process_packet` on machine words: 32-bit
sequence numbers, a 16-bit length and a comparison with the 64-bit window size. A segment
survives the two checks exactly when it lies in the window or reaches into it from behind, and
what is left of it then fits into the window.
-/

namespace Aethon

open Framework

/-- What the checks make of a segment; `trim` is the number of bytes that `cur_payload` moves
forward by. -/
inductive SegmentClass where
  | outOfWindow
  | duplicate
  | survives (curSeq trim : BitVec 32) (curLen : BitVec 16)
  deriving DecidableEq

/-- The first three steps of the data part of `process_packet`. -/
def classifySegment (rcvNxt seq : BitVec 32) (payloadLen : BitVec 16) : SegmentClass :=
  if (TcpSeq.diff seq rcvNxt + payloadLen.setWidth 32).toNat > tcpWindowSize then .outOfWindow
  else if TcpSeq.lte (seq + payloadLen.setWidth 32) rcvNxt then .duplicate
  else if TcpSeq.lt seq rcvNxt then
    let trim := rcvNxt - seq
    .survives rcvNxt trim ((payloadLen.setWidth 32 - trim).setWidth 16)
  else .survives seq 0 payloadLen

/-- How far `seq` lies ahead of `rcvNxt`, modulo the sequence space. -/
def seqDistance (rcvNxt seq : BitVec 32) : Nat := (2 ^ 32 + seq.toNat - rcvNxt.toNat) % 2 ^ 32

/-- What is left of a segment of `len` bytes that survives the checks. -/
structure Survivor (rcvNxt seq : BitVec 32) (len : Nat) (curSeq trim : BitVec 32)
    (curLen : BitVec 16) : Prop where
  nonempty : 1 ≤ curLen.toNat
  inside : trim.toNat < len
  exact_length : curLen.toNat + trim.toNat = len
  moved : curSeq = seq + trim
  fits : (curSeq - rcvNxt).toNat + curLen.toNat ≤ tcpWindowSize
  slots_distinct : ∀ i < curLen.toNat, ∀ j < curLen.toNat,
    slot tcpWindowSize curSeq.toNat i = slot tcpWindowSize curSeq.toNat j → i = j
  slots_inside : ∀ i < curLen.toNat, ∃ k < tcpWindowSize,
    curSeq + BitVec.ofNat 32 i = rcvNxt + BitVec.ofNat 32 k

theorem toNat_sub_eq_seqDistance (rcvNxt seq : BitVec 32) :
    (seq - rcvNxt).toNat = seqDistance rcvNxt seq := by
  have := rcvNxt.isLt
  rw [seqDistance,BitVec.toNat_sub]
  congr 1
  omega

theorem seqDistance_lt (rcvNxt seq : BitVec 32) : seqDistance rcvNxt seq < 2 ^ 32 :=
  Nat.mod_lt _ (by decide)

theorem toNat_sub_comm (rcvNxt seq : BitVec 32) (h : 0 < seqDistance rcvNxt seq) :
    (rcvNxt - seq).toNat = 2 ^ 32 - seqDistance rcvNxt seq := by
  have hback : rcvNxt - seq = -(seq - rcvNxt) := by
    rw [BitVec.neg_sub,BitVec.sub_eq_add_neg,BitVec.add_comm]
  rw [hback,BitVec.toNat_neg,toNat_sub_eq_seqDistance]
  have := seqDistance_lt rcvNxt seq
  omega

theorem toNat_setWidth_32 (len : BitVec 16) : (len.setWidth 32).toNat = len.toNat := by
  have := len.isLt
  rw [BitVec.toNat_setWidth]
  omega

/-- Where a segment ends, relative to `rcvNxt`. -/
theorem seqDistance_add (rcvNxt seq : BitVec 32) (len : BitVec 16) :
    seqDistance rcvNxt (seq + len.setWidth 32) =
      (seqDistance rcvNxt seq + len.toNat) % 2 ^ 32 := by
  have hcomm : seq + len.setWidth 32 - rcvNxt = seq - rcvNxt + len.setWidth 32 := by
    rw [BitVec.sub_eq_add_neg,BitVec.sub_eq_add_neg,BitVec.add_assoc,BitVec.add_assoc,
      BitVec.add_comm (len.setWidth 32)]
  rw [← toNat_sub_eq_seqDistance,hcomm,BitVec.toNat_add,toNat_sub_eq_seqDistance,
    toNat_setWidth_32]

/-- The checks as inequalities between natural numbers. -/
theorem classifySegment_eq (rcvNxt seq : BitVec 32) (len : BitVec 16) :
    classifySegment rcvNxt seq len =
      if (seqDistance rcvNxt seq + len.toNat) % 2 ^ 32 > 65536 then .outOfWindow
      else if (seqDistance rcvNxt seq + len.toNat) % 2 ^ 32 = 0 then .duplicate
      else if 2 ^ 31 ≤ seqDistance rcvNxt seq then
        .survives rcvNxt (rcvNxt - seq) ((len.setWidth 32 - (rcvNxt - seq)).setWidth 16)
      else .survives seq 0 len := by
  unfold classifySegment
  simp only [TcpSeq.lte_eq,TcpSeq.lt_eq,TcpSeq.diff,BitVec.toNat_add,toNat_sub_eq_seqDistance,
    seqDistance_add,toNat_setWidth_32,tcpWindowSize,decide_eq_true_eq]
  split_ifs with h1 h2 h3 <;> first | rfl | omega

theorem slot_injOn (base : Nat) {n i j : Nat} (hn : n ≤ tcpWindowSize) (hi : i < n) (hj : j < n)
    (h : slot tcpWindowSize base i = slot tcpWindowSize base j) : i = j := by
  rw [← ringDist_slot tcpWindowSize base i (by omega),h,
    ringDist_slot tcpWindowSize base j (by omega)]

/-- The positions of a segment that starts `off` positions after `rcvNxt`. -/
theorem add_ofNat_inside {rcvNxt curSeq : BitVec 32} {n i : Nat}
    (hfits : (curSeq - rcvNxt).toNat + n ≤ tcpWindowSize) (hi : i < n) :
    ∃ k < tcpWindowSize, curSeq + BitVec.ofNat 32 i = rcvNxt + BitVec.ofNat 32 k := by
  refine ⟨(curSeq - rcvNxt).toNat + i,by omega,?_⟩
  have hseq : rcvNxt + (curSeq - rcvNxt) = curSeq := by
    rw [BitVec.add_comm,BitVec.sub_add_cancel]
  rw [BitVec.ofNat_add,BitVec.ofNat_toNat,BitVec.setWidth_eq,← BitVec.add_assoc,hseq]

theorem Survivor.of_fits {rcvNxt seq curSeq trim : BitVec 32} {len : Nat} {curLen : BitVec 16}
    (hpos : 1 ≤ curLen.toNat) (hlen : curLen.toNat + trim.toNat = len)
    (hmoved : curSeq = seq + trim)
    (hfits : (curSeq - rcvNxt).toNat + curLen.toNat ≤ tcpWindowSize) :
    Survivor rcvNxt seq len curSeq trim curLen where
  nonempty := hpos
  inside := by omega
  exact_length := hlen
  moved := hmoved
  fits := hfits
  slots_distinct := fun _ hi _ hj => slot_injOn _ (by omega) hi hj
  slots_inside := fun _ hi => add_ofNat_inside hfits hi

/-- A segment in the window is left as it is. -/
theorem classifySegment_ahead (rcvNxt seq : BitVec 32) (len : BitVec 16) (hpos : 1 ≤ len.toNat)
    (h : seqDistance rcvNxt seq + len.toNat ≤ 65536) :
    classifySegment rcvNxt seq len = .survives seq 0 len ∧
      Survivor rcvNxt seq len.toNat seq 0 len := by
  constructor
  · rw [classifySegment_eq,if_neg (by omega),if_neg (by omega),if_neg (by omega)]
  · apply Survivor.of_fits hpos (by simp) (by simp)
    rw [toNat_sub_eq_seqDistance]
    exact h

/-- A segment that reaches over `rcvNxt` from behind is cut there. -/
theorem classifySegment_behind (rcvNxt seq : BitVec 32) (len : BitVec 16)
    (h : 2 ^ 32 < seqDistance rcvNxt seq + len.toNat) :
    ∃ curLen, classifySegment rcvNxt seq len = .survives rcvNxt (rcvNxt - seq) curLen ∧
      Survivor rcvNxt seq len.toNat rcvNxt (rcvNxt - seq) curLen := by
  have hd := seqDistance_lt rcvNxt seq
  have hlt := len.isLt
  have htrim := toNat_sub_comm rcvNxt seq (by omega)
  have hcur : ((len.setWidth 32 - (rcvNxt - seq)).setWidth 16).toNat =
      len.toNat - (2 ^ 32 - seqDistance rcvNxt seq) := by
    rw [BitVec.toNat_setWidth,BitVec.toNat_sub,toNat_setWidth_32,htrim]
    omega
  refine ⟨(len.setWidth 32 - (rcvNxt - seq)).setWidth 16,?_,?_⟩
  · rw [classifySegment_eq,if_neg (by omega),if_neg (by omega),if_pos (by omega)]
  · apply Survivor.of_fits
    · rw [hcur]
      omega
    · rw [hcur,htrim]
      omega
    · rw [BitVec.add_comm,BitVec.sub_add_cancel]
    · rw [BitVec.sub_self,BitVec.toNat_zero,hcur,tcpWindowSize]
      omega

/-- The rest of the sequence space is rejected. -/
theorem classifySegment_rejected (rcvNxt seq : BitVec 32) (len : BitVec 16)
    (hahead : ¬seqDistance rcvNxt seq + len.toNat ≤ 65536)
    (hbehind : ¬2 ^ 32 < seqDistance rcvNxt seq + len.toNat) :
    classifySegment rcvNxt seq len = .outOfWindow ∨
      classifySegment rcvNxt seq len = .duplicate := by
  rw [classifySegment_eq]
  by_cases hend : seqDistance rcvNxt seq + len.toNat = 2 ^ 32
  · right
    rw [if_neg (by omega),if_pos (by omega)]
  · left
    rw [if_pos (by omega)]

namespace TcpStreamSession

/-- The segment passes the window check and the duplicate check of `process_packet`. -/
def Survives (s : TcpStreamSession) (seq : BitVec 32) (payload : List UInt8)
    (garbage : Nat → UInt8) : Prop :=
  s.receiveData seq payload garbage ≠ .outOfWindow ∧
    s.receiveData seq payload garbage ≠ .duplicate

theorem deliver_accepts (s : TcpStreamSession) (curPayload : List UInt8) :
    s.deliver curPayload ≠ .outOfWindow ∧ s.deliver curPayload ≠ .duplicate := by
  simp [deliver]

theorem bufferSegment_accepts (s : TcpStreamSession) (r : TcpRing) (curSeq : BitVec 32)
    (curPayload : List UInt8) :
    s.bufferSegment r curSeq curPayload ≠ .outOfWindow ∧
      s.bufferSegment r curSeq curPayload ≠ .duplicate := by
  unfold bufferSegment
  split_ifs <;> simp

theorem fillGap_accepts (s : TcpStreamSession) (r : TcpRing) (curSeq : BitVec 32)
    (curPayload : List UInt8) :
    s.fillGap r curSeq curPayload ≠ .outOfWindow ∧
      s.fillGap r curSeq curPayload ≠ .duplicate := by
  unfold fillGap
  split_ifs <;> simp

theorem ofNat_setWidth {n : Nat} (hn : n < 65536) :
    (BitVec.ofNat 16 n).setWidth 32 = BitVec.ofNat 32 n := by
  apply BitVec.eq_of_toNat_eq
  rw [toNat_setWidth_32,BitVec.toNat_ofNat,BitVec.toNat_ofNat]
  omega

variable {s : TcpStreamSession} {seq : BitVec 32} {payload : List UInt8}

theorem survives_iff_inWindow (hpos : 0 < payload.length) (hlen : payload.length < 65536)
    (garbage : Nat → UInt8) :
    s.Survives seq payload garbage ↔ s.inWindow seq payload = true := by
  constructor
  · rintro ⟨hwindow,hdup⟩
    by_contra hout
    rcases receiveData_outside (by simpa using hout) garbage with h | h
    · exact hwindow h
    · exact hdup h
  · intro hin
    obtain ⟨off,k,hplaced⟩ := s.inWindow_placed seq payload hpos hlen hin
    rw [Survives,receiveData_placed hplaced hin]
    split_ifs
    · exact deliver_accepts ..
    · exact bufferSegment_accepts ..
    · exact fillGap_accepts ..

/-- The session's checks and trim are those on machine words. -/
theorem classifySegment_inWindow (hlen : payload.length < 65536)
    (hin : s.inWindow seq payload = true) :
    ∃ trim curLen, classifySegment s.rcvNxt seq (BitVec.ofNat 16 payload.length) =
        .survives (s.trim seq payload).1 trim curLen ∧
      (s.trim seq payload).2 = payload.drop trim.toNat := by
  simp only [inWindow,Bool.and_eq_true,decide_eq_true_eq,Bool.not_eq_true'] at hin
  unfold classifySegment
  rw [ofNat_setWidth hlen,if_neg (not_lt.mpr hin.1),hin.2,if_neg (by simp)]
  unfold trim
  split_ifs
  · exact ⟨_,_,rfl,rfl⟩
  · exact ⟨_,_,rfl,by simp⟩

theorem classifySegment_outside (hlen : payload.length < 65536)
    (hout : s.inWindow seq payload = false) :
    classifySegment s.rcvNxt seq (BitVec.ofNat 16 payload.length) = .outOfWindow ∨
      classifySegment s.rcvNxt seq (BitVec.ofNat 16 payload.length) = .duplicate := by
  simp only [inWindow,Bool.and_eq_false_iff,decide_eq_false_iff_not,Bool.not_eq_false'] at hout
  unfold classifySegment
  rw [ofNat_setWidth hlen]
  split_ifs with hwindow hdup
  · exact Or.inl rfl
  · exact Or.inr rfl
  · rcases hout with h | h
    · exact absurd (not_le.mp h) hwindow
    · exact absurd h hdup
  · rcases hout with h | h
    · exact absurd (not_le.mp h) hwindow
    · exact absurd h hdup

/-- A segment survives the checks of `process_packet` exactly when it lies in the window or
reaches over `rcv_nxt` from behind, and what is then left of it is a nonempty part of the
payload that covers distinct ring slots inside the window. -/
theorem window_classification (s : TcpStreamSession) (seq : BitVec 32) (payload : List UInt8)
    (hpos : 1 ≤ payload.length) (hlen : payload.length ≤ 65535) (garbage : Nat → UInt8) :
    (s.Survives seq payload garbage ↔
      seqDistance s.rcvNxt seq + payload.length ≤ 65536 ∨
        2 ^ 32 < seqDistance s.rcvNxt seq + payload.length) ∧
    (s.Survives seq payload garbage → ∃ curSeq trim curLen,
      classifySegment s.rcvNxt seq (BitVec.ofNat 16 payload.length) =
        .survives curSeq trim curLen ∧
      s.trim seq payload = (curSeq,payload.drop trim.toNat) ∧
      Survivor s.rcvNxt seq payload.length curSeq trim curLen) := by
  have hword : (BitVec.ofNat 16 payload.length).toNat = payload.length := by
    rw [BitVec.toNat_ofNat]
    omega
  have hahead := classifySegment_ahead s.rcvNxt seq (BitVec.ofNat 16 payload.length)
  have hbehind := classifySegment_behind s.rcvNxt seq (BitVec.ofNat 16 payload.length)
  have hrejected := classifySegment_rejected s.rcvNxt seq (BitVec.ofNat 16 payload.length)
  rw [hword] at hahead hbehind hrejected
  rw [survives_iff_inWindow hpos (by omega)]
  by_cases hin : s.inWindow seq payload = true
  · obtain ⟨trim,curLen,hclass,hdrop⟩ := classifySegment_inWindow (by omega) hin
    have hplaced : Survivor s.rcvNxt seq payload.length (s.trim seq payload).1 trim curLen ∧
        (seqDistance s.rcvNxt seq + payload.length ≤ 65536 ∨
          2 ^ 32 < seqDistance s.rcvNxt seq + payload.length) := by
      by_cases h1 : seqDistance s.rcvNxt seq + payload.length ≤ 65536
      · obtain ⟨heq,hsurvivor⟩ := hahead hpos h1
        obtain ⟨hseq,rfl,rfl⟩ := SegmentClass.survives.inj (hclass.symm.trans heq)
        rw [hseq]
        exact ⟨hsurvivor,Or.inl h1⟩
      · by_cases h2 : 2 ^ 32 < seqDistance s.rcvNxt seq + payload.length
        · obtain ⟨_,heq,hsurvivor⟩ := hbehind h2
          obtain ⟨hseq,rfl,rfl⟩ := SegmentClass.survives.inj (hclass.symm.trans heq)
          rw [hseq]
          exact ⟨hsurvivor,Or.inr h2⟩
        · have hout := hrejected h1 h2
          simp [hclass] at hout
    refine ⟨iff_of_true hin hplaced.2,fun _ => ⟨_,trim,curLen,hclass,?_,hplaced.1⟩⟩
    rw [← hdrop]
  · have hfalse : s.inWindow seq payload = false := by simpa using hin
    have hout := classifySegment_outside (by omega) hfalse
    refine ⟨iff_of_false hin ?_,fun h => absurd h hin⟩
    rintro (h | h)
    · simp [(hahead hpos h).1] at hout
    · obtain ⟨_,heq,_⟩ := hbehind h
      simp [heq] at hout

/-- Two bytes, the first of them already received, with sequence numbers around the wrap. -/
theorem window_classification_overlap :
    (TcpStreamSession.Survives { rcvNxt := 0 } 0xFFFFFFFF [65,66] fun _ => 0) ∧
      TcpStreamSession.trim { rcvNxt := 0 } 0xFFFFFFFF [65,66] = (0,[66]) := by
  obtain ⟨hsurvives,_⟩ := window_classification { rcvNxt := 0 } 0xFFFFFFFF [65,66]
    (by decide) (by decide) fun _ => 0
  exact ⟨hsurvives.mpr (Or.inr (by decide)),rfl⟩

end TcpStreamSession

end Aethon
