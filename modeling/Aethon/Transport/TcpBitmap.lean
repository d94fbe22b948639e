import Aethon.Framework.Loop
import Aethon.Transport.TcpRing

/-!
# The bitmap as a set of ring positions

The four operations on the bitmap, stated on single bits: which bits a range covers, which of
them an operation changes, and what it reports about them. Their loops are also given round by
round, and come to an end.
-/

namespace Aethon.TcpRing

open Framework

/-- Position `p` is one of the `count` ring positions from `start` on. -/
def InRange (start count p : Nat) : Prop := ∃ i < count, slot tcpWindowSize start i = p

/-- One round of the loop of `set_bitmap_range` and `clear_bitmap_range`. -/
def updateRound (apply : BitVec 64 → BitVec 64 → BitVec 64) :
    (Nat → BitVec 64) × Nat × Nat → Round ((Nat → BitVec 64) × Nat × Nat) (Nat → BitVec 64)
  | (bitmap,start,count) =>
      if count > 0 then
        let wordIdx := start >>> 6
        let n := bitsInWord start count
        .next (Function.update bitmap wordIdx (apply (bitmap wordIdx) (rangeMask start count)),
          (start + n) &&& 0xFFFF,count - n)
      else .leave bitmap

/-- One round of the loop of `is_range_set`. -/
def scanRound (bitmap : Nat → BitVec 64) : Nat × Nat → Round (Nat × Nat) Bool
  | (start,count) =>
      if count > 0 then
        if bitmap (start >>> 6) &&& rangeMask start count ≠ 0#64 then .leave true
        else
          let n := bitsInWord start count
          .next ((start + n) &&& 0xFFFF,count - n)
      else .leave false

/-- One round of the loop of `count_continuous_bytes`. -/
def countRound (bitmap : Nat → BitVec 64) (startSeq maxBytes assembled : Nat) : Round Nat Nat :=
  if assembled < maxBytes then
    let idx := (startSeq + assembled) &&& 0xFFFF
    let bitOffset := idx &&& 63
    let word := bitmap (idx >>> 6) >>> bitOffset
    if word &&& 1#64 = 0#64 then .leave assembled
    else
      let contiguous := runInWord word bitOffset
      let contiguous :=
        if assembled + contiguous > maxBytes then maxBytes - assembled else contiguous
      if contiguous < 64 - bitOffset then .leave (assembled + contiguous)
      else .next (assembled + contiguous)
  else .leave assembled

theorem updateRange_leaves (apply : BitVec 64 → BitVec 64 → BitVec 64)
    (bitmap : Nat → BitVec 64) (start count : Nat) :
    Leaves (updateRound apply) (bitmap,start,count)
      (updateRange apply count bitmap start count) := by
  refine Leaves.of_fuel (fun fuel s => updateRange apply fuel s.1 s.2.1 s.2.2)
    (fun s => s.2.2) ?_ count (bitmap,start,count) le_rfl
  rintro fuel ⟨bm,st,c⟩ hfuel
  dsimp only at hfuel
  by_cases hc : c = 0
  · left
    cases fuel with
    | zero => simp [updateRound,updateRange,hc]
    | succ fuel => simp [updateRound,updateRange,hc]
  · have hpos : 0 < c := by omega
    obtain ⟨hn,_,_⟩ := bitsInWord_bounds st c hpos
    right
    obtain ⟨rest,rfl⟩ : ∃ rest, fuel = rest + 1 := ⟨fuel - 1,by omega⟩
    refine ⟨rest,_,rfl,by rw [updateRound,if_pos hpos],?_,?_⟩
    · rw [updateRange,if_neg hc]
    · dsimp only
      omega

theorem scanRange_leaves (bitmap : Nat → BitVec 64) (start count : Nat) :
    Leaves (scanRound bitmap) (start,count) (scanRange bitmap count start count) := by
  refine Leaves.of_fuel (fun fuel s => scanRange bitmap fuel s.1 s.2) (fun s => s.2) ?_ count
    (start,count) le_rfl
  rintro fuel ⟨st,c⟩ hfuel
  dsimp only at hfuel
  by_cases hc : c = 0
  · left
    cases fuel with
    | zero => simp [scanRound,scanRange,hc]
    | succ fuel => simp [scanRound,scanRange,hc]
  · have hpos : 0 < c := by omega
    obtain ⟨hn,_,_⟩ := bitsInWord_bounds st c hpos
    obtain ⟨rest,rfl⟩ : ∃ rest, fuel = rest + 1 := ⟨fuel - 1,by omega⟩
    by_cases hset : bitmap (st >>> 6) &&& rangeMask st c ≠ 0#64
    · left
      rw [scanRound,if_pos hpos,if_pos hset,scanRange,if_neg hc,if_pos hset]
    · right
      refine ⟨rest,_,rfl,by rw [scanRound,if_pos hpos,if_neg hset],?_,?_⟩
      · rw [scanRange,if_neg hc,if_neg hset]
      · dsimp only
        omega

theorem countFrom_leaves (bitmap : Nat → BitVec 64) (startSeq maxBytes : Nat) :
    Leaves (countRound bitmap startSeq maxBytes) 0
      (countFrom bitmap startSeq maxBytes maxBytes 0) := by
  refine Leaves.of_fuel (fun fuel s => countFrom bitmap startSeq maxBytes fuel s)
    (fun s => maxBytes - s) ?_ maxBytes 0 (Nat.sub_le ..)
  intro fuel assembled hfuel
  by_cases hlt : assembled < maxBytes
  · obtain ⟨rest,rfl⟩ : ∃ rest, fuel = rest + 1 := ⟨fuel - 1,by omega⟩
    simp only [countRound,countFrom,if_pos hlt]
    generalize hoff : (startSeq + assembled &&& 0xFFFF) &&& 63 = bitOffset
    have hword : bitOffset < 64 := by
      rw [← hoff,and_63]
      exact Nat.mod_lt _ (by decide)
    split_ifs with hhole hmax hlast hlast
    · exact Or.inl rfl
    · exact Or.inl rfl
    · refine Or.inr ⟨rest,_,rfl,rfl,rfl,?_⟩
      omega
    · exact Or.inl rfl
    · refine Or.inr ⟨rest,_,rfl,rfl,rfl,?_⟩
      omega
  · left
    cases fuel with
    | zero => simp [countRound,countFrom,hlt]
    | succ fuel => simp [countRound,countFrom,hlt]

theorem inRange_iff (start count p : Nat) (hcount : count ≤ tcpWindowSize) :
    InRange start count p ↔ p < 65536 ∧ ringDist 65536 (start % 65536) p < count := by
  unfold tcpWindowSize at hcount
  constructor
  · rintro ⟨i,hi,rfl⟩
    refine ⟨slot_lt _ _ _ (by decide),?_⟩
    rw [tcpWindowSize,ringDist_slot 65536 start i (by omega)]
    exact hi
  · rintro ⟨hp,hd⟩
    exact ⟨_,hd,slot_ringDist 65536 start p hp⟩

/-- The words behind the end of the bitmap are not written. -/
theorem updateRange_beyond (apply : BitVec 64 → BitVec 64 → BitVec 64) (fuel : Nat)
    (bitmap : Nat → BitVec 64) (start count : Nat) (hstart : start < 65536) (i : Nat)
    (hi : 65536 ≤ i) : bitAt (updateRange apply fuel bitmap start count) i = bitAt bitmap i := by
  induction fuel generalizing bitmap start count with
  | zero => rfl
  | succ fuel ih =>
    rw [updateRange]
    split_ifs with hc
    · rfl
    · simp only [and_ffff,shiftRight_6]
      rw [ih _ _ _ (Nat.mod_lt _ (by decide)),bitAt_update,if_neg (by omega)]

theorem setBitmapRange_iff (r : TcpRing) (start count : Nat) (hcount : count ≤ tcpWindowSize)
    (p : Nat) :
    bitAt (r.setBitmapRange start count).bitmap p = true ↔
      InRange start count p ∨ bitAt r.bitmap p = true := by
  rw [inRange_iff start count p hcount]
  by_cases hp : p < 65536
  · rw [setBitmapRange_bitAt r start count hcount p hp]
    split_ifs with hin <;> simp [hp,hin]
  · rw [setBitmapRange,and_ffff,
      updateRange_beyond _ _ _ _ _ (Nat.mod_lt _ (by decide)) p (by omega)]
    simp [hp]

theorem clearBitmapRange_iff (r : TcpRing) (start count : Nat) (hcount : count ≤ tcpWindowSize)
    (p : Nat) :
    bitAt (r.clearBitmapRange start count).bitmap p = true ↔
      ¬InRange start count p ∧ bitAt r.bitmap p = true := by
  rw [inRange_iff start count p hcount]
  by_cases hp : p < 65536
  · rw [clearBitmapRange_bitAt r start count hcount p hp]
    split_ifs with hin <;> simp [hp,hin]
  · rw [clearBitmapRange,and_ffff,
      updateRange_beyond _ _ _ _ _ (Nat.mod_lt _ (by decide)) p (by omega)]
    simp [hp]

theorem isRangeSet_inRange (r : TcpRing) (start count : Nat) (hcount : count ≤ tcpWindowSize) :
    r.isRangeSet start count = true ↔ ∃ p, InRange start count p ∧ bitAt r.bitmap p = true := by
  rw [isRangeSet_iff r start count hcount]
  simp only [inRange_iff start count _ hcount,and_assoc]

/-- The count is the length of the longest run of set bits from `base` on. -/
theorem countContinuousBytes_isGreatest (r : TcpRing) (base maxBytes : Nat) :
    IsGreatest {n | n ≤ maxBytes ∧ ∀ i < n, bitAt r.bitmap (slot tcpWindowSize base i) = true}
      (r.countContinuousBytes base maxBytes) := by
  obtain ⟨hle,hset,hclear⟩ := r.countContinuousBytes_spec base maxBytes
  refine ⟨⟨hle,hset⟩,?_⟩
  rintro n ⟨hn,hbits⟩
  by_contra hlt
  push Not at hlt
  have hbit := hbits _ hlt
  have hstop := hclear (by omega)
  rw [bit] at hstop
  rw [hstop] at hbit
  cases hbit

/-- The loops of the four operations come to an end, with the value of the operation. -/
structure RangeLoops (r : TcpRing) (start count : Nat) : Prop where
  set : Leaves (updateRound fun w m => w ||| m) (r.bitmap,start &&& 0xFFFF,count)
    (r.setBitmapRange start count).bitmap
  clear : Leaves (updateRound fun w m => w &&& ~~~m) (r.bitmap,start &&& 0xFFFF,count)
    (r.clearBitmapRange start count).bitmap
  scan : Leaves (scanRound r.bitmap) (start &&& 0xFFFF,count) (r.isRangeSet start count)
  count : Leaves (countRound r.bitmap start count) 0 (r.countContinuousBytes start count)

theorem rangeLoops (r : TcpRing) (start count : Nat) : RangeLoops r start count where
  set := updateRange_leaves ..
  clear := updateRange_leaves ..
  scan := by
    have hleaves := scanRange_leaves r.bitmap (start &&& 0xFFFF) count
    unfold isRangeSet
    split_ifs with hc
    · rw [hc] at hleaves ⊢
      exact hleaves
    · exact hleaves
  count := countFrom_leaves ..

/-- The bitmap operations on the `count` positions from `start` on: setting and clearing change
exactly their bits, the test finds one set bit among them, the count is the longest run of set
bits at their beginning, and all four loops end. -/
theorem bitmap_operations (r : TcpRing) (start count : Nat) (hcount : count ≤ tcpWindowSize) :
    (∀ p, bitAt (r.setBitmapRange start count).bitmap p = true ↔
      InRange start count p ∨ bitAt r.bitmap p = true) ∧
    (∀ p, bitAt (r.clearBitmapRange start count).bitmap p = true ↔
      ¬InRange start count p ∧ bitAt r.bitmap p = true) ∧
    (r.isRangeSet start count = true ↔ ∃ p, InRange start count p ∧ bitAt r.bitmap p = true) ∧
    IsGreatest {n | n ≤ count ∧ ∀ i < n, bitAt r.bitmap (slot tcpWindowSize start i) = true}
      (r.countContinuousBytes start count) ∧
    RangeLoops r start count :=
  ⟨r.setBitmapRange_iff start count hcount,r.clearBitmapRange_iff start count hcount,
    r.isRangeSet_inRange start count hcount,r.countContinuousBytes_isGreatest start count,
    r.rangeLoops start count⟩

/-- An empty ring. -/
def blank : TcpRing := ⟨fun _ => 0#64,fun _ => 0⟩

theorem bitmap_operations_wrapping :
    bitAt (blank.setBitmapRange 65530 100).bitmap 3 = true ∧
      ¬bitAt (blank.setBitmapRange 65530 100).bitmap 94 = true := by
  obtain ⟨hset,_⟩ := bitmap_operations blank 65530 100 (by decide)
  rw [hset,hset]
  refine ⟨Or.inl ⟨9,by decide,rfl⟩,?_⟩
  rintro (⟨i,hi,hslot⟩ | hbit)
  · rw [slot,tcpWindowSize] at hslot
    omega
  · cases hbit

end Aethon.TcpRing
