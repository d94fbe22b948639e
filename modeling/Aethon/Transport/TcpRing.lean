import Aethon.Framework.BitWords
import Aethon.Framework.ByteBuffer
import Aethon.Framework.Cyclic

/-!
# The TCP reassembly ring

A 64 KiB ring of bytes and a bitmap with one bit for each of them, both addressed by the low
16 bits of a sequence number. The loops over the bitmap work on one word at a time.
-/

namespace Aethon

open Framework

def tcpWindowSize : Nat := 65536

structure TcpRing where
  bitmap : Nat → BitVec 64
  ringBuf : Nat → UInt8

namespace TcpRing

def writeRingBuffer (r : TcpRing) (start : Nat) (data : List UInt8) : TcpRing :=
  let start := start &&& 0xFFFF
  if start + data.length > tcpWindowSize then
    let first := tcpWindowSize - start
    { r with
      ringBuf := copyBytes (copyBytes r.ringBuf start data 0 first) 0 data first
        (data.length - first) }
  else { r with ringBuf := copyBytes r.ringBuf start data 0 data.length }

def readRingBuffer (r : TcpRing) (start len : Nat) : List UInt8 :=
  let start := start &&& 0xFFFF
  if start + len > tcpWindowSize then
    let first := tcpWindowSize - start
    readBytes r.ringBuf start first ++ readBytes r.ringBuf 0 (len - first)
  else readBytes r.ringBuf start len

/-- Number of bits of a range that lie in the word of its first bit. -/
def bitsInWord (start count : Nat) : Nat :=
  if count < 64 - (start &&& 63) then count else 64 - (start &&& 63)

def rangeMask (start count : Nat) : BitVec 64 :=
  lowMask (bitsInWord start count) <<< (start &&& 63)

/-- The loop of `set_bitmap_range` and `clear_bitmap_range`, which differ in how the mask is
applied to a word. Each round covers at least one bit, so `count` rounds are enough. -/
def updateRange (apply : BitVec 64 → BitVec 64 → BitVec 64) :
    Nat → (Nat → BitVec 64) → Nat → Nat → (Nat → BitVec 64)
  | 0, bitmap, _, _ => bitmap
  | fuel + 1, bitmap, start, count =>
      if count = 0 then bitmap
      else
        let wordIdx := start >>> 6
        let n := bitsInWord start count
        updateRange apply fuel
          (Function.update bitmap wordIdx (apply (bitmap wordIdx) (rangeMask start count)))
          ((start + n) &&& 0xFFFF) (count - n)

def setBitmapRange (r : TcpRing) (start count : Nat) : TcpRing :=
  { r with bitmap := updateRange (fun w m => w ||| m) count r.bitmap (start &&& 0xFFFF) count }

def clearBitmapRange (r : TcpRing) (start count : Nat) : TcpRing :=
  { r with bitmap := updateRange (fun w m => w &&& ~~~m) count r.bitmap (start &&& 0xFFFF) count }

/-- The loop of `is_range_set`. -/
def scanRange (bitmap : Nat → BitVec 64) : Nat → Nat → Nat → Bool
  | 0, _, _ => false
  | fuel + 1, start, count =>
      if count = 0 then false
      else if bitmap (start >>> 6) &&& rangeMask start count ≠ 0#64 then true
      else
        let n := bitsInWord start count
        scanRange bitmap fuel ((start + n) &&& 0xFFFF) (count - n)

def isRangeSet (r : TcpRing) (start count : Nat) : Bool :=
  if count = 0 then false else scanRange r.bitmap count (start &&& 0xFFFF) count

/-- `__builtin_ctzll` of a nonzero word. -/
def ctz (w : BitVec 64) : Nat := ((List.range 64).find? fun j => w.getLsbD j).getD 64

/-- The run of set bits in one word from bit `bitOffset` on. -/
def runInWord (word : BitVec 64) (bitOffset : Nat) : Nat :=
  let inverted := ~~~word
  let contiguous := if inverted = 0#64 then 64 - bitOffset else ctz inverted
  if contiguous > 64 - bitOffset then 64 - bitOffset else contiguous

/-- The loop of `count_continuous_bytes`. -/
def countFrom (bitmap : Nat → BitVec 64) (startSeq maxBytes : Nat) : Nat → Nat → Nat
  | 0, assembled => assembled
  | fuel + 1, assembled =>
      if assembled < maxBytes then
        let idx := (startSeq + assembled) &&& 0xFFFF
        let bitOffset := idx &&& 63
        let word := bitmap (idx >>> 6) >>> bitOffset
        if word &&& 1#64 = 0#64 then assembled
        else
          let contiguous := runInWord word bitOffset
          let contiguous :=
            if assembled + contiguous > maxBytes then maxBytes - assembled else contiguous
          if contiguous < 64 - bitOffset then assembled + contiguous
          else countFrom bitmap startSeq maxBytes fuel (assembled + contiguous)
      else assembled

def countContinuousBytes (r : TcpRing) (startSeq maxBytes : Nat) : Nat :=
  countFrom r.bitmap startSeq maxBytes maxBytes 0

/-- The bit and the byte of the ring at a position after a sequence number. -/
def bit (r : TcpRing) (base off : Nat) : Bool := bitAt r.bitmap (slot tcpWindowSize base off)

def byte (r : TcpRing) (base off : Nat) : UInt8 := r.ringBuf (slot tcpWindowSize base off)

theorem and_ffff (x : Nat) : x &&& 0xFFFF = x % 65536 := Nat.and_two_pow_sub_one_eq_mod x 16

theorem and_63 (x : Nat) : x &&& 63 = x % 64 := Nat.and_two_pow_sub_one_eq_mod x 6

theorem shiftRight_6 (x : Nat) : x >>> 6 = x / 64 := Nat.shiftRight_eq_div_pow x 6

theorem writeRingBuffer_byte (r : TcpRing) (start : Nat) (data : List UInt8)
    (hlen : data.length ≤ tcpWindowSize) (i : Nat) (hi : i < tcpWindowSize) :
    (r.writeRingBuffer start data).byte start i =
      if i < data.length then data.getD i 0 else r.byte start i := by
  unfold tcpWindowSize at hlen hi
  unfold writeRingBuffer
  simp only [and_ffff,byte,slot,tcpWindowSize]
  split_ifs with hwrap hlt hlt
  all_goals
    simp only [copyBytes]
    split_ifs
    all_goals first | omega | (congr 1; omega) | rfl

@[simp] theorem writeRingBuffer_bitmap (r : TcpRing) (start : Nat) (data : List UInt8) :
    (r.writeRingBuffer start data).bitmap = r.bitmap := by
  simp only [writeRingBuffer]
  split_ifs <;> rfl

theorem readRingBuffer_eq (r : TcpRing) (start len : Nat) (hlen : len ≤ tcpWindowSize) :
    r.readRingBuffer start len = (List.range len).map fun i => r.byte start i := by
  unfold tcpWindowSize at hlen
  symm
  apply map_range_eq
  · simp only [readRingBuffer,tcpWindowSize,and_ffff]
    split_ifs
    · simp
      omega
    · simp
  · intro i hi
    simp only [readRingBuffer,tcpWindowSize,and_ffff,byte,slot]
    split_ifs with hwrap
    · by_cases hfirst : i < 65536 - start % 65536
      · rw [List.getElem?_append_left (by simpa using hfirst),getElem?_readBytes,if_pos hfirst]
        congr 2
        omega
      · rw [List.getElem?_append_right (by simpa using hfirst),getElem?_readBytes,
          if_pos (by simp; omega)]
        congr 2
        simp only [readBytes_length]
        omega
    · rw [getElem?_readBytes,if_pos hi]
      congr 2
      omega

theorem bitsInWord_bounds (start count : Nat) (hc : 0 < count) :
    0 < bitsInWord start count ∧ bitsInWord start count ≤ count ∧
      start % 64 + bitsInWord start count ≤ 64 := by
  unfold bitsInWord
  rw [and_63]
  split_ifs <;> omega

theorem getLsbD_rangeMask_start (start count j : Nat) (hc : 0 < count) (hj : j < 64) :
    (rangeMask start count).getLsbD j =
      decide (start % 64 ≤ j ∧ j < start % 64 + bitsInWord start count) := by
  rw [rangeMask,and_63]
  exact getLsbD_rangeMask _ _ _ (bitsInWord_bounds start count hc).2.2 hj

/-- The part of a circular range that lies in its first word, and the rest. -/
theorem range_split (start count i : Nat) (hstart : start < 65536) (hc : 0 < count)
    (hcount : count ≤ 65536) (hi : i < 65536) :
    ringDist 65536 start i < count ↔
      (i / 64 = start / 64 ∧ start % 64 ≤ i % 64 ∧
        i % 64 < start % 64 + bitsInWord start count) ∨
      ringDist 65536 ((start + bitsInWord start count) % 65536) i <
        count - bitsInWord start count := by
  obtain ⟨hpos,hle,hword⟩ := bitsInWord_bounds start count hc
  generalize bitsInWord start count = n at *
  unfold ringDist
  split_ifs <;> omega

theorem updateRange_bit {apply : BitVec 64 → BitVec 64 → BitVec 64} {v : Bool}
    (happly : ∀ w m j, j < 64 →
      (apply w m).getLsbD j = if m.getLsbD j then v else w.getLsbD j)
    (fuel : Nat) (bitmap : Nat → BitVec 64) (start count : Nat) (hfuel : count ≤ fuel)
    (hstart : start < 65536) (hcount : count ≤ 65536) (i : Nat) (hi : i < 65536) :
    bitAt (updateRange apply fuel bitmap start count) i =
      if ringDist 65536 start i < count then v else bitAt bitmap i := by
  induction fuel generalizing bitmap start count with
  | zero =>
    have hzero : count = 0 := by omega
    simp [updateRange,hzero]
  | succ fuel ih =>
    by_cases hc : count = 0
    · simp [updateRange,hc]
    · have hpos : 0 < count := by omega
      obtain ⟨hn,hle,_⟩ := bitsInWord_bounds start count hpos
      have hsplit := range_split start count i hstart hpos hcount hi
      simp only [updateRange,hc,if_false,and_ffff,shiftRight_6]
      rw [ih _ _ _ (by omega) (by omega) (by omega),bitAt_update,
        happly _ _ _ (Nat.mod_lt i (by decide)),
        getLsbD_rangeMask_start _ _ _ hpos (Nat.mod_lt i (by decide))]
      by_cases hrest : ringDist 65536 ((start + bitsInWord start count) % 65536) i <
          count - bitsInWord start count
      · rw [if_pos hrest,if_pos (hsplit.mpr (Or.inr hrest))]
      · rw [if_neg hrest]
        by_cases hword : i / 64 = start / 64
        · rw [if_pos hword,← hword]
          by_cases hbits : start % 64 ≤ i % 64 ∧
              i % 64 < start % 64 + bitsInWord start count
          · rw [if_pos (hsplit.mpr (Or.inl ⟨hword,hbits⟩)),if_pos (by simpa using hbits)]
          · rw [if_neg (fun h => (hsplit.mp h).elim (fun h => hbits h.2) hrest),
              if_neg (by simpa using hbits)]
            rfl
        · rw [if_neg hword,if_neg fun h => (hsplit.mp h).elim (fun h => hword h.1) hrest]

theorem setBitmapRange_bitAt (r : TcpRing) (start count : Nat) (hcount : count ≤ 65536) (i : Nat)
    (hi : i < 65536) :
    bitAt (r.setBitmapRange start count).bitmap i =
      if ringDist 65536 (start % 65536) i < count then true else bitAt r.bitmap i := by
  rw [setBitmapRange,and_ffff]
  apply updateRange_bit _ _ _ _ _ le_rfl (Nat.mod_lt _ (by decide)) hcount i hi
  intro w m j _
  rw [BitVec.getLsbD_or]
  cases m.getLsbD j <;> simp

theorem clearBitmapRange_bitAt (r : TcpRing) (start count : Nat) (hcount : count ≤ 65536) (i : Nat)
    (hi : i < 65536) :
    bitAt (r.clearBitmapRange start count).bitmap i =
      if ringDist 65536 (start % 65536) i < count then false else bitAt r.bitmap i := by
  rw [clearBitmapRange,and_ffff]
  apply updateRange_bit _ _ _ _ _ le_rfl (Nat.mod_lt _ (by decide)) hcount i hi
  intro w m j hj
  rw [BitVec.getLsbD_and,BitVec.getLsbD_not]
  cases m.getLsbD j <;> simp [hj]

theorem scanRange_iff (bitmap : Nat → BitVec 64) (fuel start count : Nat) (hfuel : count ≤ fuel)
    (hstart : start < 65536) (hcount : count ≤ 65536) :
    scanRange bitmap fuel start count = true ↔
      ∃ i < 65536, ringDist 65536 start i < count ∧ bitAt bitmap i = true := by
  induction fuel generalizing start count with
  | zero =>
    have hzero : count = 0 := by omega
    simp [scanRange,hzero]
  | succ fuel ih =>
    by_cases hc : count = 0
    · simp [scanRange,hc]
    · have hpos : 0 < count := by omega
      obtain ⟨hn,hle,hword⟩ := bitsInWord_bounds start count hpos
      have hfirst : bitmap (start >>> 6) &&& rangeMask start count ≠ 0#64 ↔
          ∃ i < 65536, (i / 64 = start / 64 ∧ start % 64 ≤ i % 64 ∧
            i % 64 < start % 64 + bitsInWord start count) ∧ bitAt bitmap i = true := by
        rw [and_ne_zero_iff,shiftRight_6]
        constructor
        · intro hex
          obtain ⟨j,hj,hb,hm⟩ := hex
          rw [getLsbD_rangeMask_start _ _ _ hpos hj,decide_eq_true_eq] at hm
          have hdiv : (start / 64 * 64 + j) / 64 = start / 64 := by omega
          have hmod : (start / 64 * 64 + j) % 64 = j := by omega
          refine ⟨start / 64 * 64 + j,by omega,⟨hdiv,by omega,by omega⟩,?_⟩
          rw [bitAt,hdiv,hmod]
          exact hb
        · intro hex
          obtain ⟨i,_,⟨hdiv,hlo,hhi⟩,hb⟩ := hex
          refine ⟨i % 64,Nat.mod_lt _ (by decide),by rw [← hdiv]; exact hb,?_⟩
          rw [getLsbD_rangeMask_start _ _ _ hpos (Nat.mod_lt _ (by decide))]
          simp [hlo,hhi]
      have hih := ih ((start + bitsInWord start count) % 65536)
        (count - bitsInWord start count) (by omega) (Nat.mod_lt _ (by decide)) (by omega)
      simp only [scanRange,hc,if_false,and_ffff]
      split_ifs with hset
      · simp only [true_iff]
        obtain ⟨i,hi,hin,hb⟩ := hfirst.mp hset
        exact ⟨i,hi,(range_split start count i hstart hpos hcount hi).mpr (Or.inl hin),hb⟩
      · rw [hih]
        constructor
        · intro hex
          obtain ⟨i,hi,hin,hb⟩ := hex
          exact ⟨i,hi,(range_split start count i hstart hpos hcount hi).mpr (Or.inr hin),hb⟩
        · intro hex
          obtain ⟨i,hi,hin,hb⟩ := hex
          rcases (range_split start count i hstart hpos hcount hi).mp hin with h | h
          · exact absurd (hfirst.mpr ⟨i,hi,h,hb⟩) hset
          · exact ⟨i,hi,h,hb⟩

theorem isRangeSet_iff (r : TcpRing) (start count : Nat) (hcount : count ≤ 65536) :
    r.isRangeSet start count = true ↔
      ∃ i < 65536, ringDist 65536 (start % 65536) i < count ∧ bitAt r.bitmap i = true := by
  unfold isRangeSet
  split_ifs with hc
  · simp [hc]
  · rw [and_ffff]
    exact scanRange_iff _ _ _ _ le_rfl (Nat.mod_lt _ (by decide)) hcount

theorem ctz_below (w : BitVec 64) (j : Nat) (hj : j < ctz w) (hj64 : j < 64) :
    w.getLsbD j = false := by
  unfold ctz at hj
  cases hf : (List.range 64).find? (fun j => w.getLsbD j) with
  | none => simpa using List.find?_eq_none.mp hf j (by simpa using hj64)
  | some k =>
    rw [hf,Option.getD_some] at hj
    obtain ⟨_,as,bs,hsplit,hbefore⟩ := List.find?_eq_some_iff_append.mp hf
    have hk : as.length = k := by
      have hget := congrArg (fun l => l[as.length]?) hsplit
      have hlen := congrArg List.length hsplit
      simp only [List.length_range,List.length_append,List.length_cons] at hlen
      simp only [List.getElem?_append_right le_rfl,Nat.sub_self,List.getElem?_cons_zero] at hget
      rw [List.getElem?_range (by omega)] at hget
      exact Option.some.inj hget
    have hmem : j ∈ as := by
      have hget := congrArg (fun l => l[j]?) hsplit
      simp only [List.getElem?_append_left (show j < as.length by omega)] at hget
      rw [List.getElem?_range hj64] at hget
      exact List.mem_of_getElem? hget.symm
    simpa using hbefore j hmem

theorem ctz_set (w : BitVec 64) (h : ctz w < 64) : w.getLsbD (ctz w) = true := by
  unfold ctz at h ⊢
  cases hf : (List.range 64).find? (fun j => w.getLsbD j) with
  | none =>
    rw [hf,Option.getD_none] at h
    omega
  | some k => simpa [hf] using List.find?_some hf

/-- The run found in a word ends at a clear bit or at the end of the word. -/
theorem runInWord_spec (w : BitVec 64) (off : Nat) (hoff : off < 64) :
    runInWord (w >>> off) off ≤ 64 - off ∧
      (∀ j < runInWord (w >>> off) off, w.getLsbD (off + j) = true) ∧
      (runInWord (w >>> off) off < 64 - off →
        w.getLsbD (off + runInWord (w >>> off) off) = false) := by
  have hbit : ∀ j < 64, (~~~(w >>> off)).getLsbD j = !w.getLsbD (off + j) := by
    intro j hj
    rw [BitVec.getLsbD_not,BitVec.getLsbD_ushiftRight]
    simp [hj]
  unfold runInWord
  by_cases hz : ~~~(w >>> off) = 0#64
  · simp only [hz,if_true,lt_irrefl,if_false]
    refine ⟨le_rfl,?_,False.elim⟩
    intro j hj
    have hb := hbit j (by omega)
    rw [hz,BitVec.getLsbD_zero] at hb
    simpa using hb.symm
  · simp only [hz,if_false]
    have hrun : ∀ c, c ≤ ctz (~~~(w >>> off)) → c ≤ 64 - off →
        ∀ j < c, w.getLsbD (off + j) = true := by
      intro c hc hle j hj
      have hb := hbit j (by omega)
      rw [ctz_below _ j (by omega) (by omega)] at hb
      simpa using hb.symm
    split_ifs with hgt
    · exact ⟨le_rfl,hrun _ (by omega) le_rfl,fun h => absurd h (lt_irrefl _)⟩
    · refine ⟨by omega,hrun _ le_rfl (by omega),?_⟩
      intro hlt
      have hb := hbit _ (show ctz (~~~(w >>> off)) < 64 by omega)
      rw [ctz_set _ (by omega)] at hb
      simpa using hb.symm

/-- The bits of one word, seen as positions after `base`. -/
theorem bitAt_slot_word (bitmap : Nat → BitVec 64) (base a j : Nat)
    (hj : (base + a) % 65536 % 64 + j < 64) :
    bitAt bitmap (slot 65536 base (a + j)) =
      (bitmap ((base + a) % 65536 / 64)).getLsbD ((base + a) % 65536 % 64 + j) := by
  have hdiv : (base + (a + j)) % 65536 / 64 = (base + a) % 65536 / 64 := by omega
  have hmod : (base + (a + j)) % 65536 % 64 = (base + a) % 65536 % 64 + j := by omega
  rw [bitAt,slot,hdiv,hmod]

theorem word_and_one (w : BitVec 64) : w &&& 1#64 = 0#64 ↔ w.getLsbD 0 = false := by
  rw [← not_iff_not]
  change w &&& 1#64 ≠ 0#64 ↔ _
  rw [and_ne_zero_iff,Bool.not_eq_false]
  constructor
  · intro hex
    obtain ⟨j,_,hw,hone⟩ := hex
    rw [BitVec.getLsbD_one] at hone
    simp only [Nat.zero_lt_succ,decide_true,Bool.true_and,decide_eq_true_eq] at hone
    rwa [hone] at hw
  · intro hw
    exact ⟨0,by decide,hw,by decide⟩

theorem countFrom_spec (bitmap : Nat → BitVec 64) (base maxBytes fuel a : Nat)
    (ha : a ≤ maxBytes) (hfuel : maxBytes ≤ a + fuel) :
    a ≤ countFrom bitmap base maxBytes fuel a ∧
      countFrom bitmap base maxBytes fuel a ≤ maxBytes ∧
      (∀ i, a ≤ i → i < countFrom bitmap base maxBytes fuel a →
        bitAt bitmap (slot 65536 base i) = true) ∧
      (countFrom bitmap base maxBytes fuel a < maxBytes →
        bitAt bitmap (slot 65536 base (countFrom bitmap base maxBytes fuel a)) = false) := by
  induction fuel generalizing a with
  | zero =>
    simp only [countFrom]
    exact ⟨le_rfl,ha,fun i h1 h2 => absurd h1 (by omega),fun h => absurd h (by omega)⟩
  | succ fuel ih =>
    by_cases hlt : a < maxBytes
    · have hoff : (base + a) % 65536 % 64 < 64 := Nat.mod_lt _ (by decide)
      obtain ⟨hrun,hset,hclear⟩ := runInWord_spec (bitmap ((base + a) % 65536 / 64))
        ((base + a) % 65536 % 64) hoff
      have hzero := word_and_one (bitmap ((base + a) % 65536 / 64) >>> ((base + a) % 65536 % 64))
      rw [BitVec.getLsbD_ushiftRight,← bitAt_slot_word bitmap base a 0 (by omega)] at hzero
      simp only [countFrom,hlt,if_true,and_ffff,and_63,shiftRight_6]
      generalize hc : runInWord (bitmap ((base + a) % 65536 / 64) >>> ((base + a) % 65536 % 64))
        ((base + a) % 65536 % 64) = c at *
      have hbits : ∀ j < c, bitAt bitmap (slot 65536 base (a + j)) = true := by
        intro j hj
        rw [bitAt_slot_word bitmap base a j (by omega)]
        exact hset j hj
      split_ifs with hz hmax hlast hlast
      · exact ⟨le_rfl,ha,fun i h1 h2 => absurd h1 (by omega),fun _ => hzero.mp hz⟩
      · refine ⟨by omega,by omega,?_,fun h => absurd h (by omega)⟩
        intro i h1 h2
        have hb := hbits (i - a) (by omega)
        rwa [show a + (i - a) = i by omega] at hb
      · have hend : a + (maxBytes - a) = maxBytes := by omega
        obtain ⟨h1,h2,h3,h4⟩ := ih (a + (maxBytes - a)) (by omega) (by omega)
        refine ⟨by omega,h2,?_,h4⟩
        intro i hi1 hi2
        have hb := hbits (i - a) (by omega)
        rwa [show a + (i - a) = i by omega] at hb
      · refine ⟨by omega,by omega,?_,?_⟩
        · intro i h1 h2
          have hb := hbits (i - a) (by omega)
          rwa [show a + (i - a) = i by omega] at hb
        · intro _
          rw [bitAt_slot_word bitmap base a c (by omega)]
          exact hclear hlast
      · have hcpos : 0 < c := by omega
        obtain ⟨h1,h2,h3,h4⟩ := ih (a + c) (by omega) (by omega)
        refine ⟨by omega,h2,?_,h4⟩
        intro i hi1 hi2
        by_cases hic : i < a + c
        · have hb := hbits (i - a) (by omega)
          rwa [show a + (i - a) = i by omega] at hb
        · exact h3 i (by omega) hi2
    · simp only [countFrom,hlt,if_false]
      exact ⟨le_rfl,ha,fun i h1 h2 => absurd h1 (by omega),False.elim⟩

section Window

variable (r : TcpRing) (base off : Nat)

theorem setBitmapRange_bit (count : Nat) (hoff : off < tcpWindowSize)
    (hfit : off + count ≤ tcpWindowSize) (i : Nat) (hi : i < tcpWindowSize) :
    (r.setBitmapRange (base + off) count).bit base i =
      (r.bit base i || decide (off ≤ i ∧ i < off + count)) := by
  unfold tcpWindowSize at hoff hfit hi
  simp only [bit,tcpWindowSize]
  rw [setBitmapRange_bitAt _ _ _ (by omega) _ (slot_lt _ _ _ (by decide)),
    slot_rebase 65536 base off i hoff,
    ringDist_slot 65536 (base + off) _ (ringDist_lt 65536 off i hoff hi)]
  simp only [ringDist_lt_iff 65536 off i count hfit]
  split_ifs with h <;> simp [h]

theorem clearBitmapRange_bit (count : Nat) (hfit : count ≤ tcpWindowSize) (i : Nat)
    (hi : i < tcpWindowSize) :
    (r.clearBitmapRange base count).bit base i = (r.bit base i && decide (count ≤ i)) := by
  unfold tcpWindowSize at hfit hi
  simp only [bit,tcpWindowSize]
  rw [clearBitmapRange_bitAt _ _ _ hfit _ (slot_lt _ _ _ (by decide)),
    ringDist_slot 65536 base i hi]
  split_ifs with h
  · simp [h]
  · simp [not_lt.mp h]

theorem writeRingBuffer_byte_window (data : List UInt8) (hoff : off < tcpWindowSize)
    (hfit : off + data.length ≤ tcpWindowSize) (i : Nat) (hi : i < tcpWindowSize) :
    (r.writeRingBuffer (base + off) data).byte base i =
      if off ≤ i ∧ i < off + data.length then data.getD (i - off) 0 else r.byte base i := by
  have hdist := ringDist_lt_iff tcpWindowSize off i data.length hfit
  have h := r.writeRingBuffer_byte (base + off) data (by omega) (ringDist tcpWindowSize off i)
    (ringDist_lt _ off i hoff hi)
  simp only [byte,← slot_rebase tcpWindowSize base off i hoff,hdist] at h
  rw [byte,byte,h]
  split_ifs with hin
  · rw [ringDist,if_pos hin.1]
  · rfl

theorem isRangeSet_window (count : Nat) (hfit : off + count ≤ tcpWindowSize) :
    r.isRangeSet (base + off) count = true ↔
      ∃ i < count, r.bit base (off + i) = true := by
  unfold tcpWindowSize at hfit
  rw [isRangeSet_iff _ _ _ (by omega)]
  constructor
  · intro hex
    obtain ⟨p,hp,hd,hb⟩ := hex
    refine ⟨_,hd,?_⟩
    rw [bit,← slot_add,tcpWindowSize,slot_ringDist 65536 (base + off) p hp]
    exact hb
  · intro hex
    obtain ⟨i,hi,hb⟩ := hex
    rw [bit,← slot_add,tcpWindowSize] at hb
    refine ⟨_,slot_lt _ _ _ (by decide),?_,hb⟩
    rwa [ringDist_slot 65536 (base + off) i (by omega)]

@[simp] theorem setBitmapRange_byte (start count i : Nat) :
    (r.setBitmapRange start count).byte base i = r.byte base i := rfl

@[simp] theorem clearBitmapRange_byte (start count i : Nat) :
    (r.clearBitmapRange start count).byte base i = r.byte base i := rfl

@[simp] theorem writeRingBuffer_bit (start : Nat) (data : List UInt8) (i : Nat) :
    (r.writeRingBuffer start data).bit base i = r.bit base i := by simp [bit]

/-- The count stops at the first clear bit after `base`. -/
theorem countContinuousBytes_spec (maxBytes : Nat) :
    r.countContinuousBytes base maxBytes ≤ maxBytes ∧
      (∀ i < r.countContinuousBytes base maxBytes, r.bit base i = true) ∧
      (r.countContinuousBytes base maxBytes < maxBytes →
        r.bit base (r.countContinuousBytes base maxBytes) = false) := by
  obtain ⟨_,hle,hset,hclear⟩ :=
    countFrom_spec r.bitmap base maxBytes maxBytes 0 (Nat.zero_le _) (by omega)
  exact ⟨hle,fun i hi => hset i (Nat.zero_le _) hi,hclear⟩

end Window

end TcpRing

end Aethon
