import Mathlib.Tactic

/-!
# Word-packed bit arrays

An array of 64-bit words read as one array of bits, and the masks that address a range of
bits inside one word.
-/

namespace Aethon.Framework

/-- Bit `i` of an array of words. -/
def bitAt (words : Nat → BitVec 64) (i : Nat) : Bool := (words (i / 64)).getLsbD (i % 64)

/-- A word whose `n` low bits are set. -/
def lowMask (n : Nat) : BitVec 64 := if n = 64 then ~~~0#64 else (1#64 <<< n) - 1#64

theorem getLsbD_lowMask (n j : Nat) (hn : n ≤ 64) (hj : j < 64) :
    (lowMask n).getLsbD j = decide (j < n) := by
  unfold lowMask
  split_ifs with h
  · subst h
    rw [BitVec.getLsbD_not,BitVec.getLsbD_zero]
    simp [hj]
  · have hlt : n < 64 := by omega
    have hpow : 2 ^ n < 2 ^ 64 := Nat.pow_lt_pow_right (by decide) hlt
    have hpos := Nat.two_pow_pos n
    have hnat : ((1#64 <<< n) - 1#64).toNat = 2 ^ n - 1 := by
      rw [BitVec.toNat_sub,BitVec.toNat_shiftLeft]
      simp only [BitVec.toNat_ofNat,Nat.shiftLeft_eq]
      rw [Nat.mod_eq_of_lt (show 1 % 2 ^ 64 * 2 ^ n < 2 ^ 64 by simpa using hpow)]
      omega
    rw [BitVec.getLsbD,hnat,Nat.testBit_two_pow_sub_one]

theorem getLsbD_rangeMask (off n j : Nat) (h : off + n ≤ 64) (hj : j < 64) :
    (lowMask n <<< off).getLsbD j = decide (off ≤ j ∧ j < off + n) := by
  rw [BitVec.getLsbD_shiftLeft]
  by_cases hoff : j < off
  · simp [hoff]
  · rw [getLsbD_lowMask n (j - off) (by omega) (by omega)]
    simp only [hj,hoff,decide_true,decide_false,Bool.not_false,Bool.true_and]
    apply decide_eq_decide.mpr
    omega

theorem getLsbD_bitMask (k j : Nat) (hk : k < 64) : (1#64 <<< k).getLsbD j = decide (j = k) := by
  rw [BitVec.getLsbD_shiftLeft,BitVec.getLsbD_one]
  by_cases hj : j < 64
  · by_cases hlt : j < k
    · simp [hj,hlt,hlt.ne]
    · simp only [hj,hlt,decide_true,decide_false,Bool.not_false,Bool.true_and]
      apply decide_eq_decide.mpr
      omega
  · have hne : j ≠ k := by omega
    simp [hj,hne]

theorem and_ne_zero_iff (w mask : BitVec 64) :
    w &&& mask ≠ 0#64 ↔ ∃ j < 64, w.getLsbD j = true ∧ mask.getLsbD j = true := by
  constructor
  · intro hne
    by_contra hc
    apply hne
    apply BitVec.eq_of_getLsbD_eq
    intro j hj
    rw [BitVec.getLsbD_and,BitVec.getLsbD_zero]
    by_contra hb
    simp only [Bool.not_eq_false,Bool.and_eq_true] at hb
    exact hc ⟨j,hj,hb⟩
  · intro hex hz
    obtain ⟨j,_,hw,hm⟩ := hex
    have hb := congrArg (fun v => v.getLsbD j) hz
    simp [hw,hm] at hb

theorem bitAt_update (words : Nat → BitVec 64) (k : Nat) (w : BitVec 64) (i : Nat) :
    bitAt (Function.update words k w) i =
      if i / 64 = k then w.getLsbD (i % 64) else bitAt words i := by
  unfold bitAt
  by_cases hk : i / 64 = k
  · subst hk
    simp
  · simp [hk]

section Smear

/-- No bit above `k` is set, and the `w` bits from `k` down are. -/
structure TopBits (x k w : Nat) : Prop where
  lt : x < 2 ^ (k + 1)
  set : ∀ i ≤ k, k < i + w → x.testBit i = true

variable {x k w : Nat}

theorem topBits_log2 (hx : x ≠ 0) : TopBits x x.log2 1 where
  lt := Nat.lt_log2_self
  set := by
    intro i hi hk
    have heq : i = x.log2 := by omega
    rw [heq]
    exact Nat.testBit_log2 hx

/-- A shift by `w` doubles the number of bits that are known to be set. -/
theorem TopBits.smear (h : TopBits x k w) : TopBits (x ||| x >>> w) k (2 * w) where
  lt := by
    apply Nat.or_lt_two_pow h.lt
    exact (Nat.shiftRight_le x w).trans_lt h.lt
  set := by
    intro i hi hk
    rw [Nat.testBit_or,Nat.testBit_shiftRight]
    by_cases hlow : k < i + w
    · rw [h.set i hi hlow,Bool.true_or]
    · rw [h.set (w + i) (by omega) (by omega),Bool.or_true]

theorem TopBits.eq (h : TopBits x k w) (hw : k < w) : x = 2 ^ (k + 1) - 1 := by
  apply Nat.eq_of_testBit_eq
  intro i
  rw [Nat.testBit_two_pow_sub_one]
  by_cases hi : i < k + 1
  · rw [h.set i (by omega) (by omega),decide_eq_true hi]
  · rw [decide_eq_false hi]
    apply Nat.testBit_lt_two_pow
    exact h.lt.trans_le (Nat.pow_le_pow_right (by decide) (by omega))

end Smear

end Aethon.Framework
