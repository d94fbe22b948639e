import Aethon.Framework.Endian

/-!
# One's complement sums

The internet checksum adds 16-bit words with end-around carry. Such a sum is determined by the
ordinary sum of the words modulo 65535, and by whether that is zero.
-/

namespace Aethon.Framework

/-- Addition of 16-bit words with end-around carry. -/
def onesAdd (a b : Nat) : Nat := if a + b < 65536 then a + b else a + b - 65535

/-- The big-endian 16-bit words of a byte string; an odd last byte is followed by zero. -/
def words : List UInt8 → List Nat
  | hi :: lo :: bytes => (hi.toNat * 256 + lo.toNat) :: words bytes
  | [hi] => [hi.toNat * 256]
  | [] => []

/-- The one's complement sum of the words of a byte string. -/
def onesSum (bytes : List UInt8) : Nat := (words bytes).foldl onesAdd 0

/-- The 16-bit number that stands for `x` in one's complement, where only zero is zero. -/
def residue (x : Nat) : Nat := if x = 0 then 0 else (x - 1) % 65535 + 1

theorem residue_lt (x : Nat) : residue x < 65536 := by
  unfold residue
  split_ifs <;> omega

theorem residue_mod (x : Nat) : residue x % 65535 = x % 65535 := by
  unfold residue
  split_ifs <;> omega

theorem residue_eq_zero {x : Nat} : residue x = 0 ↔ x = 0 := by
  unfold residue
  split_ifs with hx
  · simp [hx]
  · simp [hx]

theorem residue_unique {x y : Nat} (hlt : y < 65536) (hmod : y % 65535 = x % 65535)
    (hzero : y = 0 ↔ x = 0) : y = residue x := by
  unfold residue
  split_ifs with hx
  · exact hzero.mpr hx
  · have hy := mt hzero.mp hx
    omega

theorem onesAdd_residue {w : Nat} (x : Nat) (hw : w < 65536) :
    onesAdd (residue x) w = residue (x + w) := by
  have hlt := residue_lt x
  apply residue_unique
  · unfold onesAdd
    split_ifs <;> omega
  · unfold onesAdd residue
    split_ifs <;> omega
  · unfold onesAdd residue
    split_ifs <;> omega

theorem words_lt (bytes : List UInt8) : ∀ w ∈ words bytes, w < 65536 := by
  induction bytes using words.induct with
  | case1 hi lo bytes ih =>
    have hhi := hi.toNat_lt
    have hlo := lo.toNat_lt
    intro w hw
    rcases List.mem_cons.mp hw with rfl | hw
    · omega
    · exact ih w hw
  | case2 hi =>
    have hhi := hi.toNat_lt
    intro w hw
    rw [List.mem_singleton.mp hw]
    omega
  | case3 => nofun

/-- The one's complement sum from the ordinary one. -/
theorem onesSum_eq (bytes : List UInt8) : onesSum bytes = residue (words bytes).sum := by
  have hfold : ∀ ws : List Nat, (∀ w ∈ ws, w < 65536) → ∀ x,
      ws.foldl onesAdd (residue x) = residue (x + ws.sum) := by
    intro ws
    induction ws with
    | nil => intro _ x; rfl
    | cons w ws ih =>
      intro hws x
      rw [List.foldl_cons,onesAdd_residue x (hws w List.mem_cons_self),
        ih (fun v hv => hws v (List.mem_cons_of_mem w hv)),List.sum_cons,Nat.add_assoc]
  have h := hfold (words bytes) (words_lt bytes) 0
  rwa [Nat.zero_add] at h

theorem residue_eq_max {x : Nat} : residue x = 65535 ↔ 0 < x ∧ 65535 ∣ x := by
  unfold residue
  split_ifs with hx
  · simp [hx]
  · omega

/-- A number and the complement of its sum cancel. -/
theorem residue_add_complement (x : Nat) : residue (x + (65535 - residue x)) = 65535 := by
  rw [residue_eq_max]
  unfold residue
  split_ifs <;> omega

theorem words_append {bytes bytes' : List UInt8} (heven : bytes.length % 2 = 0) :
    words (bytes ++ bytes') = words bytes ++ words bytes' := by
  induction bytes using words.induct with
  | case1 hi lo bytes ih =>
    have hlen : bytes.length % 2 = 0 := by simpa [Nat.add_assoc] using heven
    simp [words,ih hlen]
  | case2 hi => simp at heven
  | case3 => rfl

theorem words_sum_le (bytes : List UInt8) : (words bytes).sum ≤ 65535 * ((bytes.length + 1) / 2) := by
  induction bytes using words.induct with
  | case1 hi lo bytes ih =>
    have hhi := hi.toNat_lt
    have hlo := lo.toNat_lt
    simp only [words,List.sum_cons,List.length_cons]
    omega
  | case2 hi =>
    have hhi := hi.toNat_lt
    simp only [words,List.sum_cons,List.sum_nil,List.length_singleton]
    omega
  | case3 => simp [words]

/-- The carries of a sum are added to its lower half until there are none. -/
def foldCarries : Nat → Nat → Nat
  | 0, sum => sum
  | fuel + 1, sum =>
      if sum >>> 16 = 0 then sum else foldCarries fuel ((sum &&& 0xFFFF) + (sum >>> 16))

theorem foldCarries_eq {fuel sum : Nat} (h : sum ≤ fuel) : foldCarries fuel sum = residue sum := by
  induction fuel generalizing sum with
  | zero =>
    rw [Nat.le_zero.mp h]
    rfl
  | succ fuel ih =>
    have hdiv : sum >>> 16 = sum / 65536 := Nat.shiftRight_eq_div_pow sum 16
    have hmod : sum &&& 0xFFFF = sum % 65536 := Nat.and_two_pow_sub_one_eq_mod sum 16
    rw [foldCarries,hdiv,hmod]
    split_ifs with hsmall
    · exact residue_unique (by omega) rfl Iff.rfl
    · have hstep : sum % 65536 + sum / 65536 ≤ fuel := by omega
      rw [ih hstep]
      refine residue_unique (residue_lt _) ?_ ?_
      · rw [residue_mod]
        omega
      · rw [residue_eq_zero]
        constructor <;> omega

/-- The little-endian number of an even number of bytes, modulo 65535. -/
theorem leNat_mod {bytes : List UInt8} (heven : bytes.length % 2 = 0) :
    leNat bytes % 65535 = 256 * (words bytes).sum % 65535 := by
  induction bytes using words.induct with
  | case1 hi lo bytes ih =>
    have hlen : bytes.length % 2 = 0 := by simpa [Nat.add_assoc] using heven
    have hrest := ih hlen
    simp only [leNat,words,List.sum_cons]
    omega
  | case2 hi => simp at heven
  | case3 => rfl

theorem leNat_eq_zero {bytes : List UInt8} (heven : bytes.length % 2 = 0) :
    leNat bytes = 0 ↔ (words bytes).sum = 0 := by
  induction bytes using words.induct with
  | case1 hi lo bytes ih =>
    have hlen : bytes.length % 2 = 0 := by simpa [Nat.add_assoc] using heven
    have hrest := ih hlen
    simp only [leNat,words,List.sum_cons]
    omega
  | case2 hi => simp at heven
  | case3 => exact Iff.rfl

end Aethon.Framework
