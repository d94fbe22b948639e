import Mathlib.Tactic
import Mathlib.Data.Nat.ModEq

/-!
# Windows of a stream in a ring

The items of a stream with numbers from `lo` to `hi` lie in a ring of `N` cells, item `i` in cell
`i % N`, and every other cell is empty. A cell is filled at the upper end of the window and
emptied at the lower end. Where `N` is a power of two, the cell of an item is read off the low
bits of a machine word.
-/

namespace Aethon.Framework

/-- The cells hold exactly the items from `lo` to `hi`. -/
structure SlotWindow {α : Type} (N : Nat) (cells item : Nat → Option α) (lo hi : Nat) : Prop where
  full : ∀ i, lo ≤ i → i < hi → cells (i % N) = item i
  empty : ∀ i, hi ≤ i → i < lo + N → cells (i % N) = none

/-- Numbers less than `N` apart have cells of their own. -/
theorem mod_ne_of_near {N i j : Nat} (hij : i < j) (hj : j < i + N) : i % N ≠ j % N := by
  intro h
  have hdvd : N ∣ j - i := (Nat.modEq_iff_dvd' hij.le).mp h
  have hle := Nat.le_of_dvd (by omega) hdvd
  omega

theorem mod_eq_iff_of_near {N i j : Nat} (hij : i ≤ j) (hj : j < i + N) :
    i % N = j % N ↔ i = j := by
  constructor
  · intro h
    by_contra hne
    exact mod_ne_of_near (by omega) hj h
  · rintro rfl
    rfl

namespace SlotWindow

variable {α : Type} {N lo hi : Nat} {cells item : Nat → Option α}

theorem init (N : Nat) (item : Nat → Option α) : SlotWindow N (fun _ => none) item 0 0 where
  full := by
    intro i _ hi
    omega
  empty := fun _ _ _ => rfl

/-- Only the items of the window matter. -/
theorem congr {item' : Nat → Option α} (h : SlotWindow N cells item lo hi)
    (hitem : ∀ i, lo ≤ i → i < hi → item' i = item i) : SlotWindow N cells item' lo hi where
  full := by
    intro i hlo hhi
    rw [h.full i hlo hhi,hitem i hlo hhi]
  empty := h.empty

theorem fill (h : SlotWindow N cells item lo hi) (hle : lo ≤ hi) (hroom : hi < lo + N) :
    SlotWindow N (Function.update cells (hi % N) (item hi)) item lo (hi + 1) where
  full := by
    intro i hlo hlt
    rcases Nat.lt_or_ge i hi with hi' | hi'
    · rw [Function.update_of_ne (mod_ne_of_near hi' (by omega))]
      exact h.full i hlo hi'
    · rw [show i = hi by omega,Function.update_self]
  empty := by
    intro i hlo hlt
    rw [Function.update_of_ne (mod_ne_of_near (by omega : hi < i) (by omega)).symm]
    exact h.empty i (by omega) hlt

theorem clear (h : SlotWindow N cells item lo hi) (hlt : lo < hi) (hroom : hi ≤ lo + N) :
    SlotWindow N (Function.update cells (lo % N) none) item (lo + 1) hi where
  full := by
    intro i hlo hi'
    rw [Function.update_of_ne (mod_ne_of_near (by omega : lo < i) (by omega)).symm]
    exact h.full i (by omega) hi'
  empty := by
    intro i hhi hi'
    rcases Nat.lt_or_ge i (lo + N) with hin | hin
    · rw [Function.update_of_ne (mod_ne_of_near (by omega : lo < i) hin).symm]
      exact h.empty i hhi hin
    · rw [show i = lo + N by omega,Nat.add_mod_right,Function.update_self]

end SlotWindow

theorem toNat_pred {w : Nat} {x : BitVec w} (h : 1 ≤ x.toNat) : (x - 1).toNat = x.toNat - 1 := by
  have hlt := x.isLt
  have hone : (1 : BitVec w).toNat = 1 := by
    change (BitVec.ofNat w 1).toNat = 1
    rw [BitVec.toNat_ofNat]
    exact Nat.mod_eq_of_lt (by omega)
  rw [BitVec.toNat_sub_of_le (show (1 : BitVec w).toNat ≤ _ by omega),hone]

/-- A word and its predecessor have no bit in common exactly if the word is a power of two. -/
theorem and_pred_eq_zero_iff {w : Nat} {x : BitVec w} (h : 1 ≤ x.toNat) :
    x &&& (x - 1) = 0 ↔ ∃ k, x.toNat = 2 ^ k := by
  rw [← BitVec.toNat_inj,BitVec.toNat_and,toNat_pred h]
  exact Nat.and_sub_one_eq_zero_iff_isPowerOfTwo (by omega)

theorem toNat_ofNat_pow {w k : Nat} (hlt : k < w) : (BitVec.ofNat w (2 ^ k)).toNat = 2 ^ k := by
  rw [BitVec.toNat_ofNat]
  exact Nat.mod_eq_of_lt (Nat.pow_lt_pow_right (by decide) hlt)

/-- A power of two that fits the word passes the test for one. -/
theorem ofNat_pow_checked {w k : Nat} (hpos : 1 ≤ k) (hlt : k < w) :
    2 ≤ (BitVec.ofNat w (2 ^ k)).toNat ∧
      BitVec.ofNat w (2 ^ k) &&& (BitVec.ofNat w (2 ^ k) - 1) = 0 := by
  have htwo : 2 ≤ (BitVec.ofNat w (2 ^ k)).toNat := by
    rw [toNat_ofNat_pow hlt]
    exact Nat.pow_le_pow_right (by decide : 0 < 2) hpos
  exact ⟨htwo,(and_pred_eq_zero_iff (by omega)).mpr ⟨k,toNat_ofNat_pow hlt⟩⟩

/-- Masking with the predecessor of a power of two is the remainder. -/
theorem toNat_and_pred {w k : Nat} {x : BitVec w} (y : BitVec w) (h : x.toNat = 2 ^ k) :
    (y &&& (x - 1)).toNat = y.toNat % x.toNat := by
  have hpos : 0 < 2 ^ k := Nat.two_pow_pos k
  rw [BitVec.toNat_and,toNat_pred (by omega),h,Nat.and_two_pow_sub_one_eq_mod]

end Aethon.Framework
