import Mathlib.Tactic
import Mathlib.Algebra.BigOperators.Group.Finset.Basic
import Mathlib.Algebra.Order.BigOperators.Group.Finset

/-!
# First writer wins

Pieces `[start, stop)` of a buffer are written block by block, and a block belongs to the
first piece that meets it. A count of the written bytes that reaches the length of the
buffer fills every block, provided that no piece ends beyond that length.
-/

namespace Aethon.Framework

variable {α : Type} (B : Nat) (start stop : α → Nat)

/-- A piece meets block `b`. -/
def Touches (a : α) (b : Nat) : Prop := start a < b * B + B ∧ b * B < stop a

instance (a : α) (b : Nat) : Decidable (Touches B start stop a b) := by
  unfold Touches
  infer_instance

/-- The piece a block belongs to. -/
def owner (log : List α) (b : Nat) : Option α :=
  log.find? fun a => decide (Touches B start stop a b)

/-- Number of bytes written into a block. -/
def written (log : List α) (b : Nat) : Nat :=
  match owner B start stop log b with
  | none => 0
  | some a => min B (stop a - b * B)

/-- The first piece that covers a position. -/
def coverer (log : List α) (p : Nat) : Option α :=
  log.find? fun a => decide (start a ≤ p ∧ p < stop a)

variable {B start stop}

theorem owner_append (log log' : List α) (b : Nat) :
    owner B start stop (log ++ log') b =
      (owner B start stop log b).or (owner B start stop log' b) := by
  simp [owner]

theorem owner_touches {log : List α} {b : Nat} {a : α}
    (h : owner B start stop log b = some a) : a ∈ log ∧ Touches B start stop a b := by
  refine ⟨List.mem_of_find?_eq_some h,?_⟩
  simpa using List.find?_some h

theorem owner_exists {log : List α} {b : Nat} {a : α} (hmem : a ∈ log)
    (ht : Touches B start stop a b) : ∃ c, owner B start stop log b = some c := by
  apply Option.isSome_iff_exists.mp
  apply List.find?_isSome.mpr
  exact ⟨a,hmem,by simpa using ht⟩

theorem written_append_of_some {log log' : List α} {b : Nat} {a : α}
    (h : owner B start stop log b = some a) :
    written B start stop (log ++ log') b = written B start stop log b := by
  simp [written,owner_append,h]

theorem written_append_of_none {log log' : List α} {b : Nat}
    (h : owner B start stop log b = none) :
    written B start stop (log ++ log') b = written B start stop log' b := by
  simp [written,owner_append,h]

theorem written_of_none {log : List α} {b : Nat} (h : owner B start stop log b = none) :
    written B start stop log b = 0 := by simp [written,h]

theorem written_of_some {log : List α} {b : Nat} {a : α}
    (h : owner B start stop log b = some a) :
    written B start stop log b = min B (stop a - b * B) := by simp [written,h]

/-- The blocks of a buffer of length `T` hold `T` bytes together. -/
theorem sum_block (T n : Nat) : ∑ b ∈ Finset.range n, min B (T - b * B) = min T (n * B) := by
  induction n with
  | zero => simp
  | succ n ih =>
    rw [Finset.sum_range_succ,ih,Nat.succ_mul]
    omega

theorem written_le {log : List α} {T : Nat} (hstop : ∀ a ∈ log, stop a ≤ T) (b : Nat) :
    written B start stop log b ≤ min B (T - b * B) := by
  cases ho : owner B start stop log b with
  | none =>
    rw [written_of_none ho]
    omega
  | some a =>
    rw [written_of_some ho]
    have := hstop a (owner_touches ho).1
    omega

/-- As many written bytes as the buffer is long fill every block. -/
theorem written_full {log : List α} {T n : Nat} (hT : T ≤ n * B)
    (hstop : ∀ a ∈ log, stop a ≤ T)
    (hsum : T ≤ ∑ b ∈ Finset.range n, written B start stop log b) (b : Nat) (hb : b < n) :
    written B start stop log b = min B (T - b * B) := by
  by_contra hne
  have hlt : ∑ b ∈ Finset.range n, written B start stop log b <
      ∑ b ∈ Finset.range n, min B (T - b * B) := by
    apply Finset.sum_lt_sum
    · intro c _
      exact written_le hstop c
    · exact ⟨b,Finset.mem_range.mpr hb,lt_of_le_of_ne (written_le hstop b) hne⟩
  rw [sum_block] at hlt
  omega

/-- A position inside the written part of its block is first covered by the block's owner. -/
theorem coverer_eq_owner {log : List α} (halign : ∀ a ∈ log, B ∣ start a) (hB : 0 < B) {p : Nat}
    (hp : p % B < written B start stop log (p / B)) :
    ∃ a, owner B start stop log (p / B) = some a ∧ coverer start stop log p = some a := by
  have hdiv := Nat.div_add_mod p B
  have hmod := Nat.mod_lt p hB
  rw [Nat.mul_comm] at hdiv
  cases ho : owner B start stop log (p / B) with
  | none =>
    rw [written_of_none ho] at hp
    omega
  | some a =>
    refine ⟨a,rfl,?_⟩
    obtain ⟨hmem,ht⟩ := owner_touches ho
    rw [written_of_some ho] at hp
    have hstart : start a ≤ p / B * B := by
      obtain ⟨k,hk⟩ := halign a hmem
      have hlt : k < p / B + 1 := by
        by_contra hc
        have := Nat.mul_le_mul_right B (show p / B + 1 ≤ k by omega)
        have := ht.1
        rw [Nat.mul_comm] at hk
        rw [Nat.succ_mul] at *
        omega
      have := Nat.mul_le_mul_right B (show k ≤ p / B by omega)
      rw [Nat.mul_comm] at hk
      omega
    obtain ⟨_,as,bs,rfl,hbefore⟩ := List.find?_eq_some_iff_append.mp ho
    apply List.find?_eq_some_iff_append.mpr
    refine ⟨by simp; omega,as,bs,rfl,?_⟩
    intro c hc
    have hn : ¬ Touches B start stop c (p / B) := by simpa using hbefore c hc
    simp only [Bool.not_eq_true',decide_eq_false_iff_not]
    intro hcp
    apply hn
    exact ⟨by omega,by omega⟩

end Aethon.Framework
