import Mathlib.Tactic

/-!
# A heap of objects

Addresses are handed out once, in increasing order, and address `0` is the null pointer.
A write changes live objects only, so no address at or above `next` is ever live.
-/

namespace Aethon.Framework

@[ext]
structure Heap (α : Type) where
  mem : Nat → Option α
  next : Nat
  fresh : ∀ p, next ≤ p → mem p = none
  next_pos : 0 < next
  null : mem 0 = none

namespace Heap

variable {α : Type}

def empty : Heap α where
  mem := fun _ => none
  next := 1
  fresh := fun _ _ => rfl
  next_pos := by decide
  null := rfl

/-- Allocate an object at the next address. -/
def alloc (h : Heap α) (a : α) : Nat × Heap α :=
  (h.next,
    { mem := Function.update h.mem h.next (some a)
      next := h.next + 1
      fresh := fun p hp => by
        rw [Function.update_of_ne (by omega)]
        exact h.fresh p (by omega)
      next_pos := by omega
      null := by
        have := h.next_pos
        rw [Function.update_of_ne (by omega)]
        exact h.null })

/-- Overwrite a live object. -/
def set (h : Heap α) (p : Nat) (a : α) : Heap α :=
  { h with
    mem := fun q => if q = p then (h.mem p).map fun _ => a else h.mem q
    fresh := fun q hq => by
      split_ifs with hqp
      · subst hqp
        rw [h.fresh q hq]
        rfl
      · exact h.fresh q hq
    null := by
      split_ifs with hp
      · subst hp
        rw [h.null]
        rfl
      · exact h.null }

def free (h : Heap α) (p : Nat) : Heap α :=
  { h with
    mem := Function.update h.mem p none
    fresh := fun q hq => by
      by_cases hqp : q = p
      · subst hqp
        simp
      · rw [Function.update_of_ne hqp]
        exact h.fresh q hq
    null := by
      by_cases hp : 0 = p
      · subst hp
        simp
      · rw [Function.update_of_ne hp]
        exact h.null }

@[simp] theorem empty_mem (p : Nat) : (empty : Heap α).mem p = none := rfl

theorem lt_next (h : Heap α) {p : Nat} {a : α} (hp : h.mem p = some a) : p < h.next := by
  by_contra hc
  rw [h.fresh p (by omega)] at hp
  cases hp

theorem alloc_fst (h : Heap α) (a : α) : (h.alloc a).1 = h.next := rfl

@[simp] theorem alloc_mem_self (h : Heap α) (a : α) :
    (h.alloc a).2.mem (h.alloc a).1 = some a := by simp [alloc]

theorem alloc_mem_of_ne (h : Heap α) (a : α) {p : Nat} (hp : p ≠ h.next) :
    (h.alloc a).2.mem p = h.mem p := by simp [alloc,hp]

theorem alloc_mem (h : Heap α) (a : α) (p : Nat) :
    (h.alloc a).2.mem p = if p = h.next then some a else h.mem p := by
  simp [alloc,Function.update_apply]

theorem set_mem (h : Heap α) (p : Nat) (a : α) (q : Nat) :
    (h.set p a).mem q = if q = p then (h.mem p).map fun _ => a else h.mem q := rfl

theorem set_mem_self (h : Heap α) {p : Nat} {b : α} (a : α) (hp : h.mem p = some b) :
    (h.set p a).mem p = some a := by simp [set_mem,hp]

theorem set_mem_of_ne (h : Heap α) {p q : Nat} (a : α) (hq : q ≠ p) :
    (h.set p a).mem q = h.mem q := by simp [set_mem,hq]

theorem set_set (h : Heap α) (p : Nat) (a b : α) : (h.set p a).set p b = h.set p b := by
  ext q
  · simp only [set_mem,if_true]
    split_ifs <;> simp
  · rfl

@[simp] theorem free_mem_self (h : Heap α) (p : Nat) : (h.free p).mem p = none := by simp [free]

theorem free_mem_of_ne (h : Heap α) {p q : Nat} (hq : q ≠ p) : (h.free p).mem q = h.mem q := by
  simp [free,hq]

theorem free_mem (h : Heap α) (p q : Nat) :
    (h.free p).mem q = if q = p then none else h.mem q := by
  simp [free,Function.update_apply]

theorem set_free (h : Heap α) (p : Nat) (a : α) : (h.set p a).free p = h.free p := by
  ext q
  · simp only [free_mem,set_mem]
    split_ifs <;> rfl
  · rfl

/-- What holds of every live object holds after the allocation of an object that satisfies it. -/
theorem forall_alloc (h : Heap α) {P : Nat → α → Prop} (hall : ∀ q b, h.mem q = some b → P q b)
    (a : α) (ha : P h.next a) (q : Nat) (b : α) (hq : (h.alloc a).2.mem q = some b) : P q b := by
  rw [alloc_mem] at hq
  split_ifs at hq with hqn
  · subst hqn
    cases hq
    exact ha
  · exact hall q b hq

end Heap

end Aethon.Framework
