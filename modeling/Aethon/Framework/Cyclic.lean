import Mathlib.Tactic

/-!
# Cyclic positions

Slots `0, …, N-1` of a ring, the slot reached after a number of forward steps, and the
number of forward steps between two slots.
-/

namespace Aethon.Framework

/-- Reduce a position below `2 * N` to a slot of the ring. -/
def wrap (N x : Nat) : Nat := if x < N then x else x - N

/-- Number of forward steps from slot `a` to slot `b`. -/
def ringDist (N a b : Nat) : Nat := if a ≤ b then b - a else b + N - a

theorem wrap_eq_mod (N x : Nat) (h : x < 2 * N) : wrap N x = x % N := by
  unfold wrap
  split_ifs with hx
  · rw [Nat.mod_eq_of_lt hx]
  · rw [Nat.mod_eq_sub_mod (by omega),Nat.mod_eq_of_lt (by omega)]

theorem wrap_lt (N x : Nat) (h : x < 2 * N) : wrap N x < N := by
  unfold wrap
  split_ifs <;> omega

theorem ringDist_lt (N a b : Nat) (ha : a < N) (hb : b < N) : ringDist N a b < N := by
  unfold ringDist
  split_ifs <;> omega

@[simp] theorem ringDist_self (N a : Nat) : ringDist N a a = 0 := by simp [ringDist]

theorem ringDist_eq_zero (N a b : Nat) (ha : a < N) : ringDist N a b = 0 ↔ a = b := by
  unfold ringDist
  split_ifs <;> omega

theorem wrap_ringDist (N a b : Nat) (hb : b < N) (ha : a < N) : wrap N (a + ringDist N a b) = b := by
  unfold ringDist wrap
  split_ifs <;> omega

theorem ringDist_wrap (N a d : Nat) (ha : a < N) (hd : d < N) : ringDist N a (wrap N (a + d)) = d := by
  unfold ringDist wrap
  split_ifs <;> omega

theorem ringDist_inj (N a p q : Nat) (ha : a < N) (hp : p < N) (hq : q < N)
    (h : ringDist N a p = ringDist N a q) : p = q := by
  rw [← wrap_ringDist N a p hp ha,h,wrap_ringDist N a q hq ha]

/-- A slot met on the way from `a` to `p` splits the way in two. -/
theorem ringDist_split (N a i p : Nat) (ha : a < N) (hi : i < N) (hp : p < N)
    (h : ringDist N a i ≤ ringDist N a p) : ringDist N a p = ringDist N a i + ringDist N i p := by
  unfold ringDist at *
  split_ifs at * <;> omega

/-- Walking from `a` to `i` and on to `q` ends at `q`. -/
theorem wrap_ringDist_add (N a i q : Nat) (ha : a < N) (hi : i < N) (hq : q < N)
    (h : ringDist N a i + ringDist N i q < N) : wrap N (a + (ringDist N a i + ringDist N i q)) = q := by
  unfold ringDist at *
  unfold wrap
  split_ifs at * <;> omega

theorem ringDist_next (N i j : Nat) (hi : i < N) (hj : j < N) (h : wrap N (j + 1) ≠ i) :
    ringDist N i (wrap N (j + 1)) = ringDist N i j + 1 := by
  unfold ringDist wrap at *
  split_ifs at * <;> omega

theorem ringDist_prev (N j f : Nat) (hj : j < N) (hf : f < N) (h : j ≠ f) :
    ringDist N (wrap N (j + 1)) f + 1 = ringDist N j f := by
  unfold ringDist wrap
  split_ifs <;> omega

theorem ringDist_last (N i j : Nat) (hi : i < N) (hj : j < N) (h : wrap N (j + 1) = i) :
    ringDist N i j = N - 1 := by
  unfold ringDist wrap at *
  split_ifs at * <;> omega

/-- A slot that is met before `f`, and lies between `f` and `i`, is met before `i`. -/
theorem ringDist_le_of_between (N a f i p : Nat) (ha : a < N) (hf : f < N) (hi : i < N) (hp : p < N)
    (hpf : p ≠ f) (hle : ringDist N a p ≤ ringDist N a f) (hlt : ringDist N f p < ringDist N f i) :
    ringDist N a p ≤ ringDist N a i := by
  unfold ringDist at *
  split_ifs at * <;> omega

theorem wrap_iterate (N i d : Nat) (next : Nat → Nat) (hi : i < N) (hd : d ≤ N)
    (hn : ∀ x, x < N → next x = wrap N (x + 1)) : next^[d] i = wrap N (i + d) := by
  induction d with
  | zero => simp [wrap,hi]
  | succ d ih =>
    rw [Function.iterate_succ_apply',ih (by omega),hn _ (wrap_lt N _ (by omega))]
    unfold wrap
    split_ifs <;> omega

/-- Slot of a ring that holds position `off` after `base`. -/
def slot (N base off : Nat) : Nat := (base + off) % N

theorem slot_lt (N base off : Nat) (hN : 0 < N) : slot N base off < N := Nat.mod_lt _ hN

theorem slot_add (N base k i : Nat) : slot N (base + k) i = slot N base (k + i) := by
  rw [slot,slot,Nat.add_assoc]

theorem slot_wrap (N base i : Nat) : slot N base (i + N) = slot N base i := by
  rw [slot,slot,← Nat.add_assoc,Nat.add_mod_right]

theorem slot_mod (N base off : Nat) : slot N (base % N) off = slot N base off := by
  rw [slot,slot,Nat.mod_add_mod]

/-- Every slot lies in the window of `N` positions after `base`. -/
theorem slot_ringDist (N base p : Nat) (hp : p < N) :
    slot N base (ringDist N (base % N) p) = p := by
  have hb : base % N < N := Nat.mod_lt _ (by omega)
  rw [← slot_mod,slot,← wrap_eq_mod _ _ (by have := ringDist_lt N _ p hb hp; omega)]
  exact wrap_ringDist N (base % N) p hp hb

theorem ringDist_slot (N base i : Nat) (hi : i < N) :
    ringDist N (base % N) (slot N base i) = i := by
  have hb : base % N < N := Nat.mod_lt _ (by omega)
  have hslot : slot N base i = wrap N (base % N + i) := by
    rw [← slot_mod,slot,wrap_eq_mod _ _ (by omega)]
  rw [hslot]
  exact ringDist_wrap N (base % N) i hb hi

/-- Position `i` after `base`, counted from `off` positions further on. -/
theorem slot_rebase (N base off i : Nat) (hoff : off < N) :
    slot N base i = slot N (base + off) (ringDist N off i) := by
  rw [slot_add]
  unfold ringDist
  split_ifs with h
  · congr 1
    omega
  · rw [← slot_wrap N base i]
    congr 1
    omega

theorem ringDist_lt_iff (N off i n : Nat) (hn : off + n ≤ N) :
    ringDist N off i < n ↔ off ≤ i ∧ i < off + n := by
  unfold ringDist
  split_ifs <;> omega

end Aethon.Framework
