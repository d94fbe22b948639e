import Mathlib.Tactic

/-!
# Admission over time

A meter takes timed inputs one after the other and passes or drops each of them. The trace of a
run keeps every input with the state it leads to and the decision; the number of inputs passed
in an interval is a count over the trace. An amortised argument bounds that count: a potential
that grows at some rate while time goes by, and pays for every input that passes.
-/

namespace Aethon.Framework

variable {σ α : Type} (step : σ → α → σ × Bool) (time : α → Nat)

/-- The inputs of a run with the states after them and the decisions. -/
def trace : σ → List α → List (α × σ × Bool)
  | _, [] => []
  | s, a :: as => (a,step s a) :: trace (step s a).1 as

/-- Number of inputs with a time between `lo` and `hi` that passed. -/
def passesIn (lo hi : Nat) (events : List (α × σ × Bool)) : Nat :=
  events.countP fun e => e.2.2 && decide (lo ≤ time e.1 ∧ time e.1 ≤ hi)

variable {step time}

theorem passesIn_cons (lo hi : Nat) (s : σ) (a : α) (as : List α) :
    passesIn time lo hi (trace step s (a :: as)) =
      passesIn time lo hi (trace step (step s a).1 as) +
        if (step s a).2 = true ∧ lo ≤ time a ∧ time a ≤ hi then 1 else 0 := by
  simp only [passesIn,trace,List.countP_cons,Bool.and_eq_true,decide_eq_true_eq]

theorem mem_trace_cons {s : σ} {a : α} {as : List α} {e : α × σ × Bool} :
    e ∈ trace step s (a :: as) ↔ e = (a,step s a) ∨ e ∈ trace step (step s a).1 as := by
  rw [trace,List.mem_cons]

/-- Nothing lies in an empty interval. -/
theorem passesIn_empty {lo hi : Nat} (h : hi < lo) (events : List (α × σ × Bool)) :
    passesIn time lo hi events = 0 := by
  apply List.countP_eq_zero.mpr
  intro e _ hpass
  simp only [Bool.and_eq_true,decide_eq_true_eq] at hpass
  omega

/-- Inputs after the interval do not count. -/
theorem passesIn_eq_zero (lo hi : Nat) (as : List α) (s : σ) (h : ∀ a ∈ as, hi < time a) :
    passesIn time lo hi (trace step s as) = 0 := by
  induction as generalizing s with
  | nil => rfl
  | cons a as ih =>
    have hlate := h a (by simp)
    rw [passesIn_cons,ih _ fun b hb => h b (by simp [hb]),if_neg (by omega)]

/-- Only an input that passes counts. -/
theorem counted_le (cost : Nat) (passes : Bool) (inside : Prop) [Decidable inside] :
    cost * (if passes = true ∧ inside then 1 else 0) ≤ if passes then cost else 0 := by
  cases passes with
  | false => simp
  | true =>
    rw [if_pos rfl]
    split_ifs
    · exact (Nat.mul_one cost).le
    · exact Nat.zero_le cost

/-- An account of a meter. A good state at time `m` stays good, its potential grows by at most
`rate` per unit of time and pays `cost` for an input that passes, and no state that an input
leaves behind holds more than `cap`, what it paid included. -/
structure Amortised (step : σ → α → σ × Bool) (time : α → Nat) (Good : σ → Nat → Prop)
    (Allowed : α → Prop) (potential : σ → Nat → Nat) (cost rate cap : Nat) : Prop where
  keeps : ∀ s m a, Good s m → Allowed a → m ≤ time a → Good (step s a).1 (time a)
  paid : ∀ s m a, Good s m → Allowed a → m ≤ time a →
    potential (step s a).1 (time a) + (if (step s a).2 then cost else 0) ≤
      potential s m + rate * (time a - m)
  capped : ∀ s m a, Good s m → Allowed a → m ≤ time a →
    potential (step s a).1 (time a) + (if (step s a).2 then cost else 0) ≤ cap

section Amortised

variable {Good : σ → Nat → Prop} {Allowed : α → Prop} {potential : σ → Nat → Nat}
  {cost rate cap : Nat} (h : Amortised step time Good Allowed potential cost rate cap)
include h

/-- From a good state on, the potential and what flows in pay for everything that passes. -/
theorem Amortised.passesIn_le_potential (lo hi : Nat) (as : List α) (s : σ) (m : Nat)
    (hgood : Good s m) (hm : m ≤ hi) (hallowed : ∀ a ∈ as, Allowed a)
    (hsorted : as.Pairwise fun a b => time a ≤ time b) (hafter : ∀ a ∈ as, m ≤ time a) :
    cost * passesIn time lo hi (trace step s as) ≤ potential s m + rate * (hi - m) := by
  induction as generalizing s m with
  | nil => simp [passesIn,trace]
  | cons a as ih =>
    obtain ⟨hbehind,hrest⟩ := List.pairwise_cons.mp hsorted
    have ha := hallowed a (by simp)
    have hma := hafter a (by simp)
    by_cases hin : time a ≤ hi
    · have hpay := h.paid s m a hgood ha hma
      have hih := ih (step s a).1 (time a) (h.keeps s m a hgood ha hma) hin
        (fun b hb => hallowed b (by simp [hb])) hrest hbehind
      have hflow : rate * (hi - m) = rate * (time a - m) + rate * (hi - time a) := by
        rw [← Nat.mul_add]
        congr 1
        omega
      have hcount : cost * (if (step s a).2 = true ∧ lo ≤ time a ∧ time a ≤ hi then 1 else 0) ≤
          if (step s a).2 then cost else 0 := counted_le cost _ _
      rw [passesIn_cons,Nat.mul_add]
      omega
    · rw [passesIn_eq_zero lo hi (a :: as) s ?_]
      · simp
      · intro b hb
        rcases List.mem_cons.mp hb with rfl | hb
        · omega
        · have := hbehind b hb
          omega

/-- Whenever the interval starts, at most `cap` was saved up before it. -/
theorem Amortised.passesIn_le_cap (lo hi : Nat) (as : List α) (s : σ) (m : Nat)
    (hgood : Good s m) (hallowed : ∀ a ∈ as, Allowed a)
    (hsorted : as.Pairwise fun a b => time a ≤ time b) (hafter : ∀ a ∈ as, m ≤ time a) :
    cost * passesIn time lo hi (trace step s as) ≤ cap + rate * (hi - lo) := by
  induction as generalizing s m with
  | nil => simp [passesIn,trace]
  | cons a as ih =>
    obtain ⟨hbehind,hrest⟩ := List.pairwise_cons.mp hsorted
    have ha := hallowed a (by simp)
    have hma := hafter a (by simp)
    have hothers : ∀ b ∈ as, Allowed b := fun b hb => hallowed b (by simp [hb])
    have hnext := h.keeps s m a hgood ha hma
    by_cases hin : lo ≤ time a ∧ time a ≤ hi
    · have hcap := h.capped s m a hgood ha hma
      have hpay := h.passesIn_le_potential lo hi as (step s a).1 (time a) hnext hin.2 hothers
        hrest hbehind
      have hflow : rate * (hi - time a) ≤ rate * (hi - lo) := Nat.mul_le_mul_left _ (by omega)
      have hcount : cost * (if (step s a).2 = true ∧ lo ≤ time a ∧ time a ≤ hi then 1 else 0) =
          if (step s a).2 then cost else 0 := by
        simp only [hin,and_self,and_true]
        split_ifs <;> simp
      rw [passesIn_cons,Nat.mul_add]
      omega
    · rw [passesIn_cons,if_neg fun hpass => hin hpass.2]
      exact ih (step s a).1 (time a) hnext hothers hrest hbehind

end Amortised

/-- What every step from a good state gives holds of every event. -/
theorem forall_mem_trace {Good : σ → Nat → Prop} {Allowed : α → Prop} {Q : α × σ × Bool → Prop}
    (hstep : ∀ s m a, Good s m → Allowed a → m ≤ time a →
      Good (step s a).1 (time a) ∧ Q (a,step s a))
    (as : List α) (s : σ) (m : Nat) (hgood : Good s m) (hallowed : ∀ a ∈ as, Allowed a)
    (hsorted : as.Pairwise fun a b => time a ≤ time b) (hafter : ∀ a ∈ as, m ≤ time a) :
    ∀ e ∈ trace step s as, Q e := by
  induction as generalizing s m with
  | nil => simp [trace]
  | cons a as ih =>
    obtain ⟨hbehind,hrest⟩ := List.pairwise_cons.mp hsorted
    obtain ⟨hnext,hq⟩ := hstep s m a hgood (hallowed a (by simp)) (hafter a (by simp))
    intro e he
    rcases mem_trace_cons.mp he with rfl | he
    · exact hq
    · exact ih (step s a).1 (time a) hnext (fun b hb => hallowed b (by simp [hb])) hrest hbehind
        e he

end Aethon.Framework
