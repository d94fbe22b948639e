import Mathlib.Tactic

/-!
# Loops

The body of a loop either goes on with a new state or leaves with a result. A loop that is
written as a recursion on a number of rounds leaves with the value of the recursion, as long
as the rounds given cover a measure that every round decreases.
-/

namespace Aethon.Framework

variable {σ β : Type}

/-- What one round of a loop does. -/
inductive Round (σ β : Type) where
  | next (s : σ)
  | leave (b : β)

/-- The loop, started in a state, comes to an end with a result. -/
inductive Leaves (round : σ → Round σ β) : σ → β → Prop
  | leave {s : σ} {b : β} (h : round s = .leave b) : Leaves round s b
  | next {s t : σ} {b : β} (h : round s = .next t) (rest : Leaves round t b) : Leaves round s b

theorem Leaves.of_fuel {round : σ → Round σ β} (run : Nat → σ → β) (measure : σ → Nat)
    (hround : ∀ fuel s, measure s ≤ fuel → round s = .leave (run fuel s) ∨
      ∃ rest t, fuel = rest + 1 ∧ round s = .next t ∧ run fuel s = run rest t ∧
        measure t ≤ rest)
    (fuel : Nat) (s : σ) (hfuel : measure s ≤ fuel) : Leaves round s (run fuel s) := by
  induction fuel generalizing s with
  | zero =>
    rcases hround 0 s hfuel with hleave | ⟨rest,_,hzero,_⟩
    · exact .leave hleave
    · omega
  | succ fuel ih =>
    rcases hround (fuel + 1) s hfuel with hleave | ⟨rest,t,hsucc,hnext,hrun,hmeasure⟩
    · exact .leave hleave
    · obtain rfl : rest = fuel := by omega
      rw [hrun]
      exact .next hnext (ih t hmeasure)

end Aethon.Framework
