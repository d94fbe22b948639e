import Mathlib.Data.List.Basic

/-!
# Simulation of total machines

A machine takes a call, changes its state and answers. One machine simulates another if, as long
as the calls meet its precondition, the other allows the translated calls and gives the same
answers, and the states stay related. Simulations compose, and they carry over to whole runs.
-/

namespace Aethon.Framework

variable {σ τ υ α α' α'' β : Type}

/-- The last state and the answers of a run. -/
def exec (step : σ → α → σ × β) : σ → List α → σ × List β
  | s, [] => (s,[])
  | s, a :: as => ((exec step (step s a).1 as).1,(step s a).2 :: (exec step (step s a).1 as).2)

/-- Every call of the run meets `C` in the state it is made in. -/
def Meets (C : σ → α → Prop) (step : σ → α → σ × β) : σ → List α → Prop
  | _, [] => True
  | s, a :: as => C s a ∧ Meets C step (step s a).1 as

instance Meets.decidable (C : σ → α → Prop) [∀ s a, Decidable (C s a)] (step : σ → α → σ × β)
    (s : σ) (as : List α) : Decidable (Meets C step s as) :=
  match as with
  | [] => instDecidableTrue
  | a :: as =>
      have : Decidable (Meets C step (step s a).1 as) := Meets.decidable C step (step s a).1 as
      inferInstanceAs (Decidable (_ ∧ _))

theorem exec_append (step : σ → α → σ × β) (s : σ) (as bs : List α) :
    (exec step s (as ++ bs)).1 = (exec step (exec step s as).1 bs).1 := by
  induction as generalizing s with
  | nil => rfl
  | cons a as ih => exact ih (step s a).1

theorem Meets.append {C : σ → α → Prop} {step : σ → α → σ × β} {s : σ} {as bs : List α}
    (has : Meets C step s as) (hbs : Meets C step (exec step s as).1 bs) :
    Meets C step s (as ++ bs) := by
  induction as generalizing s with
  | nil => exact hbs
  | cons a as ih => exact ⟨has.1,ih has.2 hbs⟩

/-- Calls within the precondition lead from one state to the other. -/
def Permitted (C : σ → α → Prop) (step : σ → α → σ × β) (s t : σ) : Prop :=
  ∃ as, Meets C step s as ∧ (exec step s as).1 = t

namespace Permitted

variable {C : σ → α → Prop} {step : σ → α → σ × β} {s t u : σ}

theorem refl (s : σ) : Permitted C step s s := ⟨[],trivial,rfl⟩

theorem single (a : α) (h : C s a) : Permitted C step s (step s a).1 := ⟨[a],⟨h,trivial⟩,rfl⟩

theorem trans (h : Permitted C step s t) (h' : Permitted C step t u) : Permitted C step s u := by
  obtain ⟨as,has,rfl⟩ := h
  obtain ⟨bs,hbs,rfl⟩ := h'
  exact ⟨as ++ bs,has.append hbs,exec_append step s as bs⟩

end Permitted

/-- The square of one call, for related states and calls within the precondition. -/
structure Simulates (step : σ → α → σ × β) (spec : τ → α' → τ × β) (call : α → α')
    (C : σ → α → Prop) (D : τ → α' → Prop) (R : σ → τ → Prop) : Prop where
  allowed : ∀ s t a, R s t → C s a → D t (call a)
  answer : ∀ s t a, R s t → C s a → (step s a).2 = (spec t (call a)).2
  keeps : ∀ s t a, R s t → C s a → R (step s a).1 (spec t (call a)).1

namespace Simulates

variable {step : σ → α → σ × β} {spec : τ → α' → τ × β} {call : α → α'} {C : σ → α → Prop}
  {D : τ → α' → Prop} {R : σ → τ → Prop}

theorem comp {spec' : υ → α'' → υ × β} {call' : α' → α''} {E : υ → α'' → Prop} {S : τ → υ → Prop}
    (h : Simulates step spec call C D R) (h' : Simulates spec spec' call' D E S) :
    Simulates step spec' (fun a => call' (call a)) C E fun s u => ∃ t, R s t ∧ S t u where
  allowed := by
    intro s u a hrel hC
    obtain ⟨t,hR,hS⟩ := hrel
    exact h'.allowed t u (call a) hS (h.allowed s t a hR hC)
  answer := by
    intro s u a hrel hC
    obtain ⟨t,hR,hS⟩ := hrel
    rw [h.answer s t a hR hC,h'.answer t u (call a) hS (h.allowed s t a hR hC)]
  keeps := by
    intro s u a hrel hC
    obtain ⟨t,hR,hS⟩ := hrel
    exact ⟨(spec t (call a)).1,h.keeps s t a hR hC,
      h'.keeps t u (call a) hS (h.allowed s t a hR hC)⟩

/-- Runs from related states give the same answers and end in related states. -/
theorem run (h : Simulates step spec call C D R) (as : List α) (s : σ) (t : τ) (hR : R s t)
    (hC : Meets C step s as) :
    (exec step s as).2 = (exec spec t (as.map call)).2 ∧
      R (exec step s as).1 (exec spec t (as.map call)).1 := by
  induction as generalizing s t with
  | nil => exact ⟨rfl,hR⟩
  | cons a as ih =>
    have hnext := ih (step s a).1 (spec t (call a)).1 (h.keeps s t a hR hC.1) hC.2
    constructor
    · change (step s a).2 :: _ = (spec t (call a)).2 :: _
      rw [h.answer s t a hR hC.1,hnext.1]
    · exact hnext.2

theorem permitted (h : Simulates step spec call C D R) {s s' : σ} {t : τ} (hR : R s t)
    (hreach : Permitted C step s s') : ∃ t', R s' t' := by
  obtain ⟨as,has,rfl⟩ := hreach
  exact ⟨(exec spec t (as.map call)).1,(h.run as s t hR has).2⟩

end Simulates

end Aethon.Framework
