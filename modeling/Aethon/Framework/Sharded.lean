import Aethon.Framework.Run

/-!
# Components that share nothing

A system of components of one kind: every input goes to one component or to none. A run of the
system is a run of each component on the inputs that go to it.
-/

namespace Aethon.Framework

variable {ι ε σ α β γ : Type} [DecidableEq ι]

/-- The input of component `i`. -/
def only (i : ι) (x : Option (ι × γ)) : Option γ :=
  x.bind fun p => if p.1 = i then some p.2 else none

@[simp] theorem only_self (i : ι) (c : γ) : only i (some (i,c)) = some c := if_pos rfl

theorem only_of_ne {i j : ι} (h : j ≠ i) (c : γ) : only i (some (j,c)) = none := if_neg h

/-- A step of the system. -/
def routed (route : α → Option (ι × γ)) (step : σ → γ → Except ε (σ × β)) (s : ι → σ) (a : α) :
    Except ε ((ι → σ) × Option (ι × β)) :=
  match route a with
  | none => .ok (s,none)
  | some (i,c) => do
      let (t,b) ← step (s i) c
      return (Function.update s i t,some (i,b))

variable {route : α → Option (ι × γ)} {step : σ → γ → Except ε (σ × β)}

theorem routed_none {a : α} (h : route a = none) (s : ι → σ) :
    routed route step s a = .ok (s,none) := by
  simp only [routed,h]

theorem routed_some {a : α} {i : ι} {c : γ} (h : route a = some (i,c)) (s t : ι → σ)
    (o : Option (ι × β)) :
    routed route step s a = .ok (t,o) ↔
      ∃ u b, step (s i) c = .ok (u,b) ∧ t = Function.update s i u ∧ o = some (i,b) := by
  simp only [routed,h]
  constructor
  · intro hstep
    obtain ⟨⟨u,b⟩,hc,hret⟩ := (bind_ok_iff ..).mp hstep
    cases hret
    exact ⟨u,b,hc,rfl,rfl⟩
  · rintro ⟨u,b,hc,rfl,rfl⟩
    exact (bind_ok_iff ..).mpr ⟨(u,b),hc,rfl⟩

/-- Every component of a run of the system runs on its own inputs. -/
theorem runOut_routed {as : List α} {s u : ι → σ} {bs : List (Option (ι × β))}
    (hrun : runOut (routed route step) s as = .ok (u,bs)) (i : ι) :
    runOut step (s i) (as.filterMap fun a => only i (route a)) =
      .ok (u i,bs.filterMap (only i)) := by
  induction as generalizing s bs with
  | nil =>
    cases hrun
    rfl
  | cons a as ih =>
    obtain ⟨t,o,rest,hstep,hrest,rfl⟩ := (runOut_cons ..).mp hrun
    have htail := ih hrest
    cases hroute : route a with
    | none =>
      rw [routed_none hroute] at hstep
      cases hstep
      rw [List.filterMap_cons_none (by rw [hroute]; rfl),List.filterMap_cons_none rfl]
      exact htail
    | some p =>
      obtain ⟨j,c⟩ := p
      obtain ⟨v,b,hc,rfl,rfl⟩ := (routed_some hroute ..).mp hstep
      by_cases hj : j = i
      · subst hj
        rw [Function.update_self] at htail
        rw [List.filterMap_cons_some (by rw [hroute]; exact only_self ..),
          List.filterMap_cons_some (only_self ..)]
        exact (runOut_cons ..).mpr ⟨v,b,_,hc,htail,rfl⟩
      · rw [Function.update_of_ne (Ne.symm hj)] at htail
        rw [List.filterMap_cons_none (by rw [hroute]; exact only_of_ne hj _),
          List.filterMap_cons_none (only_of_ne hj _)]
        exact htail

end Aethon.Framework
