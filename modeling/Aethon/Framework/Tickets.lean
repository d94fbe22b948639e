import Mathlib.Data.Fintype.Card
import Mathlib.Logic.Function.Basic
import Mathlib.Tactic

/-!
# Tickets over slots

Threads draw numbers `0, 1, 2, …` and each number belongs to one of `C` slots: ticket `t` is the
visit number `t / C` to slot `t % C`. A slot is visited in order, so it is enough to know how many
visits to each slot are over. A thread holds at most one ticket, so as many visits to a slot can
be outstanding as there are threads, and no more.
-/

namespace Aethon.Framework

variable {ι : Type} {C N : Nat} {done : Nat → Nat} {hold : ι → Option Nat}

/-- `N` tickets are drawn, `done s` visits to slot `s` are over, and every other ticket that is
drawn is held by exactly one thread. -/
structure Ticketed (C N : Nat) (done : Nat → Nat) (hold : ι → Option Nat) : Prop where
  drawn : ∀ i t, hold i = some t → t < N
  pending : ∀ i t, hold i = some t → done (t % C) ≤ t / C
  holder : ∀ t, t < N → done (t % C) ≤ t / C → ∃ i, hold i = some t
  unique : ∀ i j t, hold i = some t → hold j = some t → i = j
  finished : ∀ t, t / C < done (t % C) → t < N

/-- What one thread's new state has and all others had, all have after the update. -/
theorem forall_update_some {κ α β : Type} [DecidableEq κ] {g : κ → α} {f : α → Option β} {i : κ}
    {a : α} {P : β → Prop} (hnew : ∀ b, f a = some b → P b)
    (hold : ∀ j, j ≠ i → ∀ b, f (g j) = some b → P b) :
    ∀ j b, f (Function.update g i a j) = some b → P b :=
  (Function.forall_update_iff g fun _ x => ∀ b, f x = some b → P b).mpr ⟨hnew,hold⟩

theorem eq_of_slot_visit {t u : Nat} (hslot : t % C = u % C) (hvisit : t / C = u / C) : t = u := by
  rw [← Nat.div_add_mod t C,← Nat.div_add_mod u C,hslot,hvisit]

/-- Once visit `t / C` to its slot is over, the visits over are those before and that one. -/
theorem visit_over_iff {t u : Nat} (hturn : done (t % C) = t / C) :
    u / C < Function.update done (t % C) (t / C + 1) (u % C) ↔ u / C < done (u % C) ∨ u = t := by
  by_cases hslot : u % C = t % C
  · rw [hslot,Function.update_self,hturn]
    constructor
    · intro hlt
      rcases Nat.lt_or_ge (u / C) (t / C) with hbefore | hge
      · exact .inl hbefore
      · exact .inr (eq_of_slot_visit hslot (by omega))
    · rintro (hlt | rfl) <;> omega
  · rw [Function.update_of_ne hslot]
    constructor
    · exact .inl
    · rintro (hlt | rfl)
      · exact hlt
      · exact absurd rfl hslot

namespace Ticketed

theorem init (C : Nat) : Ticketed C 0 (fun _ => 0) (fun _ : ι => none) where
  drawn := by simp
  pending := by simp
  holder := by simp
  unique := by simp
  finished := by simp

variable [DecidableEq ι]

theorem draw (h : Ticketed C N done hold) {i : ι} (hi : hold i = none) :
    Ticketed C (N + 1) done (Function.update hold i (some N)) where
  drawn := by
    refine forall_update_some (f := id) ?_ ?_
    · rintro t ⟨⟩
      omega
    · intro j _ t hj
      have := h.drawn j t hj
      omega
  pending := by
    refine forall_update_some (f := id) ?_ ?_
    · rintro t ⟨⟩
      by_contra hlt
      exact absurd (h.finished N (by omega)) (lt_irrefl N)
    · intro j _ t hj
      exact h.pending j t hj
  holder := by
    intro t ht hdone
    rcases Nat.lt_or_ge t N with hlt | hge
    · obtain ⟨j,hj⟩ := h.holder t hlt hdone
      have hne : j ≠ i := by
        rintro rfl
        rw [hi] at hj
        cases hj
      exact ⟨j,by rw [Function.update_of_ne hne,hj]⟩
    · exact ⟨i,by rw [Function.update_self,show t = N by omega]⟩
  unique := by
    have hfresh : ∀ j t, j ≠ i → Function.update hold i (some N) j = some t → t ≠ N := by
      intro j t hne hj
      rw [Function.update_of_ne hne] at hj
      have := h.drawn j t hj
      omega
    intro j k t hj hk
    by_cases hji : j = i
    · by_cases hki : k = i
      · rw [hji,hki]
      · subst hji
        rw [Function.update_self] at hj
        cases hj
        exact absurd rfl (hfresh k N hki hk)
    · by_cases hki : k = i
      · subst hki
        rw [Function.update_self] at hk
        cases hk
        exact absurd rfl (hfresh j N hji hj)
      · rw [Function.update_of_ne hji] at hj
        rw [Function.update_of_ne hki] at hk
        exact h.unique j k t hj hk
  finished := by
    intro t ht
    have := h.finished t ht
    omega

/-- The next visit to a slot ends and its ticket is given up. -/
theorem finish (h : Ticketed C N done hold) {i : ι} {t : Nat} (hi : hold i = some t)
    (hturn : done (t % C) = t / C) :
    Ticketed C N (Function.update done (t % C) (t / C + 1)) (Function.update hold i none) := by
  have hold_of : ∀ j u, Function.update hold i none j = some u → hold j = some u ∧ u ≠ t := by
    intro j u hj
    by_cases hji : j = i
    · rw [hji,Function.update_self] at hj
      cases hj
    · rw [Function.update_of_ne hji] at hj
      refine ⟨hj,?_⟩
      rintro rfl
      exact hji (h.unique j i u hj hi)
  constructor
  · intro j u hj
    exact h.drawn j u (hold_of j u hj).1
  · intro j u hj
    obtain ⟨hj,hne⟩ := hold_of j u hj
    have hpending := h.pending j u hj
    rw [← not_lt,visit_over_iff hturn]
    rintro (hlt | rfl)
    · omega
    · exact hne rfl
  · intro u hu hle
    rw [← not_lt,visit_over_iff hturn,not_or,not_lt] at hle
    obtain ⟨hle,hne⟩ := hle
    obtain ⟨j,hj⟩ := h.holder u hu hle
    have hji : j ≠ i := by
      rintro rfl
      rw [hi] at hj
      cases hj
      exact hne rfl
    exact ⟨j,by rw [Function.update_of_ne hji,hj]⟩
  · intro j k u hj hk
    exact h.unique j k u (hold_of j u hj).1 (hold_of k u hk).1
  · intro u hu
    rcases (visit_over_iff hturn).mp hu with hlt | rfl
    · exact h.finished u hlt
    · exact h.drawn i u hi

omit [DecidableEq ι] in
/-- A ticket that is held is fewer visits away than there are threads: each visit before it is
held by a thread of its own. -/
theorem window [Fintype ι] (h : Ticketed C N done hold) {i : ι} {t : Nat} (hC : 0 < C)
    (hi : hold i = some t) : t / C < done (t % C) + Fintype.card ι := by
  have hslot : ∀ v, (v * C + t % C) % C = t % C := by
    intro v
    rw [Nat.mul_add_mod',Nat.mod_mod]
  have hvisit : ∀ v, (v * C + t % C) / C = v := by
    intro v
    rw [Nat.mul_comm,Nat.mul_add_div hC,Nat.div_eq_of_lt (Nat.mod_lt _ hC),Nat.add_zero]
  have hheld : ∀ k : Fin (t / C + 1 - done (t % C)),
      ∃ j, hold j = some ((done (t % C) + k) * C + t % C) := by
    intro k
    apply h.holder
    · have hle : (done (t % C) + k) * C ≤ t / C * C := Nat.mul_le_mul_right C (by omega)
      have hsplit := Nat.div_add_mod' t C
      have := h.drawn i t hi
      omega
    · rw [hslot,hvisit]
      omega
  choose thread hthread using hheld
  have hinj : Function.Injective thread := by
    intro a b hab
    have heq : some ((done (t % C) + a) * C + t % C) = some ((done (t % C) + b) * C + t % C) := by
      rw [← hthread a,hab,hthread b]
    have hdiv := congrArg (· / C) (Option.some.inj heq)
    simp only [hvisit] at hdiv
    exact Fin.ext (by omega)
  have hcard := Fintype.card_le_of_injective thread hinj
  rw [Fintype.card_fin] at hcard
  have := h.pending i t hi
  omega

end Ticketed

end Aethon.Framework
