import Mathlib.Tactic

/-!
# Relaying a stream

A relay takes bytes in and hands bytes out, and its history is a list of actions. It keeps to
the stream when, at every point of the history, what it has handed out is an initial part of
what it has taken in.
-/

namespace Aethon.Framework

variable {α β : Type} (out inp : α → List β)

/-- At every point, what was handed out is an initial part of what was taken in. -/
def Trails (acts : List α) : Prop :=
  ∀ pre, pre <+: acts → pre.flatMap out <+: pre.flatMap inp

/-- Everything that was taken in was handed out. -/
def CaughtUp (acts : List α) : Prop := acts.flatMap out = acts.flatMap inp

variable {out inp}

theorem Trails.nil : Trails out inp [] := by
  intro pre hpre
  rw [List.prefix_nil.mp hpre]
  exact List.prefix_refl _

theorem CaughtUp.append {acts acts' : List α} (h : CaughtUp out inp acts)
    (h' : CaughtUp out inp acts') : CaughtUp out inp (acts ++ acts') := by
  rw [CaughtUp,List.flatMap_append,List.flatMap_append,h,h']

/-- A relay that has caught up starts afresh. -/
theorem Trails.append {acts acts' : List α} (h : Trails out inp acts)
    (hup : CaughtUp out inp acts) (h' : Trails out inp acts') :
    Trails out inp (acts ++ acts') := by
  intro pre hpre
  rcases List.prefix_or_prefix_of_prefix hpre (List.prefix_append acts acts') with hpre | hlong
  · exact h pre hpre
  · obtain ⟨rest,rfl⟩ := hlong
    have hrest := (List.prefix_append_right_inj acts).mp hpre
    rw [List.flatMap_append,List.flatMap_append,hup]
    exact (List.prefix_append_right_inj _).mpr (h' rest hrest)

section Quiet

variable {acts : List α} (hquiet : ∀ a ∈ acts, out a = [] ∧ inp a = [])
include hquiet

theorem CaughtUp.quiet : CaughtUp out inp acts := by
  rw [CaughtUp,List.flatMap_eq_nil_iff.mpr fun a ha => (hquiet a ha).1,
    List.flatMap_eq_nil_iff.mpr fun a ha => (hquiet a ha).2]

theorem Trails.quiet : Trails out inp acts := by
  intro pre hpre
  rw [List.flatMap_eq_nil_iff.mpr fun a ha => (hquiet a (hpre.subset ha)).1]
  exact ⟨_,List.nil_append _⟩

end Quiet

/-- A block that is taken in and then handed out in pieces. -/
theorem Trails.block {a : α} {acts : List α} (ha : out a = [])
    (hacts : acts.flatMap out <+: inp a) : Trails out inp (a :: acts) := by
  intro pre hpre
  rcases List.prefix_cons_iff.mp hpre with rfl | ⟨rest,rfl,hrest⟩
  · exact List.prefix_refl _
  · rw [List.flatMap_cons,List.flatMap_cons,ha,List.nil_append]
    obtain ⟨tail,rfl⟩ := hrest
    rw [List.flatMap_append] at hacts
    exact ((List.prefix_append _ _).trans hacts).trans (List.prefix_append _ _)

end Aethon.Framework
