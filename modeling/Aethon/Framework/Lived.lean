import Aethon.Framework.Heap

/-!
# Lives of heap objects

An address is handed out once, so what is recorded for it is the history of one object. The
object is not yet there, it is live, or it is gone, and the rules below follow it through a
change of the heap.
-/

namespace Aethon.Framework

variable {α β : Type}

/-- Where the object at `p` is in its life: `Live` holds of it and of its history while it is on
the heap, `Done` of its history after that. -/
structure Lived (Live : α → List β → Prop) (Done : List β → Prop) (p : Nat) (heap : Heap α)
    (history : List β) : Prop where
  unborn : heap.next ≤ p → history = []
  live : ∀ a, heap.mem p = some a → Live a history
  done : heap.mem p = none → history = [] ∨ Done history

namespace Lived

variable {Live : α → List β → Prop} {Done : List β → Prop} {p : Nat} {heap heap' : Heap α}
  {history : List β}

theorem empty (p : Nat) : Lived Live Done p .empty [] where
  unborn := fun _ => rfl
  live := fun _ h => by cases h
  done := fun _ => Or.inl rfl

/-- A change of other objects. -/
theorem other (h : Lived Live Done p heap history) (hnext : heap.next ≤ heap'.next)
    (hmem : heap'.mem p = heap.mem p) : Lived Live Done p heap' history where
  unborn := fun hp => h.unborn (hnext.trans hp)
  live := by
    rw [hmem]
    exact h.live
  done := by
    rw [hmem]
    exact h.done

theorem mono {Pre : α → List β → Prop} (h : Lived Pre Done p heap history)
    (himp : ∀ a, heap.mem p = some a → Pre a history → Live a history) :
    Lived Live Done p heap history where
  unborn := h.unborn
  live := fun a ha => himp a ha (h.live a ha)
  done := h.done

/-- The object is on the heap. -/
theorem stays (a : α) (hmem : heap.mem p = some a) (hlive : Live a history) :
    Lived Live Done p heap history where
  unborn := by
    intro hp
    have hlt := heap.lt_next hmem
    omega
  live := by
    intro b hb
    rw [hmem] at hb
    cases hb
    exact hlive
  done := by
    intro hnone
    rw [hmem] at hnone
    cases hnone

/-- The object is gone. -/
theorem gone (hlt : p < heap.next) (hmem : heap.mem p = none) (hdone : Done history) :
    Lived Live Done p heap history where
  unborn := fun hp => absurd hlt (by omega)
  live := by
    intro a ha
    rw [hmem] at ha
    cases ha
  done := fun _ => Or.inr hdone

section Freed

variable (hfreed : ∀ a history, Live a history → Done history)
include hfreed

theorem free (h : Lived Live Done p heap history) {q : Nat} {a : α} (hq : heap.mem q = some a) :
    Lived Live Done p (heap.free q) history := by
  by_cases hpq : p = q
  · subst hpq
    exact gone (heap.lt_next hq) (heap.free_mem_self p) (hfreed a _ (h.live a hq))
  · exact h.other le_rfl (heap.free_mem_of_ne hpq)

/-- What holds of the history of objects that are gone holds at every point. -/
theorem ended (h : Lived Live Done p heap history) (hnil : Done []) : Done history := by
  cases hmem : heap.mem p with
  | none =>
    rcases h.done hmem with hempty | hdone
    · rw [hempty]
      exact hnil
    · exact hdone
  | some a => exact hfreed a _ (h.live a hmem)

end Freed

end Lived

/-- Every entry of the history is related to the entries before it. -/
def Each (R : List β → β → Prop) (history : List β) : Prop :=
  ∀ before o after, history = before ++ o :: after → R before o

namespace Each

variable {R : List β → β → Prop} {history : List β}

theorem nil : Each R [] := by
  intro before o after h
  simp at h

theorem snoc (h : Each R history) {x : β} (hx : R history x) : Each R (history ++ [x]) := by
  intro before o after heq
  rcases after.eq_nil_or_concat with rfl | ⟨after',y,rfl⟩
  · obtain ⟨rfl,hlast⟩ := List.append_inj' heq rfl
    cases hlast
    exact hx
  · have hassoc : history ++ [x] = (before ++ o :: after') ++ [y] := by simpa using heq
    obtain ⟨rfl,_⟩ := List.append_inj' hassoc rfl
    exact h before o after' rfl

end Each

end Aethon.Framework
