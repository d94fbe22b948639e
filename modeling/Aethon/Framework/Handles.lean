import Aethon.Framework.Heap

/-!
# Handles held by heap objects

Objects on a heap hold handles into a table, at most one each, and no two objects hold the same
one. The table has the tag that the holder remembers. While one object is worked on, the table
is seen as its own handle and a frame of handles of the others.
-/

namespace Aethon.Framework

variable {α β : Type}

/-- The table binds the object's own handle and those of the frame, and keeps them apart. -/
structure Focus (frame : Nat → β → Prop) (own : Option (Nat × β)) (table : Nat → Option β) :
    Prop where
  own_bound : ∀ fd tag, own = some (fd,tag) → table fd = some tag
  frame_bound : ∀ fd tag, frame fd tag → table fd = some tag
  apart : ∀ fd tag tag', own = some (fd,tag) → ¬ frame fd tag'

namespace Focus

variable {frame : Nat → β → Prop} {own : Option (Nat × β)} {table : Nat → Option β}
  {fd : Nat} {tag : β}

theorem of_frame (h : ∀ fd tag, frame fd tag → table fd = some tag) :
    Focus frame none table where
  own_bound _ _ hown := by cases hown
  frame_bound := h
  apart _ _ _ hown := by cases hown

theorem close (h : Focus frame (some (fd,tag)) table) :
    Focus frame none (Function.update table fd none) := by
  apply of_frame
  intro fd' tag' hframe
  rw [Function.update_of_ne]
  · exact h.frame_bound fd' tag' hframe
  · intro heq
    subst heq
    exact h.apart fd' tag tag' rfl hframe

theorem open_fresh (h : Focus frame none table) (hfree : table fd = none) (tag : β) :
    Focus frame (some (fd,tag)) (Function.update table fd (some tag)) where
  own_bound fd' tag' hown := by
    cases hown
    rw [Function.update_self]
  frame_bound fd' tag' hframe := by
    have hbound := h.frame_bound fd' tag' hframe
    rw [Function.update_of_ne]
    · exact hbound
    · intro heq
      rw [heq,hfree] at hbound
      cases hbound
  apart fd' _ tag' hown hframe := by
    cases hown
    rw [h.frame_bound fd tag' hframe] at hfree
    cases hfree

end Focus

/-- Every live object's handle is open with its tag, and no two objects hold the same. -/
structure Handles (handle : α → Option (Nat × β)) (heap : Heap α) (table : Nat → Option β) :
    Prop where
  bound : ∀ p a fd tag, heap.mem p = some a → handle a = some (fd,tag) → table fd = some tag
  apart : ∀ p q a b fd tag tag', heap.mem p = some a → heap.mem q = some b →
    handle a = some (fd,tag) → handle b = some (fd,tag') → p = q

/-- The handles of the objects at other addresses than `p`. -/
def heldByOthers (handle : α → Option (Nat × β)) (heap : Heap α) (p fd : Nat) (tag : β) : Prop :=
  ∃ q a, q ≠ p ∧ heap.mem q = some a ∧ handle a = some (fd,tag)

namespace Handles

variable {handle : α → Option (Nat × β)} {heap heap' : Heap α} {table table' : Nat → Option β}
  {p : Nat} {a : α}

theorem empty : Handles handle Heap.empty table where
  bound _ _ _ _ hp := by cases hp
  apart _ _ _ _ _ _ _ hp := by cases hp

theorem focus (h : Handles handle heap table) (hp : heap.mem p = some a) :
    Focus (heldByOthers handle heap p) (handle a) table where
  own_bound fd tag hown := h.bound p a fd tag hp hown
  frame_bound fd tag hframe := by
    obtain ⟨q,b,_,hq,hb⟩ := hframe
    exact h.bound q b fd tag hq hb
  apart fd tag tag' hown hframe := by
    obtain ⟨q,b,hne,hq,hb⟩ := hframe
    exact hne (h.apart q p b a fd tag' tag hq hp hb hown)

/-- Put back an object that was worked on: elsewhere the heap is the same. -/
theorem of_focus (h : Handles handle heap table) (hsame : ∀ q, q ≠ p → heap'.mem q = heap.mem q)
    (hfocus : ∀ b, heap'.mem p = some b → Focus (heldByOthers handle heap p) (handle b) table')
    (hframe : ∀ fd tag, heldByOthers handle heap p fd tag → table' fd = some tag) :
    Handles handle heap' table' where
  bound q b fd tag hq hb := by
    by_cases hqp : q = p
    · subst hqp
      exact (hfocus b hq).own_bound fd tag hb
    · rw [hsame q hqp] at hq
      exact hframe fd tag ⟨q,b,hqp,hq,hb⟩
  apart q r b c fd tag tag' hq hr hb hc := by
    by_cases hqp : q = p
    · subst hqp
      by_contra hne
      rw [hsame r (Ne.symm hne)] at hr
      exact (hfocus b hq).apart fd tag tag' hb ⟨r,c,Ne.symm hne,hr,hc⟩
    · rw [hsame q hqp] at hq
      by_cases hrp : r = p
      · subst hrp
        exact absurd ⟨q,b,hqp,hq,hb⟩ ((hfocus c hr).apart fd tag' tag hc)
      · rw [hsame r hrp] at hr
        exact h.apart q r b c fd tag tag' hq hr hb hc

theorem set (h : Handles handle heap table) {b : α} (hp : heap.mem p = some a)
    (hfocus : Focus (heldByOthers handle heap p) (handle b) table') :
    Handles handle (heap.set p b) table' := by
  apply h.of_focus (p := p)
  · intro q hq
    exact Heap.set_mem_of_ne heap b hq
  · intro b' hb'
    rw [Heap.set_mem_self heap b hp] at hb'
    cases hb'
    exact hfocus
  · exact hfocus.frame_bound

theorem free (h : Handles handle heap table)
    (hfocus : Focus (heldByOthers handle heap p) none table') :
    Handles handle (heap.free p) table' := by
  apply h.of_focus (p := p)
  · intro q hq
    exact Heap.free_mem_of_ne heap hq
  · intro b hb
    rw [Heap.free_mem_self] at hb
    cases hb
  · exact hfocus.frame_bound

/-- A new object that holds nothing. -/
theorem alloc (h : Handles handle heap table) (hnone : handle a = none) :
    Handles handle (heap.alloc a).2 table := by
  have hothers : ∀ fd tag, heldByOthers handle heap heap.next fd tag → table fd = some tag := by
    intro fd tag hheld
    obtain ⟨q,b,_,hq,hb⟩ := hheld
    exact h.bound q b fd tag hq hb
  apply h.of_focus (p := heap.next)
  · intro q hq
    exact Heap.alloc_mem_of_ne heap a hq
  · intro b hb
    have hself : (heap.alloc a).2.mem heap.next = some a := Heap.alloc_mem_self heap a
    rw [hself] at hb
    cases hb
    rw [hnone]
    exact Focus.of_frame hothers
  · exact hothers

end Handles

end Aethon.Framework
