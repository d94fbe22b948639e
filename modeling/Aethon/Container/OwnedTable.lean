import Aethon.Framework.Heap
import Aethon.Container.TableUpdate

/-!
# A table that owns heap objects

Both assembler engines keep their sessions behind pointers: the table maps a key to the
address of a session on the heap. The invariant says that stored addresses are live, that
no two keys share one, and that each object satisfies a property indexed by its key.
-/

namespace Aethon.SingleThreadHashMap

open Framework

variable {K α : Type} [DecidableEq K]

structure Owns (bound : Nat) (m : SingleThreadHashMap K Nat) (heap : Heap α)
    (I : K → α → Prop) : Prop where
  wf : m.Wf
  size_le : m.size ≤ bound
  room : bound < m.capacity
  live : ∀ k p, m.Stored k p → ∃ a, heap.mem p = some a ∧ I k a
  inj : ∀ k k' p, m.Stored k p → m.Stored k' p → k = k'

variable {bound : Nat} {m : SingleThreadHashMap K Nat} {heap : Heap α} {I J : K → α → Prop}

theorem Owns.size_lt (h : Owns bound m heap I) : m.size < m.capacity :=
  lt_of_le_of_lt h.size_le h.room

theorem Owns.holds (h : Owns bound m heap I) {k : K} {p : Nat} {a : α} (hst : m.Stored k p)
    (ha : heap.mem p = some a) : I k a := by
  obtain ⟨b,hb,hi⟩ := h.live k p hst
  rw [ha] at hb
  cases hb
  exact hi

theorem Owns.change (h : Owns bound m heap I)
    (hi : ∀ k p a, m.Stored k p → heap.mem p = some a → I k a → J k a) :
    Owns bound m heap J where
  wf := h.wf
  size_le := h.size_le
  room := h.room
  live := by
    intro k p hst
    obtain ⟨a,ha,hia⟩ := h.live k p hst
    exact ⟨a,ha,hi k p a hst ha hia⟩
  inj := h.inj

theorem owns_new (emptyKey : K) (hasher : K → Nat) (n : Nat) (hb : bound < 2 ^ n) :
    Owns bound (.new emptyKey hasher 0 n) heap I where
  wf := new_wf ..
  size_le := Nat.zero_le _
  room := hb
  live := fun k p hst => (new_not_stored emptyKey hasher 0 n k p hst).elim
  inj := fun k _ p hst => (new_not_stored emptyKey hasher 0 n k p hst).elim

/-- Overwriting the object of one key. -/
theorem Owns.set (h : Owns bound m heap I) {key : K} {p : Nat} {a : α} (hst : m.Stored key p)
    (hi : ∀ k b, k ≠ key → I k b → J k b) (ha : J key a) :
    Owns bound m (heap.set p a) J where
  wf := h.wf
  size_le := h.size_le
  room := h.room
  live := by
    intro k q hq
    obtain ⟨b,hb,hib⟩ := h.live k q hq
    by_cases hqp : q = p
    · subst hqp
      rw [h.inj k key q hq hst]
      exact ⟨a,heap.set_mem_self a hb,ha⟩
    · rw [heap.set_mem_of_ne a hqp]
      refine ⟨b,hb,hi k b ?_ hib⟩
      intro hk
      subst hk
      exact hqp (h.wf.stored_unique hq hst)
  inj := h.inj

/-- Overwriting an object that satisfies what its key, if it has one, asks for. -/
theorem Owns.overwrite (h : Owns bound m heap I) {p : Nat} {a : α}
    (ha : ∀ k, m.Stored k p → I k a) : Owns bound m (heap.set p a) I where
  wf := h.wf
  size_le := h.size_le
  room := h.room
  live := by
    intro k q hq
    obtain ⟨b,hb,hib⟩ := h.live k q hq
    by_cases hqp : q = p
    · subst hqp
      exact ⟨a,heap.set_mem_self a hb,ha k hq⟩
    · rw [heap.set_mem_of_ne a hqp]
      exact ⟨b,hb,hib⟩
  inj := h.inj

/-- Freeing an object that no key refers to. -/
theorem Owns.free (h : Owns bound m heap I) {p : Nat} (hp : ∀ k, ¬m.Stored k p) :
    Owns bound m (heap.free p) I where
  wf := h.wf
  size_le := h.size_le
  room := h.room
  live := by
    intro k q hq
    have hqp : q ≠ p := fun hqp => hp k (hqp ▸ hq)
    rw [heap.free_mem_of_ne hqp]
    exact h.live k q hq
  inj := h.inj

theorem Owns.erase (h : Owns bound m heap I) {key : K} (hne : key ≠ m.emptyKey) :
    ∃ b m', m.erase key = .ok (b,m') ∧ m.SameShape m' ∧
      (∀ k v, m'.Stored k v ↔ k ≠ key ∧ m.Stored k v) ∧ Owns bound m' heap I := by
  obtain ⟨b,m',he,hwf,hshape,hst,_,hsize⟩ := h.wf.erase_spec key hne h.size_lt
  refine ⟨b,m',he,hshape,hst,hwf,?_,?_,?_,?_⟩
  · have := h.size_le
    omega
  · rw [hshape.2.2]
    exact h.room
  · intro k p hk
    exact h.live k p ((hst k p).mp hk).2
  · intro k k' p hk hk'
    exact h.inj k k' p ((hst k p).mp hk).2 ((hst k' p).mp hk').2

/-- Removing a key together with its object. -/
theorem Owns.erase_free (h : Owns bound m heap I) {key : K} {p : Nat} (hst : m.Stored key p) :
    ∃ b m', m.erase key = .ok (b,m') ∧ m.SameShape m' ∧
      (∀ k v, m'.Stored k v ↔ k ≠ key ∧ m.Stored k v) ∧ Owns bound m' (heap.free p) I := by
  obtain ⟨b,m',he,hshape,hiff,ho⟩ := h.erase hst.ne_emptyKey
  refine ⟨b,m',he,hshape,hiff,ho.free ?_⟩
  intro k hk
  have hk' := (hiff k p).mp hk
  exact hk'.1 (h.inj k key p hk'.2 hst)

/-- Inserting a newly allocated object. -/
theorem Owns.insert (h : Owns bound m heap I) {key : K} (hne : key ≠ m.emptyKey)
    (hsize : m.size < bound) {a : α} (hi : ∀ k b, k ≠ key → I k b → J k b) (ha : J key a) :
    ∃ b m', m.emplace key (heap.alloc a).1 = .ok (b,m') ∧ m.SameShape m' ∧
      (∀ k v, m'.Stored k v ↔
        (k = key ∧ v = (heap.alloc a).1) ∨ (k ≠ key ∧ m.Stored k v)) ∧
      Owns bound m' (heap.alloc a).2 J := by
  obtain ⟨b,m',he,hwf,hshape,hst,_,hsz⟩ :=
    h.wf.emplace_spec key (heap.alloc a).1 hne h.size_lt
  have hold : ∀ k p, m.Stored k p → p ≠ (heap.alloc a).1 := by
    intro k p hk
    obtain ⟨b,hb,_⟩ := h.live k p hk
    exact (heap.lt_next hb).ne
  refine ⟨b,m',he,hshape,hst,hwf,?_,?_,?_,?_⟩
  · have := b.toNat_le
    omega
  · rw [hshape.2.2]
    exact h.room
  · intro k p hk
    rcases (hst k p).mp hk with hk | hk
    · obtain ⟨rfl,rfl⟩ := hk
      exact ⟨a,heap.alloc_mem_self a,ha⟩
    · obtain ⟨b,hb,hib⟩ := h.live k p hk.2
      rw [heap.alloc_mem_of_ne a (hold k p hk.2)]
      exact ⟨b,hb,hi k b hk.1 hib⟩
  · intro k k' p hk hk'
    rcases (hst k p).mp hk with hk | hk <;> rcases (hst k' p).mp hk' with hk' | hk'
    · rw [hk.1,hk'.1]
    · exact absurd hk.2 (hold k' p hk'.2)
    · exact absurd hk'.2 (hold k p hk.2)
    · exact h.inj k k' p hk.2 hk'.2

end Aethon.SingleThreadHashMap
