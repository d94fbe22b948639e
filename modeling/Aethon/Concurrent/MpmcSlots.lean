import Aethon.Concurrent.MpmcSchedule

/-!
# The slots of the multi-producer multi-consumer queue

What every slot holds at its turn, against the values of the push tickets drawn so far, and that
each step of a writer or a reader keeps it so.
-/

namespace Aethon.Concurrent

open Framework

variable {T : Type}

/-- What a writer has constructed and not published. -/
def Writer.stored : Writer T → Option (Nat × T)
  | .filled value ticket => some (ticket,value)
  | _ => none

/-- What a reader has moved out of a slot that it has not given back. -/
def Reader.taken : Reader T → Option (Nat × T)
  | .moved result ticket => some (ticket,result)
  | _ => none

theorem Writer.inside_of_stored {w : Writer T} {t : Nat} {v : T} (h : w.stored = some (t,v)) :
    w.inside = some t := by
  cases w <;> cases h
  rfl

theorem Reader.inside_of_taken {r : Reader T} {t : Nat} {v : T} (h : r.taken = some (t,v)) :
    r.inside = some t := by
  cases r <;> cases h
  rfl

namespace MpmcQueue

variable {n m : Nat}

/-- What the slots hold at the given turns, where `draws` are the push draws so far. -/
structure Stored (q : MpmcQueue T n m) (draws : List (Nat × T)) (turns : Nat → Nat) : Prop where
  order : draws.map Prod.fst = List.range q.pushTicket
  job : ∀ i p, (q.writers i).job = some p → p ∈ draws
  filled : ∀ i t v, (q.writers i).stored = some (t,v) →
    q.contents (t % q.capacity.toNat) = some v
  unfilled : ∀ t, turns (t % q.capacity.toNat) = 2 * (t / q.capacity.toNat) →
    (∀ i v, (q.writers i).stored ≠ some (t,v)) → q.contents (t % q.capacity.toNat) = none
  taken : ∀ j t v, (q.readers j).taken = some (t,v) →
    (t,v) ∈ draws ∧ q.contents (t % q.capacity.toNat) = none
  untaken : ∀ t v, (t,v) ∈ draws →
    turns (t % q.capacity.toNat) = 2 * (t / q.capacity.toNat) + 1 →
    (∀ j u, (q.readers j).taken ≠ some (t,u)) → q.contents (t % q.capacity.toNat) = some v

variable {q : MpmcQueue T n m} {draws : List (Nat × T)} {turns : Nat → Nat}

theorem Stored.drawPush (h : q.Stored draws turns) (hs : q.Scheduled turns) {i : Fin n}
    (hi : q.writers i = .idle) (v : T) :
    Stored { q with
      pushTicket := q.pushTicket + 1
      writers := Function.update q.writers i (.waiting v q.pushTicket) }
      (draws ++ [(q.pushTicket,v)]) turns := by
  have hstored : ∀ i', (Function.update q.writers i (.waiting v q.pushTicket) i').stored =
      (q.writers i').stored := by
    refine (Function.forall_update_iff q.writers fun i' (w : Writer T) =>
      w.stored = (q.writers i').stored).mpr ⟨?_,fun _ _ => rfl⟩
    rw [hi]
    rfl
  constructor
  · rw [List.map_append,h.order,List.range_succ]
    rfl
  · refine forall_update_some (f := Writer.job) ?_ ?_
    · rintro p ⟨⟩
      simp
    · intro i' _ p hp
      exact List.mem_append_left _ (h.job i' p hp)
  · intro i' t u hu
    rw [hstored] at hu
    exact h.filled i' t u hu
  · intro t ht hnone
    simp only [hstored] at hnone
    exact h.unfilled t ht hnone
  · intro j t u hu
    obtain ⟨hmem,hempty⟩ := h.taken j t u hu
    exact ⟨List.mem_append_left _ hmem,hempty⟩
  · intro t u hmem ht hnone
    rcases List.mem_append.mp hmem with hold | hnew
    · exact h.untaken t u hold ht hnone
    · obtain ⟨rfl,rfl⟩ := Prod.mk.inj (List.mem_singleton.mp hnew)
      have hlt := hs.pushes.finished q.pushTicket (by dsimp only at ht ⊢; omega)
      exact absurd hlt (lt_irrefl _)

/-- A writer moves on without touching a slot. -/
theorem Stored.withWriter (h : q.Stored draws turns) {i : Fin n} {w : Writer T}
    (hjob : w.job = (q.writers i).job) (hstored : w.stored = (q.writers i).stored) :
    Stored { q with writers := Function.update q.writers i w } draws turns := by
  have hjobs : ∀ i', (Function.update q.writers i w i').job = (q.writers i').job :=
    (Function.forall_update_iff q.writers fun i' (w : Writer T) =>
      w.job = (q.writers i').job).mpr ⟨hjob,fun _ _ => rfl⟩
  have hstores : ∀ i', (Function.update q.writers i w i').stored = (q.writers i').stored :=
    (Function.forall_update_iff q.writers fun i' (w : Writer T) =>
      w.stored = (q.writers i').stored).mpr ⟨hstored,fun _ _ => rfl⟩
  constructor
  · exact h.order
  · intro i' p hp
    rw [hjobs] at hp
    exact h.job i' p hp
  · intro i' t v hv
    rw [hstores] at hv
    exact h.filled i' t v hv
  · intro t ht hnone
    simp only [hstores] at hnone
    exact h.unfilled t ht hnone
  · exact h.taken
  · exact h.untaken

/-- A reader moves on without touching a slot. -/
theorem Stored.withReader (h : q.Stored draws turns) {j : Fin m} {r : Reader T}
    (popTicket : Nat) (htaken : r.taken = (q.readers j).taken) :
    Stored { q with
      popTicket := popTicket
      readers := Function.update q.readers j r } draws turns := by
  have htakes : ∀ j', (Function.update q.readers j r j').taken = (q.readers j').taken :=
    (Function.forall_update_iff q.readers fun j' (r : Reader T) =>
      r.taken = (q.readers j').taken).mpr ⟨htaken,fun _ _ => rfl⟩
  constructor
  · exact h.order
  · exact h.job
  · exact h.filled
  · exact h.unfilled
  · intro j' t v hv
    rw [htakes] at hv
    exact h.taken j' t v hv
  · intro t v hmem ht hnone
    simp only [htakes] at hnone
    exact h.untaken t v hmem ht hnone

/-- A writer at its turn finds the slot empty and constructs its element there. -/
theorem Stored.fill (h : q.Stored draws turns) (hs : q.Scheduled turns) {i : Fin n} {v : T}
    {t : Nat} (hi : q.writers i = .admitted v t) :
    Stored { q with
      contents := Function.update q.contents (t % q.capacity.toNat) (some v)
      writers := Function.update q.writers i (.filled v t) } draws turns := by
  have hinside : (q.writers i).inside = some t := by rw [hi]; rfl
  have hturn := hs.writing i t hinside
  constructor
  · exact h.order
  · refine forall_update_some (f := Writer.job) ?_ fun i' _ => h.job i'
    intro p hp
    exact h.job i p (by rw [hi]; exact hp)
  · refine (Function.forall_update_iff q.writers fun _ (w : Writer T) => ∀ u x,
      w.stored = some (u,x) → Function.update q.contents (t % q.capacity.toNat) (some v)
        (u % q.capacity.toNat) = some x).mpr ⟨?_,?_⟩
    · rintro u x ⟨⟩
      rw [Function.update_self]
    · intro i' hne u x hx
      have hslot : u % q.capacity.toNat ≠ t % q.capacity.toNat :=
        fun hslot => hne (hs.writer_unique (Writer.inside_of_stored hx) hinside hslot)
      rw [Function.update_of_ne hslot]
      exact h.filled i' u x hx
  · intro u hu hnone
    dsimp only at hu hnone ⊢
    by_cases hslot : u % q.capacity.toNat = t % q.capacity.toNat
    · have hut : u = t := eq_of_slot_visit hslot (by rw [hslot] at hu; omega)
      refine absurd ?_ (hnone i v)
      rw [Function.update_self,hut]
      rfl
    · rw [Function.update_of_ne hslot]
      refine h.unfilled u hu fun i' x hx => hnone i' x ?_
      have hne : i' ≠ i := by
        rintro rfl
        rw [hi] at hx
        cases hx
      rw [Function.update_of_ne hne,hx]
  · intro j u x hx
    obtain ⟨hmem,hempty⟩ := h.taken j u x hx
    have hslot := (hs.writer_reader hinside (Reader.inside_of_taken hx)).symm
    exact ⟨hmem,(Function.update_of_ne hslot ..).trans hempty⟩
  · intro u x hmem hu hnone
    dsimp only at hu hnone ⊢
    have hslot : u % q.capacity.toNat ≠ t % q.capacity.toNat := by
      intro hslot
      rw [hslot] at hu
      omega
    rw [Function.update_of_ne hslot]
    exact h.untaken u x hmem hu hnone

/-- A writer publishes its element. -/
theorem Stored.publishWriter (h : q.Stored draws turns) (hs : q.Scheduled turns) {i : Fin n}
    {v : T} {t : Nat} (hi : q.writers i = .filled v t) (turn : Nat → BitVec 32) :
    Stored { q with
      turn := turn
      writers := Function.update q.writers i .idle } draws (q.advance turns t) := by
  have hinside : (q.writers i).inside = some t := by rw [hi]; rfl
  have hturn := hs.writing i t hinside
  have hstored : ∀ i' u x, (Function.update q.writers i .idle i').stored = some (u,x) →
      (q.writers i').stored = some (u,x) := by
    refine (Function.forall_update_iff q.writers fun i' (w : Writer T) => ∀ u x,
      w.stored = some (u,x) → (q.writers i').stored = some (u,x)).mpr ⟨?_,fun _ _ _ _ => id⟩
    intro u x hx
    cases hx
  constructor
  · exact h.order
  · refine forall_update_some (f := Writer.job) ?_ fun i' _ => h.job i'
    intro p hp
    cases hp
  · intro i' u x hx
    exact h.filled i' u x (hstored i' u x hx)
  · intro u hu hnone
    dsimp only at hu hnone ⊢
    have hslot : u % q.capacity.toNat ≠ t % q.capacity.toNat := by
      intro hslot
      rw [advance,hslot,Function.update_self,hturn] at hu
      omega
    rw [advance,Function.update_of_ne hslot] at hu
    refine h.unfilled u hu fun i' x hx => hnone i' x ?_
    have hne : i' ≠ i := by
      rintro rfl
      rw [hi] at hx
      cases hx
      exact hslot rfl
    rw [Function.update_of_ne hne,hx]
  · exact h.taken
  · intro u x hmem hu hnone
    dsimp only at hu hnone ⊢
    by_cases hslot : u % q.capacity.toNat = t % q.capacity.toNat
    · rw [advance,hslot,Function.update_self,hturn] at hu
      have hut : u = t := eq_of_slot_visit hslot (by omega)
      have hmine := h.job i (t,v) (by rw [hi]; rfl)
      have hnodup : (draws.map Prod.fst).Nodup := by
        rw [h.order]
        exact List.nodup_range
      have heq := List.inj_on_of_nodup_map hnodup hmem hmine hut
      cases heq
      exact h.filled i t v (by rw [hi]; rfl)
    · rw [advance,Function.update_of_ne hslot] at hu
      exact h.untaken u x hmem hu hnone

/-- The element that a reader at its turn finds. -/
theorem Stored.present (h : q.Stored draws turns) (hs : q.Scheduled turns) {j : Fin m} {t : Nat}
    (hj : q.readers j = .admitted t) :
    ∃ v, q.contents (t % q.capacity.toNat) = some v ∧ (t,v) ∈ draws := by
  have hinside : (q.readers j).inside = some t := by rw [hj]; rfl
  have hturn := hs.reading j t hinside
  have hlt := hs.pushes.finished t (by omega)
  have hdrawn : t ∈ draws.map Prod.fst := by
    rw [h.order]
    exact List.mem_range.mpr hlt
  obtain ⟨⟨u,v⟩,hmem,rfl⟩ := List.mem_map.mp hdrawn
  refine ⟨v,h.untaken u v hmem hturn fun j' x hx => ?_,hmem⟩
  have hsame := hs.reader_unique (Reader.inside_of_taken hx) hinside rfl
  rw [hsame,hj] at hx
  cases hx

/-- A reader at its turn moves the element out of the slot. -/
theorem Stored.move (h : q.Stored draws turns) (hs : q.Scheduled turns) {j : Fin m} {v : T}
    {t : Nat} (hj : q.readers j = .admitted t) (hmem : (t,v) ∈ draws) :
    Stored { q with
      contents := Function.update q.contents (t % q.capacity.toNat) none
      readers := Function.update q.readers j (.moved v t) } draws turns := by
  have hinside : (q.readers j).inside = some t := by rw [hj]; rfl
  have hturn := hs.reading j t hinside
  constructor
  · exact h.order
  · exact h.job
  · intro i u x hx
    have hslot := hs.writer_reader (Writer.inside_of_stored hx) hinside
    dsimp only
    rw [Function.update_of_ne hslot]
    exact h.filled i u x hx
  · intro u hu hnone
    dsimp only at hu hnone ⊢
    have hslot : u % q.capacity.toNat ≠ t % q.capacity.toNat := by
      intro hslot
      rw [hslot] at hu
      omega
    rw [Function.update_of_ne hslot]
    exact h.unfilled u hu hnone
  · refine (Function.forall_update_iff q.readers fun _ (r : Reader T) => ∀ u x,
      r.taken = some (u,x) → (u,x) ∈ draws ∧ Function.update q.contents (t % q.capacity.toNat)
        none (u % q.capacity.toNat) = none).mpr ⟨?_,?_⟩
    · rintro u x ⟨⟩
      exact ⟨hmem,Function.update_self ..⟩
    · intro j' hne u x hx
      obtain ⟨hdrawn,hempty⟩ := h.taken j' u x hx
      have hslot : u % q.capacity.toNat ≠ t % q.capacity.toNat :=
        fun hslot => hne (hs.reader_unique (Reader.inside_of_taken hx) hinside hslot)
      exact ⟨hdrawn,(Function.update_of_ne hslot ..).trans hempty⟩
  · intro u x hdrawn hu hnone
    dsimp only at hu hnone ⊢
    by_cases hslot : u % q.capacity.toNat = t % q.capacity.toNat
    · have hut : u = t := eq_of_slot_visit hslot (by rw [hslot] at hu; omega)
      refine absurd ?_ (hnone j v)
      rw [Function.update_self,hut]
      rfl
    · rw [Function.update_of_ne hslot]
      refine h.untaken u x hdrawn hu fun j' y hy => hnone j' y ?_
      have hne : j' ≠ j := by
        rintro rfl
        rw [hj] at hy
        cases hy
      rw [Function.update_of_ne hne,hy]

/-- A reader gives its slot to the next writer. -/
theorem Stored.publishReader (h : q.Stored draws turns) (hs : q.Scheduled turns) {j : Fin m}
    {v : T} {t : Nat} (hj : q.readers j = .moved v t) (turn : Nat → BitVec 32) :
    Stored { q with
      turn := turn
      readers := Function.update q.readers j .idle } draws (q.advance turns t) := by
  have hinside : (q.readers j).inside = some t := by rw [hj]; rfl
  have hturn := hs.reading j t hinside
  have htaken : ∀ j' u x, (Function.update q.readers j .idle j').taken = some (u,x) →
      (q.readers j').taken = some (u,x) := by
    refine (Function.forall_update_iff q.readers fun j' (r : Reader T) => ∀ u x,
      r.taken = some (u,x) → (q.readers j').taken = some (u,x)).mpr ⟨?_,fun _ _ _ _ => id⟩
    intro u x hx
    cases hx
  constructor
  · exact h.order
  · exact h.job
  · exact h.filled
  · intro u hu hnone
    dsimp only at hu hnone ⊢
    by_cases hslot : u % q.capacity.toNat = t % q.capacity.toNat
    · rw [hslot]
      exact (h.taken j t v (by rw [hj]; rfl)).2
    · rw [advance,Function.update_of_ne hslot] at hu
      exact h.unfilled u hu hnone
  · intro j' u x hx
    exact h.taken j' u x (htaken j' u x hx)
  · intro u x hdrawn hu hnone
    dsimp only at hu hnone ⊢
    have hslot : u % q.capacity.toNat ≠ t % q.capacity.toNat := by
      intro hslot
      rw [advance,hslot,Function.update_self,hturn] at hu
      omega
    rw [advance,Function.update_of_ne hslot] at hu
    refine h.untaken u x hdrawn hu fun j' y hy => hnone j' y ?_
    have hne : j' ≠ j := by
      rintro rfl
      rw [hj] at hy
      cases hy
      exact hslot rfl
    rw [Function.update_of_ne hne,hy]

end MpmcQueue

end Aethon.Concurrent
