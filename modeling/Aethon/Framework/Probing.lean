import Aethon.Framework.Cyclic

/-!
# Linear probing

Tables with `N` slots in which an entry sits at or after its home slot and every slot
before it on the way is occupied. The search loop is stated for an arbitrary hit and stop
test; deletion by backward shift is stated as rules on a table with one hole.
-/

namespace Aethon.Framework

section Search

variable (next : Nat → Nat) (hit stop : Nat → Prop) [DecidablePred hit] [DecidablePred stop]

/-- Probe at most `budget` slots from slot `i` on: the first hit, unless a stop comes first. -/
def probe : Nat → Nat → Option Nat
  | 0, _ => none
  | budget + 1, i =>
      if hit i then some i else if stop i then none else probe budget (next i)

theorem probe_eq_some (budget i j : Nat) :
    probe next hit stop budget i = some j ↔
      ∃ d < budget, j = next^[d] i ∧ hit j ∧ ∀ e < d, ¬hit (next^[e] i) ∧ ¬stop (next^[e] i) := by
  induction budget generalizing i with
  | zero => simp [probe]
  | succ budget ih =>
    rw [probe]
    split_ifs with hh hs
    · constructor
      · rintro h
        cases h
        exact ⟨0,by omega,rfl,hh,fun e he => by omega⟩
      · rintro ⟨d,hd,rfl,hj,he⟩
        cases d with
        | zero => rfl
        | succ d => exact absurd hh (he 0 (by omega)).1
    · constructor
      · intro h
        cases h
      · rintro ⟨d,hd,rfl,hj,he⟩
        cases d with
        | zero => exact absurd hj hh
        | succ d => exact absurd hs (he 0 (by omega)).2
    · rw [ih]
      constructor
      · rintro ⟨d,hd,rfl,hj,he⟩
        refine ⟨d + 1,by omega,rfl,hj,?_⟩
        intro e hlt
        cases e with
        | zero => exact ⟨hh,hs⟩
        | succ e => exact he e (by omega)
      · rintro ⟨d,hd,rfl,hj,he⟩
        cases d with
        | zero => exact absurd hj hh
        | succ d => exact ⟨d,by omega,rfl,hj,fun e hlt => he (e + 1) (by omega)⟩

theorem probe_eq_none (budget i : Nat) :
    probe next hit stop budget i = none ↔
      ∀ d < budget, (∀ e < d, ¬hit (next^[e] i) ∧ ¬stop (next^[e] i)) → ¬hit (next^[d] i) := by
  rw [Option.eq_none_iff_forall_ne_some]
  constructor
  · intro h d hd he hj
    exact h (next^[d] i) ((probe_eq_some next hit stop budget i _).mpr ⟨d,hd,rfl,hj,he⟩)
  · intro h j hj
    obtain ⟨d,hd,rfl,hh,he⟩ := (probe_eq_some next hit stop budget i j).mp hj
    exact h d hd he hh

end Search

section Ring

variable {N : Nat}

theorem and_mask_eq_mod (h : ∃ n, N = 2 ^ n) (x : Nat) : x &&& (N - 1) = x % N := by
  obtain ⟨n,rfl⟩ := h
  exact Nat.and_two_pow_sub_one_eq_mod x n

/-- The masked successor steps around the ring. -/
theorem mask_iterate (h : ∃ n, N = 2 ^ n) {i d : Nat} (hi : i < N) (hd : d ≤ N) :
    (fun x => (x + 1) &&& (N - 1))^[d] i = wrap N (i + d) := by
  refine wrap_iterate N i d _ hi hd fun x hx => ?_
  rw [and_mask_eq_mod h,wrap_eq_mod]
  omega

variable {next : Nat → Nat} {hit stop : Nat → Prop} [DecidablePred hit] [DecidablePred stop]
  {home : Nat}

/-- A probe once around the ring finds the slot nearest to its start. -/
theorem probe_ring_eq_some (hhome : home < N)
    (hnext : ∀ d, d ≤ N → next^[d] home = wrap N (home + d)) (j : Nat) :
    probe next hit stop N home = some j ↔
      j < N ∧ hit j ∧
        ∀ p, p < N → ringDist N home p < ringDist N home j → ¬hit p ∧ ¬stop p := by
  rw [probe_eq_some]
  constructor
  · rintro ⟨d,hd,rfl,hj,hbefore⟩
    rw [hnext d hd.le] at hj ⊢
    refine ⟨wrap_lt _ _ (by omega),hj,?_⟩
    intro p hp hlt
    rw [ringDist_wrap _ _ _ hhome hd] at hlt
    have hmiss := hbefore _ hlt
    rw [hnext _ (by omega),wrap_ringDist _ _ _ hp hhome] at hmiss
    exact hmiss
  · rintro ⟨hj,hhit,hbefore⟩
    have hdist := ringDist_lt N home j hhome hj
    refine ⟨ringDist N home j,hdist,?_,hhit,?_⟩
    · rw [hnext _ hdist.le,wrap_ringDist _ _ _ hj hhome]
    · intro e he
      rw [hnext e (by omega)]
      exact hbefore _ (wrap_lt _ _ (by omega)) (by rw [ringDist_wrap _ _ _ hhome (by omega)]; exact he)

/-- A probe that nothing stops misses only if there is nothing to hit. -/
theorem not_hit_of_probe_ring (hhome : home < N)
    (hnext : ∀ d, d ≤ N → next^[d] home = wrap N (home + d))
    (h : probe next hit (fun _ => False) N home = none) (j : Nat) (hj : j < N) : ¬hit j := by
  induction hd : ringDist N home j using Nat.strongRecOn generalizing j with
  | ind d ih =>
    intro hhit
    have hsome : probe next hit (fun _ => False) N home = some j :=
      (probe_ring_eq_some hhome hnext j).mpr
        ⟨hj,hhit,fun p hp hlt => ⟨ih _ (hd ▸ hlt) p hp rfl,id⟩⟩
    rw [h] at hsome
    cases hsome

end Ring

section Table

variable {α : Type} (N : Nat) (home : α → Nat)

/-- Every occupied slot is reached from the home slot of its entry over occupied slots. -/
def PathOk (T : Nat → Option α) : Prop :=
  ∀ p a, p < N → T p = some a → ∀ d < ringDist N (home a) p, T (wrap N (home a + d)) ≠ none

/-- A table during backward-shift deletion: slot `i` is the hole, and the slots after it up
to `j` have been looked at. Paths are intact except that they may cross the hole, and no
entry already looked at has a path that does. -/
structure HoleInv (T : Nat → Option α) (i j : Nat) : Prop where
  hole_lt : i < N
  scan_lt : j < N
  path : ∀ p a, p < N → p ≠ i → T p = some a → ∀ d < ringDist N (home a) p,
    wrap N (home a + d) ≠ i → T (wrap N (home a + d)) ≠ none
  scanned : ∀ p a, p < N → T p = some a → 0 < ringDist N i p → ringDist N i p ≤ ringDist N i j →
    ringDist N (home a) p ≤ ringDist N (home a) i

variable {N home} {T : Nat → Option α} {i j : Nat}

theorem PathOk.holeInv (h : PathOk N home T) (hi : i < N) : HoleInv N home T i i where
  hole_lt := hi
  scan_lt := hi
  path := fun p a hp _ hT d hd _ => h p a hp hT d hd
  scanned := fun p a _ _ h0 h1 => by
    rw [ringDist_self] at h1
    omega

/-- The entry after the slots looked at stays where its home lies between the hole and it. -/
theorem HoleInv.skip (h : HoleInv N home T i j) (hne : wrap N (j + 1) ≠ i)
    (hstay : ∀ a, T (wrap N (j + 1)) = some a →
      ringDist N (home a) (wrap N (j + 1)) ≤ ringDist N (home a) i) :
    HoleInv N home T i (wrap N (j + 1)) where
  hole_lt := h.hole_lt
  scan_lt := wrap_lt N _ (by have := h.scan_lt; omega)
  path := h.path
  scanned := by
    intro p a hp hT h0 h1
    rw [ringDist_next N i j h.hole_lt h.scan_lt hne] at h1
    rcases Nat.lt_or_eq_of_le h1 with hlt | heq
    · exact h.scanned p a hp hT h0 (by omega)
    · have hw := wrap_lt N (j + 1) (by have := h.scan_lt; omega)
      have hd := ringDist_next N i j h.hole_lt h.scan_lt hne
      have hpe : p = wrap N (j + 1) := ringDist_inj N i _ _ h.hole_lt hp hw (by omega)
      subst hpe
      exact hstay a hT

/-- Moving the next entry into the hole leaves the hole where the entry was. -/
theorem HoleInv.shift (h : HoleInv N home T i j) (a : α) (ha : home a < N)
    (hne : wrap N (j + 1) ≠ i) (hT : T (wrap N (j + 1)) = some a)
    (hmove : ringDist N (home a) i < ringDist N (home a) (wrap N (j + 1))) :
    HoleInv N home (Function.update T i (some a)) (wrap N (j + 1)) (wrap N (j + 1)) where
  hole_lt := wrap_lt N _ (by have := h.scan_lt; omega)
  scan_lt := wrap_lt N _ (by have := h.scan_lt; omega)
  path := by
    intro p b hp hpj hTp d hd hq
    have hj := wrap_lt N (j + 1) (by have := h.scan_lt; omega)
    by_cases hpi : p = i
    · subst hpi
      rw [Function.update_self] at hTp
      cases hTp
      have hdl : d < N := hd.trans (ringDist_lt N _ _ ha hp)
      have hqi : wrap N (home a + d) ≠ p := by
        intro he
        rw [← he,ringDist_wrap N _ _ ha hdl] at hd
        exact lt_irrefl _ hd
      rw [Function.update_of_ne hqi]
      exact h.path _ a hj hne hT d (hd.trans hmove) hqi
    · rw [Function.update_of_ne hpi] at hTp
      by_cases hqi : wrap N (home b + d) = i
      · rw [hqi,Function.update_self]
        simp
      · rw [Function.update_of_ne hqi]
        exact h.path p b hp hpi hTp d hd hqi
  scanned := fun p b _ _ h0 h1 => by
    rw [ringDist_self] at h1
    omega

/-- The scan may stop at an empty slot: no path reaches past it over the hole. -/
theorem HoleInv.finish_empty (h : HoleInv N home T i j) (hhome : ∀ a, home a < N)
    (hne : wrap N (j + 1) ≠ i) (hT : T (wrap N (j + 1)) = none) :
    PathOk N home (Function.update T i none) := by
  intro p a hp hTp d hd
  have hpi : p ≠ i := by
    rintro rfl
    simp at hTp
  rw [Function.update_of_ne hpi] at hTp
  have hdl : d < N := hd.trans (ringDist_lt N _ _ (hhome a) hp)
  by_cases hq : wrap N (home a + d) = i
  · exfalso
    have hdi : ringDist N (home a) i = d := by rw [← hq,ringDist_wrap N _ _ (hhome a) hdl]
    have hj := wrap_lt N (j + 1) (by have := h.scan_lt; omega)
    have hip : 0 < ringDist N i p := by
      have := ringDist_eq_zero N i p h.hole_lt
      omega
    have hfar : ringDist N i j < ringDist N i p := by
      by_contra hc
      have := h.scanned p a hp hTp hip (by omega)
      omega
    have hpj : p ≠ wrap N (j + 1) := by
      rintro rfl
      rw [hT] at hTp
      cases hTp
    have hsplit := ringDist_split N (home a) i p (hhome a) h.hole_lt hp (by omega)
    have hnext := ringDist_next N i j h.hole_lt h.scan_lt hne
    have hlt : ringDist N i (wrap N (j + 1)) < ringDist N i p := by
      rcases Nat.lt_or_eq_of_le (show ringDist N i (wrap N (j + 1)) ≤ ringDist N i p by omega) with hl | he
      · exact hl
      · exact absurd (ringDist_inj N i _ _ h.hole_lt hp hj he.symm) hpj
    have hmid : wrap N (home a + (d + ringDist N i (wrap N (j + 1)))) = wrap N (j + 1) := by
      have hpl := ringDist_lt N (home a) p (hhome a) hp
      rw [← hdi]
      exact wrap_ringDist_add N (home a) i _ (hhome a) h.hole_lt hj (by omega)
    have hocc := h.path p a hp hpi hTp (d + ringDist N i (wrap N (j + 1))) (by omega)
    rw [hmid] at hocc
    exact hocc hne hT
  · rw [Function.update_of_ne hq]
    exact h.path p a hp hpi hTp d hd hq

/-- The scan may stop when it is back at the hole: every entry has been looked at. -/
theorem HoleInv.finish_cycle (h : HoleInv N home T i j) (hhome : ∀ a, home a < N)
    (hback : wrap N (j + 1) = i) : PathOk N home (Function.update T i none) := by
  intro p a hp hTp d hd
  have hpi : p ≠ i := by
    rintro rfl
    simp at hTp
  rw [Function.update_of_ne hpi] at hTp
  have hdl : d < N := hd.trans (ringDist_lt N _ _ (hhome a) hp)
  have hq : wrap N (home a + d) ≠ i := by
    intro hq
    have hdi : ringDist N (home a) i = d := by rw [← hq,ringDist_wrap N _ _ (hhome a) hdl]
    have hip : 0 < ringDist N i p := by
      have := ringDist_eq_zero N i p h.hole_lt
      omega
    have hlast := ringDist_last N i j h.hole_lt h.scan_lt hback
    have hlt := ringDist_lt N i p h.hole_lt hp
    have := h.scanned p a hp hTp hip (by omega)
    omega
  rw [Function.update_of_ne hq]
  exact h.path p a hp hpi hTp d hd hq

/-- No entry besides those of slots `f` and `i` has a path over `f`. -/
def Gate (N : Nat) (home : α → Nat) (T : Nat → Option α) (f i : Nat) : Prop :=
  ∀ p a, p < N → p ≠ f → p ≠ i → T p = some a → ringDist N (home a) p ≤ ringDist N (home a) f

variable {f : Nat}

theorem Gate.mono (h : Gate N home T f f) (i : Nat) : Gate N home T f i :=
  fun p a hp hpf _ ha => h p a hp hpf hpf ha

/-- An empty slot is a gate. -/
theorem PathOk.gate (h : PathOk N home T) (hhome : ∀ a, home a < N) (hf : f < N)
    (hT : T f = none) : Gate N home T f f := by
  intro p a hp _ _ ha
  by_contra hlt
  have hocc := h p a hp ha _ (Nat.not_le.mp hlt)
  rw [wrap_ringDist N _ _ hf (hhome a)] at hocc
  exact hocc hT

/-- An entry that moves back into the hole keeps the gate. -/
theorem Gate.shift (h : Gate N home T f i) {a : α} (hj : j < N) (hne : j ≠ i) (hT : T j = some a)
    (hmove : ringDist N (home a) i < ringDist N (home a) j) :
    Gate N home (Function.update T i (some a)) f j := by
  intro p b hp hpf hpj hb
  by_cases hpi : p = i
  · subst hpi
    rw [Function.update_self] at hb
    cases hb
    by_cases hjf : j = f
    · rw [← hjf]
      exact hmove.le
    · exact hmove.le.trans (h j a hj hjf hne hT)
  · rw [Function.update_of_ne hpi] at hb
    exact h p b hp hpf hpi hb

end Table

end Aethon.Framework
