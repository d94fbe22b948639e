import Aethon.Container.TableUpdate

/-!
# Where a deletion moves entries

The cell of an erased key takes the first entry behind it that may move there, and every other
entry that moves does so against the order in which the loop looks at the cells.
-/

namespace Aethon.SingleThreadHashMap

open Framework

variable {K V : Type} [DecidableEq K]

/-- The entry of cell `j` is the first behind cell `i` that `can_shift` lets move there. -/
structure Follows (m : SingleThreadHashMap K V) (i j : Nat) : Prop where
  lt : j < m.capacity
  ne : j ≠ i
  occupied : (m.cells j).key ≠ m.emptyKey
  moves : canShift i j (m.home (m.cells j).key) = true
  between : ∀ q < m.capacity, q ≠ i → ringDist m.capacity i q < ringDist m.capacity i j →
    (m.cells q).key ≠ m.emptyKey ∧ canShift i q (m.home (m.cells q).key) = false

omit [DecidableEq K] in
theorem Follows.unique {m : SingleThreadHashMap K V} {i j j' : Nat} (hi : i < m.capacity)
    (h : m.Follows i j) (h' : m.Follows i j') : j = j' := by
  rcases Nat.lt_trichotomy (ringDist m.capacity i j) (ringDist m.capacity i j') with hlt | heq | hlt
  · have hstays := (h'.between j h.lt h.ne hlt).2
    rw [h.moves] at hstays
    cases hstays
  · exact ringDist_inj _ _ _ _ hi h.lt h'.lt heq
  · have hstays := (h.between j' h'.lt h'.ne hlt).2
    rw [h'.moves] at hstays
    cases hstays

/-- State of the backward-shift loop for the deletion of slot `i₀`, in a table whose slot `f` is
free: the loop has looked at the slots up to `j`, which lies in front of `f`. -/
structure FillInv (m : SingleThreadHashMap K V) (i₀ f : Nat) (cells : Nat → Cell K V)
    (i j : Nat) : Prop where
  hole_lt : i < m.capacity
  scan_lt : j < m.capacity
  hole_le : ringDist m.capacity i₀ i ≤ ringDist m.capacity i₀ j
  scan_before : ringDist m.capacity i₀ j < ringDist m.capacity i₀ f
  ahead : ∀ p < m.capacity, ringDist m.capacity i₀ j < ringDist m.capacity i₀ p →
    cells p = m.cells p
  back : ∀ p a, p < m.capacity → p ≠ i → m.entries cells p = some a →
    ∃ q < m.capacity, m.entries m.cells q = some a ∧
      ringDist m.capacity i₀ p ≤ ringDist m.capacity i₀ q
  first : (i = i₀ ∧ ∀ q < m.capacity, q ≠ i₀ → ringDist m.capacity i₀ q ≤ ringDist m.capacity i₀ j →
      (m.cells q).key ≠ m.emptyKey ∧ canShift i₀ q (m.home (m.cells q).key) = false) ∨
    (i ≠ i₀ ∧ ∃ q, m.Follows i₀ q ∧ cells i₀ = m.cells q)

variable {m : SingleThreadHashMap K V} {i₀ f i j : Nat} {cells : Nat → Cell K V}

theorem fillInv_start (hi : i₀ < m.capacity) (hne : i₀ ≠ f) :
    m.FillInv i₀ f m.cells i₀ i₀ where
  hole_lt := hi
  scan_lt := hi
  hole_le := le_rfl
  scan_before := by
    have := (ringDist_eq_zero m.capacity i₀ f hi).not.mpr hne
    rw [ringDist_self]
    omega
  ahead := fun _ _ _ => rfl
  back := fun p _ hp _ ha => ⟨p,hp,ha,le_rfl⟩
  first := by
    refine Or.inl ⟨rfl,?_⟩
    intro q hq hne hle
    rw [ringDist_self] at hle
    exact absurd ((ringDist_eq_zero m.capacity i₀ q hi).mp (by omega)).symm hne

/-- The next slot is one step farther. -/
theorem FillInv.next_dist (h : m.FillInv i₀ f cells i j) (hi : i₀ < m.capacity)
    (hf : f < m.capacity) :
    ringDist m.capacity i₀ (wrap m.capacity (j + 1)) = ringDist m.capacity i₀ j + 1 := by
  apply ringDist_next m.capacity i₀ j hi h.scan_lt
  intro hback
  have hlast := ringDist_last m.capacity i₀ j hi h.scan_lt hback
  have hlt := ringDist_lt m.capacity i₀ f hi hf
  have := h.scan_before
  omega

theorem FillInv.next_lt (h : m.FillInv i₀ f cells i j) : wrap m.capacity (j + 1) < m.capacity :=
  wrap_lt _ _ (by have := h.scan_lt; omega)

theorem FillInv.next_cell (h : m.FillInv i₀ f cells i j) (hi : i₀ < m.capacity)
    (hf : f < m.capacity) : cells (wrap m.capacity (j + 1)) = m.cells (wrap m.capacity (j + 1)) :=
  h.ahead _ h.next_lt (by rw [h.next_dist hi hf]; omega)

/-- A slot that is looked at and not empty lies in front of the free one. -/
theorem FillInv.next_before (h : m.FillInv i₀ f cells i j) (hi : i₀ < m.capacity)
    (hf : f < m.capacity) (hfree : (m.cells f).key = m.emptyKey)
    (hocc : (cells (wrap m.capacity (j + 1))).key ≠ m.emptyKey) :
    ringDist m.capacity i₀ (wrap m.capacity (j + 1)) < ringDist m.capacity i₀ f := by
  have hdist := h.next_dist hi hf
  have hbefore := h.scan_before
  have hne : wrap m.capacity (j + 1) ≠ f := by
    intro hc
    rw [h.next_cell hi hf,hc] at hocc
    exact hocc hfree
  have hneq := mt (ringDist_inj m.capacity i₀ _ _ hi h.next_lt hf) hne
  omega

theorem FillInv.skip (h : m.FillInv i₀ f cells i j) (hi : i₀ < m.capacity) (hf : f < m.capacity)
    (hfree : (m.cells f).key = m.emptyKey)
    (hocc : (cells (wrap m.capacity (j + 1))).key ≠ m.emptyKey)
    (hstay : canShift i (wrap m.capacity (j + 1))
      (m.home (cells (wrap m.capacity (j + 1))).key) = false) :
    m.FillInv i₀ f cells i (wrap m.capacity (j + 1)) where
  hole_lt := h.hole_lt
  scan_lt := h.next_lt
  hole_le := by
    rw [h.next_dist hi hf]
    exact h.hole_le.trans (Nat.le_succ _)
  scan_before := h.next_before hi hf hfree hocc
  ahead := fun p hp hlt => h.ahead p hp (by rw [h.next_dist hi hf] at hlt; omega)
  back := h.back
  first := by
    rcases h.first with ⟨rfl,hstays⟩ | hmoved
    · refine Or.inl ⟨rfl,?_⟩
      intro q hq hne hle
      rw [h.next_cell hi hf] at hocc hstay
      by_cases hqn : q = wrap m.capacity (j + 1)
      · rw [hqn]
        exact ⟨hocc,hstay⟩
      · refine hstays q hq hne ?_
        have hneq := mt (ringDist_inj m.capacity i _ _ hi hq h.next_lt) hqn
        rw [h.next_dist hi hf] at hle hneq
        omega
    · exact Or.inr hmoved

theorem FillInv.shift (h : m.FillInv i₀ f cells i j) (hi : i₀ < m.capacity) (hf : f < m.capacity)
    (hfree : (m.cells f).key = m.emptyKey)
    (hocc : (cells (wrap m.capacity (j + 1))).key ≠ m.emptyKey)
    (hmove : canShift i (wrap m.capacity (j + 1))
      (m.home (cells (wrap m.capacity (j + 1))).key) = true) :
    m.FillInv i₀ f (Function.update cells i (cells (wrap m.capacity (j + 1))))
      (wrap m.capacity (j + 1)) (wrap m.capacity (j + 1)) where
  hole_lt := h.next_lt
  scan_lt := h.next_lt
  hole_le := le_rfl
  scan_before := h.next_before hi hf hfree hocc
  ahead := by
    intro p hp hlt
    rw [h.next_dist hi hf] at hlt
    have hpi : p ≠ i := by
      rintro rfl
      have := h.hole_le
      omega
    rw [Function.update_of_ne hpi]
    exact h.ahead p hp (by omega)
  back := by
    intro p a hp hpn ha
    rw [entries_update] at ha
    by_cases hpi : p = i
    · rw [hpi,Function.update_self,h.next_cell hi hf] at ha
      refine ⟨_,h.next_lt,ha,?_⟩
      rw [hpi,h.next_dist hi hf]
      exact h.hole_le.trans (Nat.le_succ _)
    · rw [Function.update_of_ne hpi] at ha
      exact h.back p a hp hpi ha
  first := by
    have hne : wrap m.capacity (j + 1) ≠ i₀ := by
      intro hc
      have hdist := h.next_dist hi hf
      rw [hc,ringDist_self] at hdist
      omega
    refine Or.inr ⟨hne,?_⟩
    rw [h.next_cell hi hf] at hocc hmove ⊢
    rcases h.first with ⟨rfl,hstays⟩ | ⟨hmoved,q,hq,hcell⟩
    · refine ⟨_,⟨h.next_lt,hne,hocc,hmove,?_⟩,Function.update_self ..⟩
      intro q hq hqi hlt
      rw [h.next_dist hi hf] at hlt
      exact hstays q hq hqi (by omega)
    · exact ⟨q,hq,by rw [Function.update_of_ne hmoved.symm]; exact hcell⟩

/-- The loop keeps its invariant and ends in front of an empty cell. -/
theorem eraseShift_fill (hi : i₀ < m.capacity) (hf : f < m.capacity)
    (hfree : (m.cells f).key = m.emptyKey) {fuel hole : Nat} {cells' : Nat → Cell K V}
    (h : m.FillInv i₀ f cells i j) (hrun : m.eraseShift fuel cells i j = .ok (cells',hole)) :
    ∃ j', m.FillInv i₀ f cells' hole j' ∧
      (m.cells (wrap m.capacity (j' + 1))).key = m.emptyKey := by
  induction fuel generalizing cells i j with
  | zero => cases hrun
  | succ fuel ih =>
    rw [eraseShift,m.next_eq j h.scan_lt] at hrun
    have hne : wrap m.capacity (j + 1) ≠ i := by
      intro hc
      have hdist := h.next_dist hi hf
      have hle := h.hole_le
      rw [hc] at hdist
      omega
    split_ifs at hrun with hexit hshift
    · cases hrun
      refine ⟨j,h,?_⟩
      rw [← h.next_cell hi hf]
      exact hexit.resolve_right hne
    · exact ih (h.shift hi hf hfree (fun hc => hexit (Or.inl hc)) hshift) hrun
    · exact ih (h.skip hi hf hfree (fun hc => hexit (Or.inl hc)) (Bool.eq_false_iff.mpr hshift)) hrun

/-- What `erase` leaves in the cell of the key, and where it takes other entries. -/
theorem Wf.erase_refill {m m' : SingleThreadHashMap K V} (h : m.Wf) (hroom : m.size < m.capacity)
    {i : Nat} {b : Bool} (hi : i < m.capacity) (hocc : (m.cells i).key ≠ m.emptyKey)
    (hrun : m.erase (m.cells i).key = .ok (b,m')) :
    (∀ a, m'.entries m'.cells i = some a ↔ ∃ j, m.Follows i j ∧ m.entries m.cells j = some a) ∧
      ∀ p a, p < m.capacity → m'.entries m'.cells p = some a →
        ∃ q < m.capacity, m.entries m.cells q = some a ∧
          ringDist m.capacity i p ≤ ringDist m.capacity i q := by
  obtain ⟨f,hf,hfree⟩ := h.exists_free hroom
  have hif : i ≠ f := by
    rintro rfl
    exact hocc hfree
  have hlocate : m.locate m.capacity (m.cells i).key = some i :=
    (h.locate_eq_some _ hocc _ i le_rfl).mpr ⟨hi,rfl,ringDist_lt _ _ _ (m.home_lt _) hi⟩
  rw [erase,safeCheck_pos hocc] at hrun
  simp only [hlocate,bind,Except.bind] at hrun
  split at hrun
  · cases hrun
  · rename_i res hres
    obtain ⟨cells,hole⟩ := res
    cases hrun
    obtain ⟨j,hinv,hend⟩ := eraseShift_fill hi hf hfree (fillInv_start hi hif) hres
    have hupd : m.entries (Function.update cells hole ⟨m.emptyKey,m.emptyVal⟩) =
        Function.update (m.entries cells) hole none := by
      rw [entries_update,(entry_eq_none m.emptyKey ⟨m.emptyKey,m.emptyVal⟩).mpr rfl]
    change (∀ a, m.entries (Function.update cells hole ⟨m.emptyKey,m.emptyVal⟩) i = some a ↔ _) ∧
      ∀ p a, p < m.capacity →
        m.entries (Function.update cells hole ⟨m.emptyKey,m.emptyVal⟩) p = some a → _
    rw [hupd]
    constructor
    · intro a
      rcases hinv.first with ⟨rfl,hstays⟩ | ⟨hmoved,q,hq,hcell⟩
      · rw [Function.update_self]
        refine iff_of_false (by simp) ?_
        rintro ⟨q,hq,_⟩
        have hdist := hinv.next_dist hi hf
        by_cases hle : ringDist m.capacity hole q ≤ ringDist m.capacity hole j
        · have hstay := (hstays q hq.lt hq.ne hle).2
          rw [hq.moves] at hstay
          cases hstay
        · by_cases hqe : q = wrap m.capacity (j + 1)
          · exact hq.occupied (hqe ▸ hend)
          · have hneq := mt (ringDist_inj m.capacity hole _ _ hi hq.lt hinv.next_lt) hqe
            have hne : wrap m.capacity (j + 1) ≠ hole := by
              intro hc
              rw [hc,ringDist_self] at hdist
              omega
            exact (hq.between _ hinv.next_lt hne (by omega)).1 hend
      · rw [Function.update_of_ne hmoved.symm]
        have hentry : m.entries cells i = m.entries m.cells q := by
          rw [entries,hcell]
          rfl
        rw [hentry]
        constructor
        · exact fun ha => ⟨q,hq,ha⟩
        · rintro ⟨q',hq',ha⟩
          rwa [hq.unique hi hq']
    · intro p a hp ha
      have hph : p ≠ hole := by
        rintro rfl
        rw [Function.update_self] at ha
        cases ha
      rw [Function.update_of_ne hph] at ha
      exact hinv.back p a hp hph ha

end Aethon.SingleThreadHashMap
