import Aethon.Container.TableInvariant

/-!
# Insertion and deletion keep the invariant

`emplace` and `erase` are described by their effect on the stored pairs. The loop of `erase`
ends in every table with a gate, a slot over which no path leads but that of its own entry.
-/

namespace Aethon.SingleThreadHashMap

open Framework

variable {K V : Type} [DecidableEq K]

theorem entries_update (m : SingleThreadHashMap K V) (cells : Nat → Cell K V) (i : Nat)
    (c : Cell K V) :
    m.entries (Function.update cells i c) =
      Function.update (m.entries cells) i (entry m.emptyKey c) := by
  funext p
  by_cases hp : p = i
  · subst hp
    simp [entries]
  · simp [entries,hp]

theorem occupied_update (m : SingleThreadHashMap K V) (cells : Nat → Cell K V) (i : Nat)
    (c : Cell K V) (hi : i < m.capacity) (hc : c.key ≠ m.emptyKey) :
    m.occupied (Function.update cells i c) = insert i (m.occupied cells) := by
  ext p
  by_cases hp : p = i
  · subst hp
    simp [mem_occupied,hi,hc]
  · simp [mem_occupied,hp]

theorem occupied_free (m : SingleThreadHashMap K V) (cells : Nat → Cell K V) (i : Nat) (v : V) :
    m.occupied (Function.update cells i ⟨m.emptyKey,v⟩) = (m.occupied cells).erase i := by
  ext p
  by_cases hp : p = i
  · subst hp
    simp [mem_occupied]
  · simp [mem_occupied,hp]

/-- A table that is not full has a free cell. -/
theorem Wf.exists_free {m : SingleThreadHashMap K V} (h : m.Wf) (hroom : m.size < m.capacity) :
    ∃ f < m.capacity, (m.cells f).key = m.emptyKey := by
  by_contra hc
  have hall : m.occupied m.cells = Finset.range m.capacity := by
    apply Finset.filter_true_of_mem
    intro p hp he
    exact hc ⟨p,Finset.mem_range.mp hp,he⟩
  have hsize := h.size_eq
  rw [hall,Finset.card_range] at hsize
  omega

/-- The slot `emplace` stops at, with the probe path before it. -/
structure EmplaceSlot (m : SingleThreadHashMap K V) (key : K) (i : Nat) : Prop where
  lt : i < m.capacity
  hit : (m.cells i).key = m.emptyKey ∨ (m.cells i).key = key
  before : ∀ e < ringDist m.capacity (m.home key) i,
    (m.cells (wrap m.capacity (m.home key + e))).key ≠ m.emptyKey ∧
      (m.cells (wrap m.capacity (m.home key + e))).key ≠ key

/-- The probe of `emplace`. -/
def emplaceProbe (m : SingleThreadHashMap K V) (key : K) : Option Nat :=
  probe m.next (fun idx => (m.cells idx).key = m.emptyKey ∨ (m.cells idx).key = key)
    (fun _ => False) m.capacity (m.home key)

theorem emplaceSlot_of_probe {m : SingleThreadHashMap K V} {key : K} {i : Nat}
    (hp : m.emplaceProbe key = some i) : m.EmplaceSlot key i := by
  have hhome := m.home_lt key
  obtain ⟨d,hd,hi,hhit,hbefore⟩ := (probe_eq_some ..).mp hp
  rw [m.next_iterate _ d hhome hd.le] at hi
  subst hi
  refine ⟨wrap_lt _ _ (by omega),hhit,?_⟩
  rw [ringDist_wrap _ _ _ hhome hd]
  intro e he
  have hb := (hbefore e he).1
  rw [m.next_iterate _ e hhome (by omega)] at hb
  exact not_or.mp hb

/-- The probe finds no slot only in a full table without the key. -/
theorem full_of_probe {m : SingleThreadHashMap K V} {key : K} (hp : m.emplaceProbe key = none)
    {p : Nat} (hlt : p < m.capacity) : (m.cells p).key ≠ m.emptyKey ∧ (m.cells p).key ≠ key := by
  have hhome := m.home_lt key
  have hnone := (probe_eq_none ..).mp hp
  have hmiss : ∀ d < m.capacity, ¬((m.cells (m.next^[d] (m.home key))).key = m.emptyKey ∨
      (m.cells (m.next^[d] (m.home key))).key = key) := by
    intro d
    induction d using Nat.strong_induction_on with
    | _ d ih =>
      intro hd
      apply hnone d hd
      intro e he
      exact ⟨ih e he (by omega),id⟩
  have hp := hmiss (ringDist m.capacity (m.home key) p) (ringDist_lt _ _ _ hhome hlt)
  rw [m.next_iterate _ _ hhome (ringDist_lt _ _ _ hhome hlt).le,wrap_ringDist _ _ _ hlt hhome] at hp
  exact not_or.mp hp

theorem Wf.emplace_slot {m : SingleThreadHashMap K V} (h : m.Wf) (key : K)
    (hroom : m.size < m.capacity) :
    ∃ i, m.emplaceProbe key = some i ∧ m.EmplaceSlot key i := by
  cases hp : m.emplaceProbe key with
  | none =>
    obtain ⟨f,hf,hfree⟩ := h.exists_free hroom
    exact absurd hfree (full_of_probe hp hf).1
  | some i => exact ⟨i,rfl,emplaceSlot_of_probe hp⟩

/-- Writing the pair into the slot found keeps every probe path. -/
theorem EmplaceSlot.path {m : SingleThreadHashMap K V} {key : K} {i : Nat}
    (hs : m.EmplaceSlot key i) (h : m.Wf) (val : V) :
    PathOk m.capacity (fun a : K × V => m.home a.1)
      (Function.update (m.entries m.cells) i (some (key,val))) := by
  intro p a hp hT d hd
  by_cases hq : wrap m.capacity (m.home a.1 + d) = i
  · rw [hq,Function.update_self]
    simp
  · rw [Function.update_of_ne hq]
    by_cases hpi : p = i
    · subst hpi
      rw [Function.update_self] at hT
      cases hT
      intro hc
      exact (hs.before d hd).1 ((entry_eq_none ..).mp hc)
    · rw [Function.update_of_ne hpi] at hT
      exact h.path p a hp hT d hd

/-- A key stored in the table is stored in the slot `emplace` stops at. -/
theorem EmplaceSlot.eq_of_stored {m : SingleThreadHashMap K V} {key : K} {i q : Nat}
    (hs : m.EmplaceSlot key i) (h : m.Wf) (hne : key ≠ m.emptyKey) (hq : q < m.capacity)
    (hk : (m.cells q).key = key) : q = i := by
  have hhome := m.home_lt key
  rcases lt_trichotomy (ringDist m.capacity (m.home key) q) (ringDist m.capacity (m.home key) i)
    with hlt | heq | hgt
  · have hb := (hs.before _ hlt).2
    rw [wrap_ringDist _ _ _ hq hhome] at hb
    exact absurd hk hb
  · exact ringDist_inj _ _ _ _ hhome hq hs.lt heq
  · have hb := h.before_cell hq hk hne hgt
    rw [wrap_ringDist _ _ _ hs.lt hhome] at hb
    rcases hs.hit with he | he
    · exact absurd he hb.2
    · exact absurd he hb.1

theorem EmplaceSlot.only {m : SingleThreadHashMap K V} {key : K} {i : Nat}
    (hs : m.EmplaceSlot key i) (h : m.Wf) (hne : key ≠ m.emptyKey) (q : Nat) (a : K × V)
    (hq : q < m.capacity) (he : m.entries m.cells q = some a) (ha : a.1 = key) : q = i := by
  obtain ⟨_,hkv⟩ := (entry_eq_some ..).mp he
  apply hs.eq_of_stored h hne hq
  rw [← ha,hkv]

/-- The table after the pair has been written into the slot found. -/
def writeSlot (m : SingleThreadHashMap K V) (key : K) (val : V) (i size : Nat) :
    SingleThreadHashMap K V :=
  { m with cells := Function.update m.cells i ⟨key,val⟩, size := size }

theorem writeSlot_entries (m : SingleThreadHashMap K V) (key : K) (val : V) (i size : Nat)
    (hne : key ≠ m.emptyKey) :
    (m.writeSlot key val i size).entries (m.writeSlot key val i size).cells =
      Function.update (m.entries m.cells) i (some (key,val)) := by
  change m.entries (Function.update m.cells i ⟨key,val⟩) = _
  rw [entries_update,(entry_eq_some _ _ (key,val)).mpr ⟨hne,rfl⟩]

theorem EmplaceSlot.write_wf {m : SingleThreadHashMap K V} {key : K} {i : Nat}
    (hs : m.EmplaceSlot key i) (h : m.Wf) (hne : key ≠ m.emptyKey) (val : V) (size : Nat)
    (hsize : size = (insert i (m.occupied m.cells)).card) : (m.writeSlot key val i size).Wf where
  path := by
    rw [writeSlot_entries _ _ _ _ _ hne]
    exact hs.path h val
  distinct := by
    rw [writeSlot_entries _ _ _ _ _ hne]
    intro p q a b hp hq ha hb hab
    by_cases hpi : p = i <;> by_cases hqi : q = i
    · rw [hpi,hqi]
    · rw [hpi,Function.update_self] at ha
      rw [Function.update_of_ne hqi] at hb
      cases ha
      exact absurd (hs.only h hne q b hq hb hab.symm) hqi
    · rw [hqi,Function.update_self] at hb
      rw [Function.update_of_ne hpi] at ha
      cases hb
      exact absurd (hs.only h hne p a hp ha hab) hpi
    · rw [Function.update_of_ne hpi] at ha
      rw [Function.update_of_ne hqi] at hb
      exact h.distinct p q a b hp hq ha hb hab
  size_eq := by
    change size = (m.occupied (Function.update m.cells i ⟨key,val⟩)).card
    rw [occupied_update m m.cells i _ hs.lt hne,hsize]

theorem EmplaceSlot.write_stored {m : SingleThreadHashMap K V} {key : K} {i : Nat}
    (hs : m.EmplaceSlot key i) (h : m.Wf) (hne : key ≠ m.emptyKey) (val : V) (size : Nat)
    (k : K) (v : V) :
    (m.writeSlot key val i size).Stored k v ↔ (k = key ∧ v = val) ∨ (k ≠ key ∧ m.Stored k v) := by
  have hent := writeSlot_entries m key val i size hne
  constructor
  · intro hstored
    obtain ⟨p,hp,he⟩ := hstored
    rw [hent] at he
    by_cases hpi : p = i
    · subst hpi
      rw [Function.update_self] at he
      cases he
      exact Or.inl ⟨rfl,rfl⟩
    · rw [Function.update_of_ne hpi] at he
      refine Or.inr ⟨?_,p,hp,he⟩
      intro hk
      exact hpi (hs.only h hne p _ hp he hk)
  · intro hstored
    rcases hstored with ⟨rfl,rfl⟩ | ⟨hk,p,hp,he⟩
    · exact ⟨i,hs.lt,by rw [hent,Function.update_self]⟩
    · have hpi : p ≠ i := by
        intro hc
        subst hc
        obtain ⟨hocc,hkv⟩ := (entry_eq_some ..).mp he
        simp only [Prod.mk.injEq] at hkv
        exact hk (hkv.1.trans (hs.hit.resolve_left hocc))
      exact ⟨p,hp,by rw [hent,Function.update_of_ne hpi]; exact he⟩

theorem emplace_eq (m : SingleThreadHashMap K V) {key : K} (hne : key ≠ m.emptyKey) (val : V) :
    m.emplace key val = .ok (match m.emplaceProbe key with
      | none => (false,m)
      | some i =>
          if (m.cells i).key = m.emptyKey then (true,m.writeSlot key val i (m.size + 1))
          else (false,m.writeSlot (m.cells i).key val i m.size)) := by
  rw [emplace,safeCheck_pos hne]
  change (match m.emplaceProbe key with
    | none => _
    | some idx => _) = _
  cases m.emplaceProbe key with
  | none => rfl
  | some i =>
    dsimp only
    split_ifs <;> rfl

/-- `emplace` that finds a slot stores the pair, replacing the old value of the key, and reports
whether the key is new. -/
theorem Wf.emplace_found {m : SingleThreadHashMap K V} (h : m.Wf) {key : K} {i : Nat}
    (hprobe : m.emplaceProbe key = some i) (val : V) (hne : key ≠ m.emptyKey) :
    ∃ b m', m.emplace key val = .ok (b,m') ∧ m'.Wf ∧ m.SameShape m' ∧
      (∀ k v, m'.Stored k v ↔ (k = key ∧ v = val) ∨ (k ≠ key ∧ m.Stored k v)) ∧
      (b = true ↔ ∀ v, ¬m.Stored key v) ∧ m'.size = m.size + b.toNat := by
  have hs := emplaceSlot_of_probe hprobe
  by_cases hfree : (m.cells i).key = m.emptyKey
  · have hnot : i ∉ m.occupied m.cells := by
      rw [mem_occupied]
      exact fun hc => hc.2 hfree
    have hcard := Finset.card_insert_of_notMem hnot
    rw [← h.size_eq] at hcard
    refine ⟨true,m.writeSlot key val i (m.size + 1),?_,hs.write_wf h hne val _ hcard.symm,
      ⟨rfl,rfl,rfl⟩,hs.write_stored h hne val _,?_,rfl⟩
    · rw [emplace_eq m hne,hprobe]
      simp only [hfree,if_true]
    · simp only [true_iff]
      intro v hv
      obtain ⟨q,hq,he⟩ := hv
      rw [hs.only h hne q _ hq he rfl] at he
      exact ((entry_eq_some ..).mp he).1 hfree
  · have hkey : (m.cells i).key = key := hs.hit.resolve_left hfree
    have hcard : m.size = (insert i (m.occupied m.cells)).card := by
      rw [Finset.insert_eq_of_mem ((mem_occupied ..).mpr ⟨hs.lt,hfree⟩),h.size_eq]
    refine ⟨false,m.writeSlot key val i m.size,?_,hs.write_wf h hne val _ hcard,
      ⟨rfl,rfl,rfl⟩,hs.write_stored h hne val _,?_,rfl⟩
    · rw [emplace_eq m hne,hprobe]
      simp only [hkey,hne,if_false]
    · simp only [Bool.false_eq_true,false_iff,not_forall,not_not]
      exact ⟨(m.cells i).val,i,hs.lt,(entry_eq_some ..).mpr ⟨hfree,by rw [hkey]⟩⟩

/-- `emplace` on a table with a free cell. -/
theorem Wf.emplace_spec {m : SingleThreadHashMap K V} (h : m.Wf) (key : K) (val : V)
    (hne : key ≠ m.emptyKey) (hroom : m.size < m.capacity) :
    ∃ b m', m.emplace key val = .ok (b,m') ∧ m'.Wf ∧ m.SameShape m' ∧
      (∀ k v, m'.Stored k v ↔ (k = key ∧ v = val) ∨ (k ≠ key ∧ m.Stored k v)) ∧
      (b = true ↔ ∀ v, ¬m.Stored key v) ∧ m'.size = m.size + b.toNat := by
  obtain ⟨i,hprobe,_⟩ := h.emplace_slot key hroom
  exact h.emplace_found hprobe val hne

/-- The test of `erase` says that the way from the home slot meets the hole before `j`. -/
theorem canShift_iff (N i j k : Nat) (hi : i < N) (hj : j < N) (hk : k < N) (hij : i ≠ j) :
    canShift i j k = true ↔ ringDist N k i < ringDist N k j := by
  unfold canShift ringDist
  split_ifs <;> simp <;> omega

/-- Outside slot `i`, no entry is farther from its home slot than it was. -/
def Closer (m : SingleThreadHashMap K V) (cells : Nat → Cell K V) (i : Nat) : Prop :=
  ∀ p a, p < m.capacity → p ≠ i → m.entries cells p = some a →
    ∃ q < m.capacity, m.entries m.cells q = some a ∧
      ringDist m.capacity (m.home a.1) p ≤ ringDist m.capacity (m.home a.1) q

/-- State of the backward-shift loop for the deletion of slot `i₀`: the hole still holds a
stale cell, every other entry is one of the entries the table had besides slot `i₀`. -/
structure ShiftInv (m : SingleThreadHashMap K V) (i₀ : Nat) (cells : Nat → Cell K V)
    (i j : Nat) : Prop where
  hole : HoleInv m.capacity (fun a : K × V => m.home a.1) (m.entries cells) i j
  occ : m.occupied cells = m.occupied m.cells
  stale : i ∈ m.occupied cells
  distinct : ∀ p q a b, p < m.capacity → q < m.capacity → p ≠ i → q ≠ i →
    m.entries cells p = some a → m.entries cells q = some b → a.1 = b.1 → p = q
  same : ∀ a, (∃ p < m.capacity, p ≠ i ∧ m.entries cells p = some a) ↔
    ∃ p < m.capacity, p ≠ i₀ ∧ m.entries m.cells p = some a
  closer : m.Closer cells i

theorem Wf.shiftInv {m : SingleThreadHashMap K V} (h : m.Wf) (i : Nat)
    (hi : i ∈ m.occupied m.cells) : m.ShiftInv i m.cells i i where
  hole := h.path.holeInv ((mem_occupied ..).mp hi).1
  occ := rfl
  stale := hi
  distinct := fun p q a b hp hq _ _ => h.distinct p q a b hp hq
  same := fun _ => Iff.rfl
  closer := fun p _ hp _ ha => ⟨p,hp,ha,le_rfl⟩

theorem ShiftInv.scan_lt {m : SingleThreadHashMap K V} {i₀ i j : Nat} {cells : Nat → Cell K V}
    (h : m.ShiftInv i₀ cells i j) : wrap m.capacity (j + 1) < m.capacity :=
  wrap_lt _ _ (by have := h.hole.scan_lt; omega)

theorem ShiftInv.skip {m : SingleThreadHashMap K V} {i₀ i j : Nat} {cells : Nat → Cell K V}
    (h : m.ShiftInv i₀ cells i j) (hne : wrap m.capacity (j + 1) ≠ i)
    (hstay : canShift i (wrap m.capacity (j + 1))
      (m.home (cells (wrap m.capacity (j + 1))).key) = false) :
    m.ShiftInv i₀ cells i (wrap m.capacity (j + 1)) where
  hole := by
    apply h.hole.skip hne
    intro a ha
    obtain ⟨_,rfl⟩ := (entry_eq_some ..).mp ha
    by_contra hc
    have hs := (canShift_iff m.capacity i _ _ h.hole.hole_lt h.scan_lt
      (m.home_lt (cells (wrap m.capacity (j + 1))).key) hne.symm).mpr (not_le.mp hc)
    rw [hstay] at hs
    cases hs
  occ := h.occ
  stale := h.stale
  distinct := h.distinct
  same := h.same
  closer := h.closer

theorem ShiftInv.shift {m : SingleThreadHashMap K V} {i₀ i j : Nat} {cells : Nat → Cell K V}
    (h : m.ShiftInv i₀ cells i j) (hne : wrap m.capacity (j + 1) ≠ i)
    (hocc : (cells (wrap m.capacity (j + 1))).key ≠ m.emptyKey)
    (hmove : canShift i (wrap m.capacity (j + 1))
      (m.home (cells (wrap m.capacity (j + 1))).key) = true) :
    m.ShiftInv i₀ (Function.update cells i (cells (wrap m.capacity (j + 1))))
      (wrap m.capacity (j + 1)) (wrap m.capacity (j + 1)) := by
  have hi := h.hole.hole_lt
  have hj := h.scan_lt
  generalize hje : wrap m.capacity (j + 1) = j' at *
  have hent : m.entries cells j' = some ((cells j').key,(cells j').val) :=
    (entry_eq_some ..).mpr ⟨hocc,rfl⟩
  have hupd : m.entries (Function.update cells i (cells j')) =
      Function.update (m.entries cells) i (some ((cells j').key,(cells j').val)) := by
    rw [entries_update]
    exact congrArg _ hent
  have hdist := (canShift_iff m.capacity i j' _ hi hj (m.home_lt _) hne.symm).mp hmove
  refine ⟨?_,?_,?_,?_,?_,?_⟩
  · rw [hupd]
    subst hje
    exact h.hole.shift _ (m.home_lt _) hne hent hdist
  · rw [occupied_update m cells i _ hi hocc,Finset.insert_eq_of_mem h.stale,h.occ]
  · rw [occupied_update m cells i _ hi hocc,Finset.insert_eq_of_mem h.stale]
    exact (mem_occupied ..).mpr ⟨hj,hocc⟩
  · intro p q a b hp hq hpj hqj ha hb hab
    rw [hupd] at ha hb
    by_cases hpi : p = i <;> by_cases hqi : q = i
    · rw [hpi,hqi]
    · rw [hpi,Function.update_self] at ha
      rw [Function.update_of_ne hqi] at hb
      cases ha
      exact absurd (h.distinct _ _ _ _ hj hq hne hqi hent hb hab) hqj.symm
    · rw [hqi,Function.update_self] at hb
      rw [Function.update_of_ne hpi] at ha
      cases hb
      exact absurd (h.distinct _ _ _ _ hp hj hpi hne ha hent hab) hpj
    · rw [Function.update_of_ne hpi] at ha
      rw [Function.update_of_ne hqi] at hb
      exact h.distinct p q a b hp hq hpi hqi ha hb hab
  · intro a
    rw [← h.same a,hupd]
    constructor
    · intro hex
      obtain ⟨p,hp,hpj,ha⟩ := hex
      by_cases hpi : p = i
      · rw [hpi,Function.update_self] at ha
        exact ⟨j',hj,hne,hent.trans ha⟩
      · rw [Function.update_of_ne hpi] at ha
        exact ⟨p,hp,hpi,ha⟩
    · intro hex
      obtain ⟨p,hp,hpi,ha⟩ := hex
      by_cases hpj : p = j'
      · refine ⟨i,hi,hne.symm,?_⟩
        rw [Function.update_self,← ha,hpj,hent]
      · exact ⟨p,hp,hpj,by rw [Function.update_of_ne hpi]; exact ha⟩
  · intro p a hp hpj ha
    rw [hupd] at ha
    by_cases hpi : p = i
    · rw [hpi,Function.update_self] at ha
      cases ha
      obtain ⟨q,hq,he,hle⟩ := h.closer j' _ hj hne hent
      rw [hpi]
      exact ⟨q,hq,he,hdist.le.trans hle⟩
    · rw [Function.update_of_ne hpi] at ha
      exact h.closer p a hp hpi ha

/-- The loop has ended: at an empty cell or back at the hole. -/
def Ends (m : SingleThreadHashMap K V) (i₀ fuel : Nat) (cells : Nat → Cell K V) (i j : Nat) : Prop :=
  ∃ cells' hole j', m.eraseShift fuel cells i j = .ok (cells',hole) ∧
    m.ShiftInv i₀ cells' hole j' ∧
    ((cells' (wrap m.capacity (j' + 1))).key = m.emptyKey ∨ wrap m.capacity (j' + 1) = hole)

/-- One round of the loop. -/
theorem Ends.step {m : SingleThreadHashMap K V} {i₀ fuel i j : Nat} {cells : Nat → Cell K V}
    (h : m.ShiftInv i₀ cells i j)
    (hmove : wrap m.capacity (j + 1) ≠ i → (cells (wrap m.capacity (j + 1))).key ≠ m.emptyKey →
      canShift i (wrap m.capacity (j + 1)) (m.home (cells (wrap m.capacity (j + 1))).key) = true →
      m.Ends i₀ fuel (Function.update cells i (cells (wrap m.capacity (j + 1))))
        (wrap m.capacity (j + 1)) (wrap m.capacity (j + 1)))
    (hskip : wrap m.capacity (j + 1) ≠ i → (cells (wrap m.capacity (j + 1))).key ≠ m.emptyKey →
      m.ShiftInv i₀ cells i (wrap m.capacity (j + 1)) →
      m.Ends i₀ fuel cells i (wrap m.capacity (j + 1))) :
    m.Ends i₀ (fuel + 1) cells i j := by
  unfold Ends
  rw [eraseShift,m.next_eq j h.hole.scan_lt]
  by_cases hexit : (cells (wrap m.capacity (j + 1))).key = m.emptyKey ∨ wrap m.capacity (j + 1) = i
  · refine ⟨cells,i,j,?_,h,hexit⟩
    simp only [hexit,if_true]
  · simp only [hexit,if_false]
    obtain ⟨hocc,hne⟩ := not_or.mp hexit
    cases hshift : canShift i (wrap m.capacity (j + 1))
        (m.home (cells (wrap m.capacity (j + 1))).key) with
    | true => exact hmove hne hocc hshift
    | false => exact hskip hne hocc (h.skip hne hshift)

theorem ShiftInv.dist_of_canShift {m : SingleThreadHashMap K V} {i₀ i j : Nat}
    {cells : Nat → Cell K V} (h : m.ShiftInv i₀ cells i j) (hne : wrap m.capacity (j + 1) ≠ i)
    (hmove : canShift i (wrap m.capacity (j + 1))
      (m.home (cells (wrap m.capacity (j + 1))).key) = true) :
    ringDist m.capacity (m.home (cells (wrap m.capacity (j + 1))).key) i <
      ringDist m.capacity (m.home (cells (wrap m.capacity (j + 1))).key)
        (wrap m.capacity (j + 1)) :=
  (canShift_iff m.capacity i _ _ h.hole.hole_lt h.scan_lt (m.home_lt _) hne.symm).mp hmove

/-- The gate of the entries during the loop. -/
def Gated (m : SingleThreadHashMap K V) (cells : Nat → Cell K V) (f i : Nat) : Prop :=
  Gate m.capacity (fun a : K × V => m.home a.1) (m.entries cells) f i

/-- When no entry ahead may move, the loop comes back to the hole. -/
theorem eraseShift_back {m : SingleThreadHashMap K V} {i₀ : Nat} (fuel : Nat)
    (cells : Nat → Cell K V) (i j : Nat) (h : m.ShiftInv i₀ cells i j)
    (hstuck : ∀ p a, p < m.capacity →
      ringDist m.capacity (wrap m.capacity (j + 1)) p <
        ringDist m.capacity (wrap m.capacity (j + 1)) i →
      m.entries cells p = some a →
      ringDist m.capacity (m.home a.1) p ≤ ringDist m.capacity (m.home a.1) i)
    (hfuel : ringDist m.capacity (wrap m.capacity (j + 1)) i < fuel) : m.Ends i₀ fuel cells i j := by
  induction fuel generalizing j with
  | zero => omega
  | succ fuel ih =>
    have hj := h.scan_lt
    have hi := h.hole.hole_lt
    refine Ends.step h ?_ ?_
    · intro hne hocc hmove
      have hdist := h.dist_of_canShift hne hmove
      have hpos := (ringDist_eq_zero m.capacity _ i hj).not.mpr hne
      have hle := hstuck _ _ hj (by rw [ringDist_self]; omega) ((entry_eq_some ..).mpr ⟨hocc,rfl⟩)
      exact absurd hdist (Nat.not_lt.mpr hle)
    · intro hne _ hskip
      have hprev := ringDist_prev m.capacity _ i hj hi hne
      refine ih _ hskip ?_ (by omega)
      intro p a hp hlt ha
      refine hstuck p a hp ?_ ha
      by_cases hpj : wrap m.capacity (j + 1) = p
      · rw [hpj,ringDist_self,← hpj]
        omega
      · have hprev' := ringDist_prev m.capacity _ p hj hp hpj
        omega

/-- With a gate ahead the loop ends: it is back at the hole less than a round after it passed
the gate. -/
theorem eraseShift_run {m : SingleThreadHashMap K V} {i₀ f : Nat} (hf : f < m.capacity)
    (fuel : Nat) (cells : Nat → Cell K V) (i j : Nat) (h : m.ShiftInv i₀ cells i j)
    (hgate : m.Gated cells f i) (hside : i = f ↔ j = f)
    (hfuel : ringDist m.capacity j f + m.capacity ≤ fuel) : m.Ends i₀ fuel cells i j := by
  induction fuel generalizing cells i j with
  | zero => have := m.capacity_pos; omega
  | succ fuel ih =>
    have hj := h.scan_lt
    have hi := h.hole.hole_lt
    by_cases hjf : j = f
    · obtain rfl := hside.mpr hjf
      refine eraseShift_back _ _ _ _ h ?_ (by have := ringDist_lt m.capacity _ i hj hi; omega)
      intro p a hp hlt ha
      by_cases hpi : p = i
      · rw [hpi]
      · exact hgate p a hp hpi hpi ha
    · have hif : i ≠ f := fun hc => hjf (hside.mp hc)
      have hprev := ringDist_prev m.capacity j f h.hole.scan_lt hf hjf
      refine Ends.step h ?_ ?_
      · intro hne hocc hmove
        have hdist := h.dist_of_canShift hne hmove
        have hent : m.entries cells (wrap m.capacity (j + 1)) = some (_,_) :=
          (entry_eq_some ..).mpr ⟨hocc,rfl⟩
        refine ih _ _ _ (h.shift hne hocc hmove) ?_ Iff.rfl (by omega)
        have hshifted := Gate.shift hgate hj hne hent hdist
        unfold Gated
        rw [entries_update]
        exact (show entry m.emptyKey (cells (wrap m.capacity (j + 1))) = _ from hent) ▸ hshifted
      · intro hne _ hskip
        by_cases hnf : wrap m.capacity (j + 1) = f
        · rw [hnf] at hskip ⊢
          have hprev' := ringDist_prev m.capacity f i hf hi (Ne.symm hif)
          have hlt := ringDist_lt m.capacity f i hf hi
          refine eraseShift_back _ _ _ _ hskip ?_ (by omega)
          intro p a hp hpi ha
          have hpf : f ≠ p := by
            rintro rfl
            have hlast := ringDist_last m.capacity _ f hskip.scan_lt hf rfl
            omega
          have hprev'' := ringDist_prev m.capacity f p hf hp hpf
          refine ringDist_le_of_between m.capacity _ f i p (m.home_lt _) hf hi hp hpf.symm ?_ (by omega)
          refine hgate p a hp hpf.symm ?_ ha
          rintro rfl
          exact absurd hpi (lt_irrefl _)
        · exact ih _ _ _ hskip hgate (by simp [hif,hnf]) (by omega)

/-- The table has a gate: a free cell, or the cell that was filled last. -/
def HasGate (m : SingleThreadHashMap K V) : Prop := ∃ f < m.capacity, m.Gated m.cells f f

theorem Wf.gated_of_free {m : SingleThreadHashMap K V} (h : m.Wf) {f : Nat} (hf : f < m.capacity)
    (hfree : (m.cells f).key = m.emptyKey) : m.Gated m.cells f f :=
  h.path.gate (fun a => m.home_lt a.1) hf ((entry_eq_none ..).mpr hfree)

theorem Wf.hasGate {m : SingleThreadHashMap K V} (h : m.Wf) (hroom : m.size < m.capacity) :
    m.HasGate := by
  obtain ⟨f,hf,hfree⟩ := h.exists_free hroom
  exact ⟨f,hf,h.gated_of_free hf hfree⟩

theorem Wf.erase_ends {m : SingleThreadHashMap K V} (h : m.Wf) (hgate : m.HasGate) {i : Nat}
    (hi : i ∈ m.occupied m.cells) : m.Ends i (2 * m.capacity) m.cells i i := by
  obtain ⟨f,hf,hgated⟩ := hgate
  refine eraseShift_run hf _ _ _ _ (h.shiftInv i hi) (hgated.mono i) Iff.rfl ?_
  have := ringDist_lt m.capacity i f ((mem_occupied ..).mp hi).1 hf
  omega

/-- `erase` on a table with a gate removes the key, and reports whether it was stored. -/
theorem Wf.erase_gated {m : SingleThreadHashMap K V} (h : m.Wf) (key : K)
    (hne : key ≠ m.emptyKey) (hgate : m.HasGate) :
    ∃ b m', m.erase key = .ok (b,m') ∧ m'.Wf ∧ m.SameShape m' ∧
      (∀ k v, m'.Stored k v ↔ k ≠ key ∧ m.Stored k v) ∧
      (b = true ↔ ∃ v, m.Stored key v) ∧ m'.size + b.toNat = m.size := by
  have hlocate := h.locate_eq_some key hne m.capacity
  cases hl : m.locate m.capacity key with
  | none =>
    have habsent : ∀ v, ¬m.Stored key v := by
      intro v hv
      obtain ⟨p,hp,he⟩ := hv
      obtain ⟨_,hkv⟩ := (entry_eq_some ..).mp he
      simp only [Prod.mk.injEq] at hkv
      have hs := (hlocate p le_rfl).mpr ⟨hp,hkv.1.symm,ringDist_lt _ _ _ (m.home_lt key) hp⟩
      rw [hl] at hs
      cases hs
    refine ⟨false,m,?_,h,⟨rfl,rfl,rfl⟩,?_,?_,rfl⟩
    · rw [erase,safeCheck_pos hne,hl]
      rfl
    · intro k v
      constructor
      · intro hv
        refine ⟨?_,hv⟩
        intro hk
        exact habsent v (hk ▸ hv)
      · exact fun hv => hv.2
    · simp only [Bool.false_eq_true,false_iff,not_exists]
      exact habsent
  | some i =>
    obtain ⟨hi,hk,_⟩ := (hlocate i le_rfl).mp hl
    have hmem : i ∈ m.occupied m.cells := (mem_occupied ..).mpr ⟨hi,by rw [hk]; exact hne⟩
    have hent : m.entries m.cells i = some (key,(m.cells i).val) :=
      (entry_eq_some ..).mpr ⟨by rw [hk]; exact hne,by rw [hk]⟩
    obtain ⟨cells,hole,j,hrun,hinv,hexit⟩ := h.erase_ends hgate hmem
    have hupd : m.entries (Function.update cells hole ⟨m.emptyKey,m.emptyVal⟩) =
        Function.update (m.entries cells) hole none := by
      rw [entries_update,(entry_eq_none m.emptyKey ⟨m.emptyKey,m.emptyVal⟩).mpr rfl]
    have hstored : ∀ a, (∃ p < m.capacity,
        m.entries (Function.update cells hole ⟨m.emptyKey,m.emptyVal⟩) p = some a) ↔
        ∃ p < m.capacity, p ≠ i ∧ m.entries m.cells p = some a := by
      intro a
      rw [← hinv.same a,hupd]
      constructor
      · intro hex
        obtain ⟨p,hp,ha⟩ := hex
        by_cases hph : p = hole
        · rw [hph,Function.update_self] at ha
          cases ha
        · rw [Function.update_of_ne hph] at ha
          exact ⟨p,hp,hph,ha⟩
      · intro hex
        obtain ⟨p,hp,hph,ha⟩ := hex
        exact ⟨p,hp,by rw [Function.update_of_ne hph]; exact ha⟩
    refine ⟨true,{ m with
      cells := Function.update cells hole ⟨m.emptyKey,m.emptyVal⟩
      size := m.size - 1 },?_,⟨?_,?_,?_⟩,⟨rfl,rfl,rfl⟩,?_,?_,?_⟩
    · rw [erase,safeCheck_pos hne,hl]
      simp only [hrun]
      rfl
    · change PathOk m.capacity (fun a : K × V => m.home a.1)
        (m.entries (Function.update cells hole ⟨m.emptyKey,m.emptyVal⟩))
      rw [hupd]
      by_cases hback : wrap m.capacity (j + 1) = hole
      · exact hinv.hole.finish_cycle (fun a => m.home_lt a.1) hback
      · exact hinv.hole.finish_empty (fun a => m.home_lt a.1) hback
          ((entry_eq_none ..).mpr (hexit.resolve_right hback))
    · change ∀ p q a b, p < m.capacity → q < m.capacity →
        m.entries (Function.update cells hole ⟨m.emptyKey,m.emptyVal⟩) p = some a →
        m.entries (Function.update cells hole ⟨m.emptyKey,m.emptyVal⟩) q = some b → a.1 = b.1 → p = q
      rw [hupd]
      intro p q a b hp hq ha hb hab
      have hpn : p ≠ hole := by
        intro hc
        rw [hc,Function.update_self] at ha
        cases ha
      have hqn : q ≠ hole := by
        intro hc
        rw [hc,Function.update_self] at hb
        cases hb
      rw [Function.update_of_ne hpn] at ha
      rw [Function.update_of_ne hqn] at hb
      exact hinv.distinct p q a b hp hq hpn hqn ha hb hab
    · change m.size - 1 = (m.occupied (Function.update cells hole ⟨m.emptyKey,m.emptyVal⟩)).card
      rw [occupied_free,Finset.card_erase_of_mem hinv.stale,hinv.occ,h.size_eq]
    · intro k v
      refine (hstored (k,v)).trans ?_
      constructor
      · intro hex
        obtain ⟨p,hp,hpi,ha⟩ := hex
        refine ⟨?_,p,hp,ha⟩
        intro hc
        exact hpi (h.distinct p i _ _ hp hi ha hent hc)
      · intro hex
        obtain ⟨hkn,p,hp,ha⟩ := hex
        refine ⟨p,hp,?_,ha⟩
        intro hc
        rw [hc,hent] at ha
        cases ha
        exact hkn rfl
    · simp only [true_iff]
      exact ⟨_,i,hi,hent⟩
    · have hpos := Finset.card_pos.mpr ⟨i,hmem⟩
      rw [← h.size_eq] at hpos
      change m.size - 1 + 1 = m.size
      omega

/-- `erase` on a table with a free cell. -/
theorem Wf.erase_spec {m : SingleThreadHashMap K V} (h : m.Wf) (key : K)
    (hne : key ≠ m.emptyKey) (hroom : m.size < m.capacity) :
    ∃ b m', m.erase key = .ok (b,m') ∧ m'.Wf ∧ m.SameShape m' ∧
      (∀ k v, m'.Stored k v ↔ k ≠ key ∧ m.Stored k v) ∧
      (b = true ↔ ∃ v, m.Stored key v) ∧ m'.size + b.toNat = m.size :=
  h.erase_gated key hne (h.hasGate hroom)

omit [DecidableEq K] in
theorem SameShape.home {m m' : SingleThreadHashMap K V} (h : m.SameShape m') (key : K) :
    m'.home key = m.home key := by
  simp only [SingleThreadHashMap.home,mask,h.2.1,h.2.2]

theorem ne_emptyKey_of_erase {m m' : SingleThreadHashMap K V} {key : K} {b : Bool}
    (h : m.erase key = .ok (b,m')) : key ≠ m.emptyKey := by
  intro hkey
  rw [erase,safeCheck,if_neg (by simp [hkey])] at h
  cases h

/-- `erase` moves entries only towards their home slots. -/
theorem Wf.erase_closer {m m' : SingleThreadHashMap K V} (h : m.Wf) {key : K} {b : Bool}
    (hroom : m.size < m.capacity) (he : m.erase key = .ok (b,m')) {p : Nat} {a : K × V}
    (hp : p < m.capacity) (ha : m'.entries m'.cells p = some a) :
    ∃ q < m.capacity, m.entries m.cells q = some a ∧
      ringDist m.capacity (m.home a.1) p ≤ ringDist m.capacity (m.home a.1) q := by
  have hne := ne_emptyKey_of_erase he
  rw [erase,safeCheck_pos hne] at he
  cases hl : m.locate m.capacity key with
  | none =>
    simp only [hl] at he
    cases he
    exact ⟨p,hp,ha,le_rfl⟩
  | some i =>
    obtain ⟨hi,hk,_⟩ := (h.locate_eq_some key hne m.capacity i le_rfl).mp hl
    have hmem : i ∈ m.occupied m.cells := (mem_occupied ..).mpr ⟨hi,by rw [hk]; exact hne⟩
    obtain ⟨cells,hole,j,hrun,hinv,_⟩ := h.erase_ends (h.hasGate hroom) hmem
    simp only [hl,hrun] at he
    cases he
    change m.entries (Function.update cells hole ⟨m.emptyKey,m.emptyVal⟩) p = some a at ha
    rw [entries_update,(entry_eq_none m.emptyKey ⟨m.emptyKey,m.emptyVal⟩).mpr rfl] at ha
    have hph : p ≠ hole := by
      intro hc
      rw [hc,Function.update_self] at ha
      cases ha
    rw [Function.update_of_ne hph] at ha
    exact hinv.closer p a hp hph ha

/-- A key that `find` finds is still found when another key has been erased. -/
theorem Wf.erase_find {m m' : SingleThreadHashMap K V} (h : m.Wf) {key k : K} {v : V} {b : Bool}
    (hroom : m.size < m.capacity) (he : m.erase key = .ok (b,m')) (hk : k ≠ key)
    (hfind : m.find k = .ok (some v)) : m'.find k = .ok (some v) := by
  have hne := ne_emptyKey_of_erase he
  have hkne := ne_emptyKey_of_find hfind
  obtain ⟨b',m'',he',hwf,hshape,hst,_⟩ := h.erase_spec key hne hroom
  rw [he] at he'
  cases he'
  obtain ⟨q,hq,hqe,hd⟩ := (h.find_eq_some k hkne v).mp hfind
  obtain ⟨p,hp,hpe⟩ := (hst k v).mpr ⟨hk,q,hq,hqe⟩
  rw [hshape.2.2] at hp
  obtain ⟨q',hq',hqe',hle⟩ := h.erase_closer hroom he hp hpe
  have hsame := h.distinct q q' _ _ hq hq' hqe hqe' rfl
  subst hsame
  refine (hwf.find_eq_some k (by rwa [hshape.1]) v).mpr ⟨p,by rwa [hshape.2.2],hpe,?_⟩
  rw [hshape.2.2,hshape.home]
  exact hle.trans_lt hd

/-- A key that `find` finds is still found when another key has been emplaced. -/
theorem Wf.emplace_find {m m' : SingleThreadHashMap K V} (h : m.Wf) {key k : K} {val v : V}
    {b : Bool} (hroom : m.size < m.capacity) (he : m.emplace key val = .ok (b,m')) (hk : k ≠ key)
    (hfind : m.find k = .ok (some v)) : m'.find k = .ok (some v) := by
  have hne : key ≠ m.emptyKey := by
    intro hkey
    rw [emplace,safeCheck,if_neg (by simp [hkey])] at he
    cases he
  have hkne := ne_emptyKey_of_find hfind
  obtain ⟨b',m'',he',hwf,hshape,_⟩ := h.emplace_spec key val hne hroom
  rw [he] at he'
  cases he'
  obtain ⟨i,hprobe,hs⟩ := h.emplace_slot key hroom
  obtain ⟨q,hq,hqe,hd⟩ := (h.find_eq_some k hkne v).mp hfind
  have hqi : q ≠ i := by
    intro hc
    subst hc
    obtain ⟨hocc,hkv⟩ := (entry_eq_some ..).mp hqe
    simp only [Prod.mk.injEq] at hkv
    exact hk (hkv.1.trans (hs.hit.resolve_left hocc))
  have hcells : m'.cells q = m.cells q := by
    rw [emplace_eq m hne,hprobe] at he
    dsimp only at he
    split_ifs at he
    · cases he
      exact Function.update_of_ne hqi _ _
    · cases he
      exact Function.update_of_ne hqi _ _
  refine (hwf.find_eq_some k (by rwa [hshape.1]) v).mpr ⟨q,by rwa [hshape.2.2],?_,?_⟩
  · rw [entries,hcells,hshape.1]
    exact hqe
  · rw [hshape.2.2,hshape.home]
    exact hd

end Aethon.SingleThreadHashMap
