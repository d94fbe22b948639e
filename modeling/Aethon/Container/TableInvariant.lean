import Aethon.Container.SingleThreadHashMap

/-!
# Representation invariant of the hash map

The occupied cells form a linear-probing table with distinct keys. Each operation is
described once by what it does to the stored pairs; callers never open the probe loops.
-/

namespace Aethon.SingleThreadHashMap

open Framework

variable {K V : Type}

theorem capacity_pos (m : SingleThreadHashMap K V) : 0 < m.capacity := by
  obtain ⟨n,hn⟩ := m.capacity_pow
  rw [hn]
  exact Nat.two_pow_pos n

theorem and_mask (m : SingleThreadHashMap K V) (x : Nat) : x &&& m.mask = x % m.capacity :=
  and_mask_eq_mod m.capacity_pow x

theorem home_lt (m : SingleThreadHashMap K V) (key : K) : m.home key < m.capacity := by
  rw [home,and_mask]
  exact Nat.mod_lt _ m.capacity_pos

theorem next_eq (m : SingleThreadHashMap K V) (i : Nat) (hi : i < m.capacity) :
    m.next i = wrap m.capacity (i + 1) := by
  rw [next,and_mask,wrap_eq_mod]
  omega

theorem next_iterate (m : SingleThreadHashMap K V) (i d : Nat) (hi : i < m.capacity)
    (hd : d ≤ m.capacity) : m.next^[d] i = wrap m.capacity (i + d) :=
  mask_iterate m.capacity_pow hi hd

variable [DecidableEq K]

/-- The entry a cell holds, if its key is not the sentinel. -/
def entry (emptyKey : K) (c : Cell K V) : Option (K × V) :=
  if c.key = emptyKey then none else some (c.key,c.val)

/-- The table of entries behind an array of cells. -/
def entries (m : SingleThreadHashMap K V) (cells : Nat → Cell K V) (p : Nat) : Option (K × V) :=
  entry m.emptyKey (cells p)

/-- Slots of the table that hold an entry. -/
def occupied (m : SingleThreadHashMap K V) (cells : Nat → Cell K V) : Finset Nat :=
  (Finset.range m.capacity).filter fun p => (cells p).key ≠ m.emptyKey

/-- The pair `(key, val)` is stored somewhere in the table. -/
def Stored (m : SingleThreadHashMap K V) (key : K) (val : V) : Prop :=
  ∃ p < m.capacity, m.entries m.cells p = some (key,val)

structure Wf (m : SingleThreadHashMap K V) : Prop where
  path : PathOk m.capacity (fun a : K × V => m.home a.1) (m.entries m.cells)
  distinct : ∀ p q a b, p < m.capacity → q < m.capacity → m.entries m.cells p = some a →
    m.entries m.cells q = some b → a.1 = b.1 → p = q
  size_eq : m.size = (m.occupied m.cells).card

/-- Two tables with the same sentinel, hasher and capacity. -/
def SameShape (m m' : SingleThreadHashMap K V) : Prop :=
  m'.emptyKey = m.emptyKey ∧ m'.hasher = m.hasher ∧ m'.capacity = m.capacity

theorem entry_eq_some (emptyKey : K) (c : Cell K V) (a : K × V) :
    entry emptyKey c = some a ↔ c.key ≠ emptyKey ∧ a = (c.key,c.val) := by
  unfold entry
  split_ifs with h
  · simp [h]
  · simp [h,eq_comm]

theorem entry_eq_none (emptyKey : K) (c : Cell K V) :
    entry emptyKey c = none ↔ c.key = emptyKey := by
  unfold entry
  split_ifs with h <;> simp [h]

theorem mem_occupied (m : SingleThreadHashMap K V) (cells : Nat → Cell K V) (p : Nat) :
    p ∈ m.occupied cells ↔ p < m.capacity ∧ (cells p).key ≠ m.emptyKey := by
  simp [occupied]

theorem Stored.ne_emptyKey {m : SingleThreadHashMap K V} {key : K} {val : V}
    (h : m.Stored key val) : key ≠ m.emptyKey := by
  obtain ⟨p,_,hp⟩ := h
  obtain ⟨hk,he⟩ := (entry_eq_some ..).mp hp
  cases he
  exact hk

theorem Wf.stored_unique {m : SingleThreadHashMap K V} (h : m.Wf) {key : K} {v w : V}
    (hv : m.Stored key v) (hw : m.Stored key w) : v = w := by
  obtain ⟨p,hp,hpe⟩ := hv
  obtain ⟨q,hq,hqe⟩ := hw
  have hpq := h.distinct p q _ _ hp hq hpe hqe rfl
  subst hpq
  rw [hpe] at hqe
  cases hqe
  rfl

theorem new_wf (emptyKey : K) (hasher : K → Nat) (emptyVal : V) (n : Nat) :
    (new emptyKey hasher emptyVal n).Wf where
  path := by
    intro p a _ hp
    simp [new,entries,entry] at hp
  distinct := by
    intro p q a b _ _ hp
    simp [new,entries,entry] at hp
  size_eq := by simp [new,occupied]

theorem new_not_stored (emptyKey : K) (hasher : K → Nat) (emptyVal : V) (n : Nat) (key : K)
    (val : V) : ¬(new emptyKey hasher emptyVal n).Stored key val := by
  rintro ⟨p,_,hp⟩
  simp [new,entries,entry] at hp

/-- An entry on the probe path of `key` before the cell of `key` is neither empty nor `key`. -/
theorem Wf.before_cell {m : SingleThreadHashMap K V} (h : m.Wf) {key : K} {i e : Nat}
    (hi : i < m.capacity) (hk : (m.cells i).key = key) (hne : key ≠ m.emptyKey)
    (he : e < ringDist m.capacity (m.home key) i) :
    (m.cells (wrap m.capacity (m.home key + e))).key ≠ key ∧
      (m.cells (wrap m.capacity (m.home key + e))).key ≠ m.emptyKey := by
  have hhome := m.home_lt key
  have hdl := ringDist_lt m.capacity (m.home key) i hhome hi
  have hent : m.entries m.cells i = some (key,(m.cells i).val) :=
    (entry_eq_some ..).mpr ⟨by rw [hk]; exact hne,by rw [hk]⟩
  have hocc := h.path i _ hi hent e he
  have hemp : (m.cells (wrap m.capacity (m.home key + e))).key ≠ m.emptyKey := by
    intro hc
    exact hocc ((entry_eq_none ..).mpr hc)
  refine ⟨?_,hemp⟩
  intro hc
  have hent' : m.entries m.cells (wrap m.capacity (m.home key + e)) = some (key,_) :=
    (entry_eq_some ..).mpr ⟨hemp,by rw [hc]⟩
  have heq := h.distinct _ i _ _ (wrap_lt _ _ (by omega)) hi hent' hent rfl
  have hd := ringDist_wrap m.capacity (m.home key) e hhome (by omega)
  rw [heq] at hd
  omega

/-- The probe loop finds exactly the cells less than `budget` steps after the home slot. -/
theorem Wf.locate_eq_some {m : SingleThreadHashMap K V} (h : m.Wf) (key : K)
    (hne : key ≠ m.emptyKey) (budget i : Nat) (hb : budget ≤ m.capacity) :
    m.locate budget key = some i ↔
      i < m.capacity ∧ (m.cells i).key = key ∧ ringDist m.capacity (m.home key) i < budget := by
  have hhome := m.home_lt key
  rw [locate,probe_eq_some]
  constructor
  · rintro ⟨d,hd,rfl,hk,_⟩
    rw [m.next_iterate _ d hhome (by omega)] at hk ⊢
    refine ⟨wrap_lt _ _ (by omega),hk,?_⟩
    rw [ringDist_wrap _ _ _ hhome (by omega)]
    exact hd
  · rintro ⟨hi,hk,hd⟩
    refine ⟨ringDist m.capacity (m.home key) i,hd,?_,hk,?_⟩
    · rw [m.next_iterate _ _ hhome (by omega),wrap_ringDist _ _ _ hi hhome]
    · intro e he
      rw [m.next_iterate _ _ hhome (by omega)]
      exact h.before_cell hi hk hne he

/-- `find` returns a stored value exactly when its cell is within the search budget. -/
theorem Wf.find_eq_some {m : SingleThreadHashMap K V} (h : m.Wf) (key : K)
    (hne : key ≠ m.emptyKey) (val : V) :
    m.find key = .ok (some val) ↔
      ∃ p < m.capacity, m.entries m.cells p = some (key,val) ∧
        ringDist m.capacity (m.home key) p < 64 := by
  have hfind : m.find key = .ok ((m.locate m.maxSearch key).map fun idx => (m.cells idx).val) := by
    rw [find,safeCheck_pos hne]
    rfl
  have hle : m.maxSearch ≤ m.capacity := min_le_left ..
  rw [hfind,Except.ok.injEq,Option.map_eq_some_iff]
  constructor
  · rintro ⟨p,hp,rfl⟩
    obtain ⟨hi,hk,hd⟩ := (h.locate_eq_some key hne _ p hle).mp hp
    refine ⟨p,hi,(entry_eq_some ..).mpr ⟨by rw [hk]; exact hne,by rw [hk]⟩,?_⟩
    exact hd.trans_le (min_le_right ..)
  · rintro ⟨p,hi,hp,hd⟩
    obtain ⟨_,he⟩ := (entry_eq_some ..).mp hp
    simp only [Prod.mk.injEq] at he
    have hdl := ringDist_lt _ _ _ (m.home_lt key) hi
    exact ⟨p,(h.locate_eq_some key hne _ p hle).mpr ⟨hi,he.1.symm,lt_min hdl hd⟩,he.2.symm⟩

theorem find_ok (m : SingleThreadHashMap K V) (key : K) (hne : key ≠ m.emptyKey) :
    ∃ r, m.find key = .ok r := by
  rw [find,safeCheck_pos hne]
  exact ⟨_,rfl⟩

theorem emplace_ok (m : SingleThreadHashMap K V) (key : K) (val : V) (hne : key ≠ m.emptyKey) :
    ∃ b m', m.emplace key val = .ok (b,m') := by
  rw [emplace,safeCheck_pos hne]
  simp only [bind,Except.bind]
  split
  · exact ⟨_,_,rfl⟩
  · split
    · exact ⟨_,_,rfl⟩
    · exact ⟨_,_,rfl⟩

theorem emplace_emptyKey {m m' : SingleThreadHashMap K V} {key : K} {val : V} {b : Bool}
    (h : m.emplace key val = .ok (b,m')) : m'.emptyKey = m.emptyKey := by
  unfold emplace at h
  obtain ⟨_,_,hrest⟩ := (bind_ok_iff ..).mp h
  split at hrest
  · cases hrest
    rfl
  · split_ifs at hrest
    · cases hrest
      rfl
    · cases hrest
      rfl

/-- A lookup of the sentinel aborts. -/
theorem find_sentinel (m : SingleThreadHashMap K V) :
    m.find m.emptyKey = .error (.safeCheck "Cannot search for EmptyKey!") := by
  rw [find,safeCheck,if_neg (by simp)]
  rfl

theorem ne_emptyKey_of_find {m : SingleThreadHashMap K V} {key : K} {r : Option V}
    (h : m.find key = .ok r) : key ≠ m.emptyKey := by
  rintro rfl
  rw [find_sentinel] at h
  cases h

theorem Wf.find_stored {m : SingleThreadHashMap K V} (h : m.Wf) {key : K}
    {val : V} (hf : m.find key = .ok (some val)) : m.Stored key val := by
  obtain ⟨p,hp,he,_⟩ := (h.find_eq_some key (ne_emptyKey_of_find hf) val).mp hf
  exact ⟨p,hp,he⟩

/-- A key that is alone in the table sits in its home slot. -/
theorem Wf.find_alone {m : SingleThreadHashMap K V} (h : m.Wf) {key : K} {val : V}
    (hst : m.Stored key val) (halone : ∀ k v, m.Stored k v → k = key) :
    m.find key = .ok (some val) := by
  have hne := hst.ne_emptyKey
  obtain ⟨i,hi,he⟩ := hst
  obtain ⟨_,hkv⟩ := (entry_eq_some ..).mp he
  simp only [Prod.mk.injEq] at hkv
  apply (h.find_eq_some key hne val).mpr
  refine ⟨i,hi,he,?_⟩
  by_contra hfar
  have hbefore := h.before_cell hi hkv.1.symm hne
    (show 0 < ringDist m.capacity (m.home key) i by omega)
  apply hbefore.1
  exact halone _ (m.cells (wrap m.capacity (m.home key + 0))).val
    ⟨_,wrap_lt _ _ (by have := m.home_lt key; omega),(entry_eq_some ..).mpr ⟨hbefore.2,rfl⟩⟩

/-- The cells between the home slot of a stored key and its own cell are occupied. -/
theorem Wf.ringDist_lt_size {m : SingleThreadHashMap K V} (h : m.Wf) {key : K} {i : Nat}
    (hi : i < m.capacity) (hk : (m.cells i).key = key) (hne : key ≠ m.emptyKey) :
    ringDist m.capacity (m.home key) i < m.size := by
  have hhome := m.home_lt key
  have hdl := ringDist_lt m.capacity (m.home key) i hhome hi
  have hslots : ∀ e ∈ Finset.range (ringDist m.capacity (m.home key) i + 1),
      wrap m.capacity (m.home key + e) ∈ m.occupied m.cells := by
    intro e he
    rw [Finset.mem_range] at he
    rw [mem_occupied]
    refine ⟨wrap_lt _ _ (by omega),?_⟩
    rcases Nat.lt_succ_iff_lt_or_eq.mp he with hlt | heq
    · exact (h.before_cell hi hk hne hlt).2
    · rw [heq,wrap_ringDist _ _ _ hi hhome,hk]
      exact hne
  have hinj : Set.InjOn (fun e => wrap m.capacity (m.home key + e))
      (Finset.range (ringDist m.capacity (m.home key) i + 1)) := by
    intro e he e' he' heq
    rw [Finset.coe_range,Set.mem_Iio] at he he'
    have hd := ringDist_wrap m.capacity (m.home key) e hhome (by omega)
    have hd' := ringDist_wrap m.capacity (m.home key) e' hhome (by omega)
    dsimp only at heq
    rw [heq] at hd
    exact hd.symm.trans hd'
  have hcard := Finset.card_le_card_of_injOn _ hslots hinj
  rw [Finset.card_range] at hcard
  rw [h.size_eq]
  omega

end Aethon.SingleThreadHashMap
