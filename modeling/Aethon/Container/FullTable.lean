import Aethon.Container.MapRefinement
import Mathlib.Data.Finmap

/-!
# The hash map up to its capacity

A table may be filled completely. An insertion of one more key is then refused, and a deletion
has no empty cell to stop at: it ends because the cell that was filled last is a gate. Every run
of updates is a run of a finite map with at most as many keys as the table has cells.
-/

namespace Aethon.SingleThreadHashMap

open Framework

variable {K V : Type} [DecidableEq K]

section Bounded

abbrev FiniteMap (K V : Type) := Finmap fun _ : K => V

/-- One update of a finite map that takes at most `capacity` keys, and what it returns. -/
def boundedStep (capacity : Nat) (s : FiniteMap K V) : MapOp K V → FiniteMap K V × Bool
  | .emplace key val =>
      if key ∈ s then (s.insert key val,false)
      else if s.keys.card < capacity then (s.insert key val,true)
      else (s,false)
  | .erase key => (s.erase key,decide (key ∈ s))

def boundedRun (capacity : Nat) : FiniteMap K V → List (MapOp K V) → FiniteMap K V × List Bool
  | s, [] => (s,[])
  | s, op :: ops =>
      let (s,b) := boundedStep capacity s op
      let (s,outs) := boundedRun capacity s ops
      (s,b :: outs)

theorem keys_insert (s : FiniteMap K V) (key : K) (val : V) :
    (s.insert key val).keys = insert key s.keys := by
  ext k
  rw [Finmap.mem_keys,Finmap.mem_insert,Finset.mem_insert,Finmap.mem_keys]

theorem lookup_insert_iff (s : FiniteMap K V) (key k : K) (val v : V) :
    (s.insert key val).lookup k = some v ↔
      (k = key ∧ v = val) ∨ (k ≠ key ∧ s.lookup k = some v) := by
  by_cases hk : k = key
  · subst hk
    simp [Finmap.lookup_insert,eq_comm]
  · simp [Finmap.lookup_insert_of_ne _ hk,hk]

theorem lookup_erase_iff (s : FiniteMap K V) (key k : K) (v : V) :
    (s.erase key).lookup k = some v ↔ k ≠ key ∧ s.lookup k = some v := by
  by_cases hk : k = key
  · subst hk
    simp [Finmap.lookup_erase]
  · simp [Finmap.lookup_erase_ne hk,hk]

end Bounded

section Gates

variable {m m' : SingleThreadHashMap K V} {key : K} {val : V} {b : Bool}

theorem Wf.size_le (h : m.Wf) : m.size ≤ m.capacity := by
  rw [h.size_eq,← Finset.card_range m.capacity]
  exact Finset.card_le_card (Finset.filter_subset _ _)

theorem new_hasGate (emptyKey : K) (hasher : K → Nat) (emptyVal : V) (n : Nat) :
    (new emptyKey hasher emptyVal n).HasGate :=
  (new_wf emptyKey hasher emptyVal n).hasGate (Nat.two_pow_pos n)

/-- Writing into a cell keeps a gate that stands there, or over a cell that keeps its key. -/
theorem Gated.writeSlot {f i : Nat} (h : m.Gated m.cells f f) (hne : key ≠ m.emptyKey)
    (hkey : i = f ∨ (m.cells i).key = key) (size : Nat) :
    (m.writeSlot key val i size).Gated (m.writeSlot key val i size).cells f f := by
  intro p a hp hpf hpf' ha
  rw [writeSlot_entries _ _ _ _ _ hne] at ha
  by_cases hpi : p = i
  · subst hpi
    rw [Function.update_self] at ha
    cases ha
    have hold : (m.cells p).key = key := hkey.resolve_left hpf
    exact h p (key,(m.cells p).val) hp hpf hpf ((entry_eq_some ..).mpr ⟨by rwa [hold],by rw [hold]⟩)
  · rw [Function.update_of_ne hpi] at ha
    exact h p a hp hpf hpf ha

theorem Wf.emplace_hasGate (h : m.Wf) (hgate : m.HasGate) (hne : key ≠ m.emptyKey)
    (hrun : m.emplace key val = .ok (b,m')) : m'.HasGate := by
  rw [emplace_eq m hne] at hrun
  cases hprobe : m.emplaceProbe key with
  | none =>
    rw [hprobe] at hrun
    cases hrun
    exact hgate
  | some i =>
    have hs := emplaceSlot_of_probe hprobe
    rw [hprobe] at hrun
    dsimp only at hrun
    split_ifs at hrun with hfree
    · cases hrun
      exact ⟨i,hs.lt,(h.gated_of_free hs.lt hfree).writeSlot hne (Or.inl rfl) _⟩
    · cases hrun
      obtain ⟨f,hf,hgated⟩ := hgate
      exact ⟨f,hf,hgated.writeSlot hfree (Or.inr rfl) _⟩

theorem Wf.erase_hasGate (h : m.Wf) (hgate : m.HasGate) (hne : key ≠ m.emptyKey)
    (hrun : m.erase key = .ok (b,m')) : m'.HasGate := by
  obtain ⟨b',m'',hrun',hwf,hshape,_,_,hsize⟩ := h.erase_gated key hne hgate
  rw [hrun] at hrun'
  cases hrun'
  cases b with
  | true =>
    have hle := h.size_le
    apply hwf.hasGate
    rw [hshape.2.2]
    simp only [Bool.toNat_true] at hsize
    omega
  | false =>
    rw [erase,safeCheck_pos hne] at hrun
    cases hl : m.locate m.capacity key with
    | none =>
      rw [hl] at hrun
      cases hrun
      exact hgate
    | some i =>
      simp only [hl,bind,Except.bind] at hrun
      split at hrun
      · cases hrun
      · cases hrun

end Gates

section Simulation

/-- The table holds the pairs of a finite map. -/
structure Holds (m : SingleThreadHashMap K V) (emptyKey : K) (capacity : Nat)
    (s : FiniteMap K V) : Prop where
  wf : m.Wf
  gate : m.HasGate
  emptyKey_eq : m.emptyKey = emptyKey
  capacity_eq : m.capacity = capacity
  stored : ∀ key val, m.Stored key val ↔ s.lookup key = some val
  size_eq : m.size = s.keys.card

variable {m : SingleThreadHashMap K V} {emptyKey : K} {capacity : Nat} {s : FiniteMap K V}

theorem Holds.mem_iff (h : m.Holds emptyKey capacity s) (key : K) :
    key ∈ s ↔ ∃ val, m.Stored key val := by
  rw [Finmap.mem_iff]
  exact exists_congr fun val => (h.stored key val).symm

theorem Holds.emplace (h : m.Holds emptyKey capacity s) (key : K) (val : V)
    (hne : key ≠ emptyKey) :
    ∃ m', m.emplace key val = .ok ((boundedStep capacity s (.emplace key val)).2,m') ∧
      m'.Holds emptyKey capacity (boundedStep capacity s (.emplace key val)).1 := by
  have hnem : key ≠ m.emptyKey := by rwa [h.emptyKey_eq]
  cases hprobe : m.emplaceProbe key with
  | none =>
    have hfull : ∀ p < m.capacity, _ := fun p hp => full_of_probe hprobe (p := p) hp
    have habsent : key ∉ s := by
      rw [h.mem_iff]
      rintro ⟨v,p,hp,he⟩
      obtain ⟨_,hkv⟩ := (entry_eq_some ..).mp he
      exact (hfull p hp).2 (Prod.ext_iff.mp hkv).1.symm
    have hcard : ¬ s.keys.card < capacity := by
      rw [← h.size_eq,← h.capacity_eq]
      intro hroom
      obtain ⟨f,hf,hfree⟩ := h.wf.exists_free hroom
      exact (hfull f hf).1 hfree
    simp only [boundedStep,habsent,hcard,if_false]
    exact ⟨m,by rw [emplace_eq m hnem,hprobe],h⟩
  | some i =>
    obtain ⟨b,m',hrun,hwf,hshape,hstored,hb,hsize⟩ := h.wf.emplace_found hprobe val hnem
    have hnew : b = true ↔ key ∉ s := by
      rw [hb,h.mem_iff,not_exists]
    have hroom : b = true → s.keys.card < capacity := by
      rintro rfl
      have hle := hwf.size_le
      rw [hshape.2.2,h.capacity_eq] at hle
      rw [← h.size_eq]
      simp only [Bool.toNat_true] at hsize
      omega
    have hstep : boundedStep capacity s (.emplace key val) = (s.insert key val,b) := by
      cases b with
      | true => simp [boundedStep,hnew.mp rfl,hroom rfl]
      | false =>
        have hmem : key ∈ s := by
          by_contra hc
          cases hnew.mpr hc
        simp [boundedStep,hmem]
    rw [hstep]
    refine ⟨m',hrun,hwf,h.wf.emplace_hasGate h.gate hnem hrun,hshape.1.trans h.emptyKey_eq,
      hshape.2.2.trans h.capacity_eq,?_,?_⟩
    · intro k v
      rw [hstored,lookup_insert_iff,h.stored]
    · rw [hsize,h.size_eq,keys_insert]
      cases b with
      | true => rw [Finset.card_insert_of_notMem (mt Finmap.mem_keys.mp (hnew.mp rfl))]; rfl
      | false =>
        have hmem : key ∈ s := by
          by_contra hc
          cases hnew.mpr hc
        rw [Finset.insert_eq_of_mem (Finmap.mem_keys.mpr hmem)]
        rfl

theorem Holds.erase (h : m.Holds emptyKey capacity s) (key : K) (hne : key ≠ emptyKey) :
    ∃ m', m.erase key = .ok ((boundedStep capacity s (.erase key)).2,m') ∧
      m'.Holds emptyKey capacity (boundedStep capacity s (.erase key)).1 := by
  have hnem : key ≠ m.emptyKey := by rwa [h.emptyKey_eq]
  obtain ⟨b,m',hrun,hwf,hshape,hstored,hb,hsize⟩ := h.wf.erase_gated key hnem h.gate
  rw [← h.mem_iff] at hb
  have hstep : boundedStep capacity s (.erase key) = (s.erase key,b) := by
    simp only [boundedStep,← hb,Bool.decide_eq_true]
  rw [hstep]
  refine ⟨m',hrun,hwf,h.wf.erase_hasGate h.gate hnem hrun,hshape.1.trans h.emptyKey_eq,
    hshape.2.2.trans h.capacity_eq,?_,?_⟩
  · intro k v
    rw [hstored,lookup_erase_iff,h.stored]
  · rw [Finmap.keys_erase]
    have hold := h.size_eq
    cases b with
    | true =>
      rw [Finset.card_erase_of_mem (Finmap.mem_keys.mpr (hb.mp rfl))]
      simp only [Bool.toNat_true] at hsize
      omega
    | false =>
      rw [Finset.erase_eq_of_notMem]
      · simp only [Bool.toNat_false] at hsize
        omega
      · intro hmem
        cases hb.mpr (Finmap.mem_keys.mp hmem)

theorem Holds.applyOp (h : m.Holds emptyKey capacity s) {op : MapOp K V}
    (hkey : op.key ≠ emptyKey) :
    ∃ m', m.applyOp op = .ok (m',(boundedStep capacity s op).2) ∧
      m'.Holds emptyKey capacity (boundedStep capacity s op).1 := by
  cases op with
  | emplace key val =>
    obtain ⟨m',hrun,hholds⟩ := h.emplace key val hkey
    exact ⟨m',by rw [SingleThreadHashMap.applyOp,hrun]; rfl,hholds⟩
  | erase key =>
    obtain ⟨m',hrun,hholds⟩ := h.erase key hkey
    exact ⟨m',by rw [SingleThreadHashMap.applyOp,hrun]; rfl,hholds⟩

theorem Holds.run (h : m.Holds emptyKey capacity s) (ops : List (MapOp K V))
    (hkeys : ∀ op ∈ ops, op.key ≠ emptyKey) :
    ∃ m', runOut SingleThreadHashMap.applyOp m ops = .ok (m',(boundedRun capacity s ops).2) ∧
      m'.Holds emptyKey capacity (boundedRun capacity s ops).1 := by
  induction ops generalizing m s with
  | nil => exact ⟨m,rfl,h⟩
  | cons op ops ih =>
    obtain ⟨m',hstep,hholds⟩ := h.applyOp (hkeys op List.mem_cons_self)
    obtain ⟨m'',hrun,hholds'⟩ := ih hholds fun o ho => hkeys o (List.mem_cons_of_mem _ ho)
    exact ⟨m'',(runOut_cons ..).mpr ⟨m',_,_,hstep,hrun,rfl⟩,hholds'⟩

end Simulation

/-- Every run of updates succeeds, and the table it ends in has distinct keys, unbroken probe
paths, a size that counts its entries and the pairs of the finite map. -/
theorem representation_invariant (emptyKey : K) (hasher : K → Nat) (emptyVal : V) (n : Nat)
    (ops : List (MapOp K V)) (hkeys : ∀ op ∈ ops, op.key ≠ emptyKey) :
    ∃ m, runOut applyOp (new emptyKey hasher emptyVal n) ops =
        .ok (m,(boundedRun (2 ^ n) ∅ ops).2) ∧
      (∀ p < m.capacity, ∀ q < m.capacity, (m.cells p).key ≠ emptyKey →
        (m.cells p).key = (m.cells q).key → p = q) ∧
      (∀ p < m.capacity, (m.cells p).key ≠ emptyKey →
        ∀ d < ringDist m.capacity (m.home (m.cells p).key) p,
          (m.cells (wrap m.capacity (m.home (m.cells p).key + d))).key ≠ emptyKey) ∧
      m.size = ((Finset.range m.capacity).filter fun p => (m.cells p).key ≠ emptyKey).card ∧
      ∀ key val, key ≠ emptyKey →
        ((∃ p < m.capacity, (m.cells p).key = key ∧ (m.cells p).val = val) ↔
          (boundedRun (2 ^ n) ∅ ops).1.lookup key = some val) := by
  have hnew : (new emptyKey hasher emptyVal n).Holds emptyKey (2 ^ n) ∅ :=
    ⟨new_wf ..,new_hasGate ..,rfl,rfl,fun key val => by simp [new_not_stored],by simp [new]⟩
  obtain ⟨m,hrun,h⟩ := hnew.run ops hkeys
  have hentry : ∀ p, (m.cells p).key ≠ emptyKey →
      m.entries m.cells p = some ((m.cells p).key,(m.cells p).val) := by
    intro p hp
    exact (entry_eq_some ..).mpr ⟨by rwa [h.emptyKey_eq],rfl⟩
  refine ⟨m,hrun,?_,?_,?_,?_⟩
  · intro p hp q hq hne heq
    exact h.wf.distinct p q _ _ hp hq (hentry p hne) (hentry q (heq ▸ hne)) heq
  · intro p hp hne d hd hempty
    exact h.wf.path p _ hp (hentry p hne) d hd ((entry_eq_none ..).mpr (by rwa [h.emptyKey_eq]))
  · rw [h.wf.size_eq,occupied,h.emptyKey_eq]
  · intro key val hne
    rw [← h.stored]
    refine exists_congr fun p => and_congr_right fun _ => ?_
    rw [entries,entry_eq_some,h.emptyKey_eq,Prod.mk.injEq]
    constructor
    · rintro ⟨rfl,rfl⟩
      exact ⟨hne,rfl,rfl⟩
    · rintro ⟨_,hk,hv⟩
      exact ⟨hk.symm,hv.symm⟩

/-- A table of two cells is filled, refuses a third key and gives up the first. -/
def fillOps : List (MapOp Nat Nat) := [.emplace 1 10,.emplace 3 30,.emplace 5 50,.erase 1]

theorem representation_invariant_full :
    ∃ m : SingleThreadHashMap Nat Nat, runOut applyOp (new 0 id 0 1) fillOps =
        .ok (m,[true,true,false,true]) ∧
      ∀ p < m.capacity, (m.cells p).key ≠ 0 →
        ∀ d < ringDist m.capacity (m.home (m.cells p).key) p,
          (m.cells (wrap m.capacity (m.home (m.cells p).key + d))).key ≠ 0 := by
  obtain ⟨m,hrun,_,hpath,_⟩ := representation_invariant 0 id 0 1 fillOps (by decide)
  exact ⟨m,hrun,hpath⟩

end Aethon.SingleThreadHashMap
