import Aethon.Container.TableUpdate

/-!
# The hash map against a finite map

The abstract map is replayed from the same operations. Every table reached stores exactly
the replayed pairs, but `find` only sees those whose cell lies within its search budget.
-/

namespace Aethon.SingleThreadHashMap

open Framework

variable {K V : Type} [DecidableEq K]

/-- The updates a client makes; `insert` is `emplace`. -/
inductive MapOp (K V : Type) where
  | emplace (key : K) (val : V)
  | erase (key : K)

def MapOp.key : MapOp K V → K
  | .emplace key _ => key
  | .erase key => key

def applyOp (m : SingleThreadHashMap K V) :
    MapOp K V → Checked (SingleThreadHashMap K V × Bool)
  | .emplace key val => do
      let (b,m') ← m.emplace key val
      return (m',b)
  | .erase key => do
      let (b,m') ← m.erase key
      return (m',b)

/-- The abstract finite map after the operations. -/
def replay (ops : List (MapOp K V)) : K → Option V :=
  ops.foldl (fun f op => match op with
    | .emplace key val => Function.update f key (some val)
    | .erase key => Function.update f key none) fun _ => none

/-- Keys inserted and not erased since. -/
def liveKeys (ops : List (MapOp K V)) : Finset K :=
  ops.foldl (fun s op => match op with
    | .emplace key _ => insert key s
    | .erase key => s.erase key) ∅

/-- The number of live keys stays below the capacity. -/
def LiveBelow (capacity : Nat) (ops : List (MapOp K V)) : Prop :=
  ∀ pre, pre <+: ops → (liveKeys pre).card < capacity

section Replay

variable (ops : List (MapOp K V)) (key : K) (val : V)

@[simp] theorem replay_emplace :
    replay (ops ++ [.emplace key val]) = Function.update (replay ops) key (some val) := by
  simp [replay]

@[simp] theorem replay_erase :
    replay (ops ++ [.erase key]) = Function.update (replay ops) key none := by
  simp [replay]

@[simp] theorem liveKeys_emplace :
    liveKeys (ops ++ [.emplace key val]) = insert key (liveKeys ops) := by
  simp [liveKeys]

@[simp] theorem liveKeys_erase :
    liveKeys (ops ++ [.erase key]) = (liveKeys ops).erase key := by
  simp [liveKeys]

theorem mem_liveKeys : key ∈ liveKeys ops ↔ (replay ops key).isSome = true := by
  induction ops using List.reverseRecOn with
  | nil => simp [liveKeys,replay]
  | append_singleton ops op ih =>
    cases op with
    | emplace k v =>
      by_cases hk : key = k
      · simp [hk]
      · simp [hk,ih]
    | erase k =>
      by_cases hk : key = k
      · simp [hk]
      · simp [hk,ih]

end Replay

theorem liveKeys_card_le (ops : List (MapOp K V)) : (liveKeys ops).card ≤ ops.length := by
  induction ops using List.reverseRecOn with
  | nil => simp [liveKeys]
  | append_singleton ops op ih =>
    cases op with
    | emplace key val =>
      have h := Finset.card_insert_le key (liveKeys ops)
      rw [liveKeys_emplace,List.length_append,List.length_singleton]
      omega
    | erase key =>
      have h := Finset.card_erase_le (s := liveKeys ops) (a := key)
      rw [liveKeys_erase,List.length_append,List.length_singleton]
      omega

/-- The table represents the abstract map of the operations. -/
structure Represents (m : SingleThreadHashMap K V) (emptyKey : K) (capacity : Nat)
    (ops : List (MapOp K V)) : Prop where
  wf : m.Wf
  emptyKey_eq : m.emptyKey = emptyKey
  capacity_eq : m.capacity = capacity
  stored : ∀ key val, m.Stored key val ↔ replay ops key = some val
  live : ∀ key, key ∈ liveKeys ops ↔ ∃ val, m.Stored key val
  size_eq : m.size = (liveKeys ops).card

theorem Represents.emplace {m : SingleThreadHashMap K V} {emptyKey : K} {capacity : Nat}
    {ops : List (MapOp K V)} (h : m.Represents emptyKey capacity ops) (key : K) (val : V)
    (hne : key ≠ emptyKey) (hroom : (liveKeys ops).card < capacity) :
    ∃ b m', m.applyOp (.emplace key val) = .ok (m',b) ∧
      m'.Represents emptyKey capacity (ops ++ [.emplace key val]) := by
  obtain ⟨b,m',hrun,hwf,⟨he,_,hc⟩,hstored,hb,hsize⟩ := h.wf.emplace_spec key val
    (by rw [h.emptyKey_eq]; exact hne) (by rw [h.size_eq,h.capacity_eq]; exact hroom)
  refine ⟨b,m',?_,hwf,he.trans h.emptyKey_eq,hc.trans h.capacity_eq,?_,?_,?_⟩
  · rw [applyOp,hrun]
    rfl
  · intro k v
    rw [hstored,h.stored,replay_emplace]
    by_cases hk : k = key
    · subst hk
      simp [eq_comm]
    · simp [hk]
  · intro k
    have hl := h.live k
    rw [liveKeys_emplace]
    by_cases hk : k = key
    · subst hk
      simp [hstored]
    · simp [hstored,hk,hl]
  · have hl := h.live key
    rw [hsize,h.size_eq,liveKeys_emplace]
    cases b with
    | true =>
      rw [Finset.card_insert_of_notMem]
      · rfl
      · rw [hl]
        exact fun hex => hb.mp rfl _ hex.choose_spec
    | false =>
      rw [Finset.insert_eq_of_mem]
      · rfl
      · rw [hl]
        by_contra hc
        exact Bool.false_ne_true (hb.mpr fun v hv => hc ⟨v,hv⟩)

theorem Represents.erase {m : SingleThreadHashMap K V} {emptyKey : K} {capacity : Nat}
    {ops : List (MapOp K V)} (h : m.Represents emptyKey capacity ops) (key : K)
    (hne : key ≠ emptyKey) (hroom : (liveKeys ops).card < capacity) :
    ∃ b m', m.applyOp (.erase key) = .ok (m',b) ∧
      m'.Represents emptyKey capacity (ops ++ [.erase key]) := by
  obtain ⟨b,m',hrun,hwf,⟨he,_,hc⟩,hstored,hb,hsize⟩ := h.wf.erase_spec key
    (by rw [h.emptyKey_eq]; exact hne) (by rw [h.size_eq,h.capacity_eq]; exact hroom)
  refine ⟨b,m',?_,hwf,he.trans h.emptyKey_eq,hc.trans h.capacity_eq,?_,?_,?_⟩
  · rw [applyOp,hrun]
    rfl
  · intro k v
    rw [hstored,h.stored,replay_erase]
    by_cases hk : k = key
    · subst hk
      simp
    · simp [hk]
  · intro k
    have hl := h.live k
    rw [liveKeys_erase]
    by_cases hk : k = key
    · subst hk
      simp [hstored]
    · simp [hstored,hk,hl]
  · have hl := h.live key
    have hs := h.size_eq
    rw [liveKeys_erase]
    cases b with
    | true =>
      rw [Finset.card_erase_of_mem (hl.mpr (hb.mp rfl))]
      simp only [Bool.toNat_true] at hsize
      omega
    | false =>
      rw [Finset.erase_eq_of_notMem]
      · simp only [Bool.toNat_false] at hsize
        omega
      · rw [hl]
        exact fun hex => Bool.false_ne_true (hb.mpr hex)

/-- Every run of updates succeeds and ends in a table that represents the abstract map. -/
theorem run_represents (emptyKey : K) (hasher : K → Nat) (emptyVal : V) (n : Nat)
    (ops : List (MapOp K V)) (hkeys : ∀ op ∈ ops, op.key ≠ emptyKey)
    (hlive : LiveBelow (2 ^ n) ops) :
    ∃ m outs, runOut applyOp (new emptyKey hasher emptyVal n) ops = .ok (m,outs) ∧
      m.Represents emptyKey (2 ^ n) ops := by
  induction ops using List.reverseRecOn with
  | nil =>
    refine ⟨new emptyKey hasher emptyVal n,[],rfl,new_wf ..,rfl,rfl,?_,?_,?_⟩
    · intro k v
      simp [replay,new_not_stored]
    · intro k
      simp [liveKeys,new_not_stored]
    · simp [liveKeys,new]
  | append_singleton ops op ih =>
    obtain ⟨m,outs,hrun,hrep⟩ := ih (fun o ho => hkeys o (by simp [ho]))
      (fun pre hpre => hlive pre (hpre.trans (List.prefix_append ..)))
    have hroom := hlive ops (List.prefix_append ..)
    have hkey := hkeys op (by simp)
    have hstep : ∃ b m', m.applyOp op = .ok (m',b) ∧
        m'.Represents emptyKey (2 ^ n) (ops ++ [op]) := by
      cases op with
      | emplace key val => exact hrep.emplace key val hkey hroom
      | erase key => exact hrep.erase key hkey hroom
    obtain ⟨b,m',hop,hrep'⟩ := hstep
    refine ⟨m',outs ++ [b],?_,hrep'⟩
    apply (runOut_append ..).mpr
    exact ⟨m,outs,[b],hrun,(runOut_cons ..).mpr ⟨m',b,[],hop,rfl,rfl⟩,rfl⟩

/-- `find` agrees with the abstract map on a key exactly when the key, if it is stored, sits
fewer than 64 cells after its home slot. -/
theorem find_eq_replay_iff (emptyKey : K) (hasher : K → Nat) (emptyVal : V) (n : Nat)
    (ops : List (MapOp K V)) (hkeys : ∀ op ∈ ops, op.key ≠ emptyKey)
    (hlive : LiveBelow (2 ^ n) ops) :
    ∃ m outs, runOut applyOp (new emptyKey hasher emptyVal n) ops = .ok (m,outs) ∧
      ∀ key, key ≠ emptyKey → (m.find key = .ok (replay ops key) ↔
        ∀ p < m.capacity, (m.cells p).key = key → ringDist m.capacity (m.home key) p < 64) := by
  obtain ⟨m,outs,hrun,hrep⟩ := run_represents emptyKey hasher emptyVal n ops hkeys hlive
  refine ⟨m,outs,hrun,?_⟩
  intro key hne
  have hnem : key ≠ m.emptyKey := by
    rw [hrep.emptyKey_eq]
    exact hne
  have hcell : ∀ p < m.capacity, (m.cells p).key = key →
      m.entries m.cells p = some (key,(m.cells p).val) := by
    intro p hp hk
    exact (entry_eq_some ..).mpr ⟨by rw [hk]; exact hnem,by rw [hk]⟩
  constructor
  · intro hfind p hp hk
    have hrp := (hrep.stored key _).mp ⟨p,hp,hcell p hp hk⟩
    rw [hrp] at hfind
    obtain ⟨q,hq,he,hd⟩ := (hrep.wf.find_eq_some key hnem _).mp hfind
    rw [hrep.wf.distinct p q _ _ hp hq (hcell p hp hk) he rfl]
    exact hd
  · intro hnear
    cases hr : replay ops key with
    | some val =>
      obtain ⟨p,hp,he⟩ := (hrep.stored key val).mpr hr
      obtain ⟨_,hkv⟩ := (entry_eq_some ..).mp he
      simp only [Prod.mk.injEq] at hkv
      exact (hrep.wf.find_eq_some key hnem val).mpr ⟨p,hp,he,hnear p hp hkv.1.symm⟩
    | none =>
      obtain ⟨r,hfind⟩ := m.find_ok key hnem
      cases r with
      | none => exact hfind
      | some val =>
        have hs := (hrep.stored key val).mp (hrep.wf.find_stored hfind)
        rw [hr] at hs
        cases hs

theorem find_eq_replay_iff_one :
    ∃ (m : SingleThreadHashMap Nat Nat) (outs : List Bool),
      runOut applyOp (new 0 (fun k => k) 0 7) [.emplace 5 50,.erase 6] = .ok (m,outs) ∧
      ∀ key, key ≠ 0 → (m.find key = .ok (replay [.emplace 5 50,.erase 6] key) ↔
        ∀ p < m.capacity, (m.cells p).key = key → ringDist m.capacity (m.home key) p < 64) := by
  apply find_eq_replay_iff
  · decide
  · intro pre hpre
    exact (liveKeys_card_le pre).trans_lt (hpre.length_le.trans_lt (by decide))

/-- Insertions of the keys `1, …, n`. -/
def cluster (n : Nat) : List (MapOp Nat Nat) := (List.range n).map fun i => .emplace (i + 1) (i + 1)

/-- The table in which the keys `1, …, n` fill the first cells in order. -/
def clusterTable (n : Nat) : SingleThreadHashMap Nat Nat :=
  { new 0 (fun _ => 0) 0 7 with
    cells := fun i => if i < n then ⟨i + 1,i + 1⟩ else ⟨0,0⟩
    size := n }

theorem clusterTable_emplace (n : Nat) (hn : n < 128) :
    (clusterTable n).applyOp (.emplace (n + 1) (n + 1)) = .ok (clusterTable (n + 1),true) := by
  have hnext : ∀ d ≤ n, (clusterTable n).next^[d] 0 = d := by
    intro d hd
    rw [(clusterTable n).next_iterate 0 d (capacity_pos _) (hd.trans hn.le)]
    have hcap : 0 + d < (clusterTable n).capacity := by
      change 0 + d < 2 ^ 7
      omega
    rw [wrap,if_pos hcap,Nat.zero_add]
  have hprobe : probe (clusterTable n).next
      (fun idx => ((clusterTable n).cells idx).key = (clusterTable n).emptyKey ∨
        ((clusterTable n).cells idx).key = n + 1)
      (fun _ => False) (clusterTable n).capacity ((clusterTable n).home (n + 1)) = some n := by
    rw [probe_eq_some,show (clusterTable n).home (n + 1) = 0 from Nat.zero_and _]
    refine ⟨n,hn,(hnext n le_rfl).symm,Or.inl (by simp [clusterTable,new]),?_⟩
    intro e he
    rw [hnext e he.le]
    simp [clusterTable,new,he]
    omega
  have hcells : Function.update (clusterTable n).cells n ⟨n + 1,n + 1⟩ =
      (clusterTable (n + 1)).cells := by
    funext i
    by_cases hi : i = n
    · subst hi
      simp [clusterTable]
    · simp only [Function.update_of_ne hi,clusterTable]
      congr 1
      exact propext ⟨fun h => by omega,fun h => by omega⟩
  have hfree : ((clusterTable n).cells n).key = (clusterTable n).emptyKey := by
    simp [clusterTable,new]
  rw [applyOp,emplace,safeCheck_pos (by simp [clusterTable,new]),hprobe]
  simp only [hfree,if_true,hcells]
  rfl

theorem cluster_run (n : Nat) (hn : n ≤ 128) :
    ∃ outs, runOut applyOp (new 0 (fun _ => 0) 0 7) (cluster n) = .ok (clusterTable n,outs) := by
  induction n with
  | zero => exact ⟨[],by simp [cluster,runOut_nil,clusterTable,new]⟩
  | succ n ih =>
    obtain ⟨outs,hrun⟩ := ih (by omega)
    refine ⟨outs ++ [true],?_⟩
    rw [cluster,List.range_succ,List.map_append]
    apply (runOut_append ..).mpr
    exact ⟨clusterTable n,outs,[true],hrun,(runOut_cons ..).mpr
      ⟨clusterTable (n + 1),true,[],clusterTable_emplace n (by omega),rfl,rfl⟩,rfl⟩

/-- The last of 65 keys with one home slot is stored, and `find` does not see it. -/
theorem find_misses_displaced_key :
    (∀ op ∈ cluster 65, op.key ≠ 0) ∧ LiveBelow (2 ^ 7) (cluster 65) ∧
      replay (cluster 65) 65 = some 65 ∧
      ∃ m outs, runOut applyOp (new 0 (fun _ => 0) 0 7) (cluster 65) = .ok (m,outs) ∧
        m.find 65 = .ok none := by
  obtain ⟨outs,hrun⟩ := cluster_run 65 (by omega)
  refine ⟨by decide,?_,by decide +kernel,clusterTable 65,outs,hrun,by decide +kernel⟩
  intro pre hpre
  exact (liveKeys_card_le pre).trans_lt (hpre.length_le.trans_lt (by decide))

end Aethon.SingleThreadHashMap
