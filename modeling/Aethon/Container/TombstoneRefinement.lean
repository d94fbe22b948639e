import Aethon.Container.LockFreeHashMap

/-!
# The lock-free hash map against a finite map

As long as no insertion of a live key meets a tombstone on the way to the cell of the key, the
table is the finite map of the operations. The first insertion that does takes the cell of the
tombstone and leaves the key in the table twice, and from then on the map law is broken.
-/

namespace Aethon.LockFreeHashMap

open Framework SingleThreadHashMap

variable {K V : Type}

section Ring

variable {m : LockFreeHashMap K V} {key : K}

theorem home_lt (m : LockFreeHashMap K V) (key : K) : m.home key < m.capacity := by
  obtain ⟨n,hn⟩ := m.capacity_pow
  rw [home,mask,and_mask_eq_mod m.capacity_pow]
  exact Nat.mod_lt _ (by rw [hn]; exact Nat.two_pow_pos n)

theorem next_iterate (m : LockFreeHashMap K V) (key : K) (d : Nat) (hd : d ≤ m.capacity) :
    m.next^[d] (m.home key) = wrap m.capacity (m.home key + d) :=
  mask_iterate m.capacity_pow (m.home_lt key) hd

theorem not_vacant_of_proper (hkey : m.Proper key) {p : Nat} (hp : (m.cells p).key = key) :
    ¬m.Vacant p := by
  rw [Vacant,hp]
  exact not_or.mpr hkey

end Ring

variable [DecidableEq K]

/-- On the probe path of `key`, a tombstone lies before a cell of `key`. -/
def Shadowed (m : LockFreeHashMap K V) (key : K) : Prop :=
  ∃ p < m.capacity, ∃ q < m.capacity, (m.cells p).key = m.tombstoneKey ∧ (m.cells q).key = key ∧
    ringDist m.capacity (m.home key) p < ringDist m.capacity (m.home key) q

instance (m : LockFreeHashMap K V) (key : K) : Decidable (m.Shadowed key) :=
  inferInstanceAs (Decidable (∃ p < _, ∃ q < _, _ ∧ _ ∧ _))

/-- The law of a finite map: every call answers as the map of the operations so far. -/
structure MapLaw (m : LockFreeHashMap K V) (ops : List (MapOp K V)) : Prop where
  find : ∀ key, m.Proper key → m.find key = .ok (replay ops key)
  get : ∀ key out, m.Proper key →
    m.get key out = .ok ((replay ops key).isSome,(replay ops key).getD out)
  erase : ∀ key, m.Proper key → ∃ m', m.erase key = .ok ((replay ops key).isSome,m')
  size : m.size = (liveKeys ops).card

/-- The table stores the map of the operations, each key once and reachable over cells that are
not empty. -/
structure Represents (m : LockFreeHashMap K V) (ops : List (MapOp K V)) : Prop where
  path : ∀ p q, p < m.capacity → q < m.capacity → ¬m.Vacant p →
    ringDist m.capacity (m.home (m.cells p).key) q <
      ringDist m.capacity (m.home (m.cells p).key) p → (m.cells q).key ≠ m.emptyKey
  distinct : ∀ p q, p < m.capacity → q < m.capacity → ¬m.Vacant p →
    (m.cells p).key = (m.cells q).key → p = q
  stored : ∀ key val, m.Proper key →
    ((∃ p < m.capacity, m.cells p = ⟨key,val⟩) ↔ replay ops key = some val)
  size_eq : m.size = (liveKeys ops).card

variable {m : LockFreeHashMap K V} {ops : List (MapOp K V)} {key : K}

theorem claim_eq_some (m : LockFreeHashMap K V) (key : K) (i : Nat) :
    m.claim key = some i ↔ i < m.capacity ∧ (m.Vacant i ∨ (m.cells i).key = key) ∧
      ∀ p, p < m.capacity →
        ringDist m.capacity (m.home key) p < ringDist m.capacity (m.home key) i →
          ¬m.Vacant p ∧ (m.cells p).key ≠ key := by
  rw [claim,probe_ring_eq_some (m.home_lt key) (m.next_iterate key)]
  simp only [not_or,not_false_eq_true,and_true,ne_eq]

/-- In a table of the map, the probe for a key ends at its cell. -/
theorem Represents.locate_eq_some (h : m.Represents ops) (hkey : m.Proper key) (i : Nat) :
    m.locate key = some i ↔ i < m.capacity ∧ (m.cells i).key = key := by
  rw [locate,probe_ring_eq_some (m.home_lt key) (m.next_iterate key)]
  constructor
  · rintro ⟨hi,hhit,_⟩
    exact ⟨hi,hhit⟩
  · rintro ⟨hi,rfl⟩
    have hlive := not_vacant_of_proper hkey rfl
    refine ⟨hi,rfl,?_⟩
    intro p hp hlt
    refine ⟨?_,h.path i p hi hp hlive hlt⟩
    intro hsame
    rw [h.distinct i p hi hp hlive hsame.symm] at hlt
    exact lt_irrefl _ hlt

theorem Represents.map_locate (h : m.Represents ops) (hkey : m.Proper key) :
    ((m.locate key).map fun idx => (m.cells idx).val) = replay ops key := by
  apply Option.ext
  intro val
  rw [Option.map_eq_some_iff,← h.stored key val hkey]
  constructor
  · rintro ⟨i,hi,rfl⟩
    obtain ⟨hlt,rfl⟩ := (h.locate_eq_some hkey i).mp hi
    exact ⟨i,hlt,rfl⟩
  · rintro ⟨i,hi,hcell⟩
    exact ⟨i,(h.locate_eq_some hkey i).mpr ⟨hi,by rw [hcell]⟩,by rw [hcell]⟩

theorem Represents.isSome_locate (h : m.Represents ops) (hkey : m.Proper key) :
    (m.locate key).isSome = (replay ops key).isSome := by
  rw [← h.map_locate hkey,Option.isSome_map]

theorem Represents.mapLaw (h : m.Represents ops) : m.MapLaw ops := by
  constructor
  · intro key hkey
    rw [find,safeCheck_pos hkey,← h.map_locate hkey]
    rfl
  · intro key out hkey
    rw [get,safeCheck_pos hkey,← h.map_locate hkey]
    cases m.locate key <;> rfl
  · intro key hkey
    rw [erase,safeCheck_pos hkey,← h.isSome_locate hkey]
    cases m.locate key <;> exact ⟨_,rfl⟩
  · exact h.size_eq

/-- A cell that is written with `key` keeps the table in order, if no other cell has the key and
the way to it crosses no empty cell. -/
theorem Represents.write (h : m.Represents ops) (hkey : m.Proper key) {i : Nat} (val : V)
    (hi : i < m.capacity) (hcell : m.Vacant i ∨ (m.cells i).key = key)
    (honly : ∀ p, p < m.capacity → (m.cells p).key = key → p = i)
    (hpath : ∀ p, p < m.capacity →
      ringDist m.capacity (m.home key) p < ringDist m.capacity (m.home key) i →
        (m.cells p).key ≠ m.emptyKey) {size : Nat}
    (hsize : size = (insert key (liveKeys ops)).card) :
    Represents { m with cells := Function.update m.cells i ⟨key,val⟩, size := size }
      (ops ++ [.emplace key val]) := by
  have hat : Function.update m.cells i ⟨key,val⟩ i = ⟨key,val⟩ := Function.update_self ..
  have hoff : ∀ {p}, p ≠ i → Function.update m.cells i ⟨key,val⟩ p = m.cells p :=
    fun hp => Function.update_of_ne hp ..
  constructor
  · intro p q hp hq hlive hlt
    dsimp only [Vacant,home,mask] at hlive hlt ⊢
    by_cases hqi : q = i
    · rw [hqi,hat]
      exact hkey.1
    · rw [hoff hqi]
      by_cases hpi : p = i
      · rw [hpi,hat] at hlt
        exact hpath q hq hlt
      · rw [hoff hpi] at hlive hlt
        exact h.path p q hp hq hlive hlt
  · intro p q hp hq hlive hsame
    dsimp only [Vacant] at hlive hsame
    by_cases hpi : p = i
    · by_cases hqi : q = i
      · rw [hpi,hqi]
      · rw [hpi,hat,hoff hqi] at hsame
        rw [hpi,honly q hq hsame.symm]
    · by_cases hqi : q = i
      · rw [hqi,hat,hoff hpi] at hsame
        rw [hqi,honly p hp hsame]
      · rw [hoff hpi] at hlive
        rw [hoff hpi,hoff hqi] at hsame
        exact h.distinct p q hp hq hlive hsame
  · intro k v hk
    change m.Proper k at hk
    dsimp only
    rw [replay_emplace]
    by_cases hkk : k = key
    · subst hkk
      rw [Function.update_self,Option.some.injEq]
      constructor
      · rintro ⟨p,hp,hpc⟩
        by_cases hpi : p = i
        · rw [hpi,hat] at hpc
          exact congrArg Cell.val hpc
        · rw [hoff hpi] at hpc
          exact absurd (honly p hp (by rw [hpc])) hpi
      · rintro rfl
        exact ⟨i,hi,hat⟩
    · rw [Function.update_of_ne hkk,← h.stored k v hk]
      constructor
      · rintro ⟨p,hp,hpc⟩
        by_cases hpi : p = i
        · rw [hpi,hat] at hpc
          exact absurd (congrArg Cell.key hpc).symm hkk
        · rw [hoff hpi] at hpc
          exact ⟨p,hp,hpc⟩
      · rintro ⟨p,hp,hpc⟩
        have hpi : p ≠ i := by
          rintro rfl
          rcases hcell with hvacant | hsame
          · exact not_vacant_of_proper hk (by rw [hpc]) hvacant
          · rw [hpc] at hsame
            exact hkk hsame
        exact ⟨p,hp,(hoff hpi).trans hpc⟩
  · rw [liveKeys_emplace]
    exact hsize

/-- A cell whose key is replaced by a tombstone. -/
theorem Represents.bury (h : m.Represents ops) (hkey : m.Proper key) {i : Nat}
    (hi : i < m.capacity) (hcell : (m.cells i).key = key) {size : Nat} (val : V)
    (hsize : size = ((liveKeys ops).erase key).card) :
    Represents { m with cells := Function.update m.cells i ⟨m.tombstoneKey,val⟩, size := size }
      (ops ++ [.erase key]) := by
  have hat : Function.update m.cells i ⟨m.tombstoneKey,val⟩ i = ⟨m.tombstoneKey,val⟩ :=
    Function.update_self ..
  have hoff : ∀ {p}, p ≠ i → Function.update m.cells i ⟨m.tombstoneKey,val⟩ p = m.cells p :=
    fun hp => Function.update_of_ne hp ..
  have hother : ∀ {p}, ¬((Function.update m.cells i ⟨m.tombstoneKey,val⟩ p).key = m.emptyKey ∨
      (Function.update m.cells i ⟨m.tombstoneKey,val⟩ p).key = m.tombstoneKey) → p ≠ i := by
    rintro p hlive rfl
    rw [hat] at hlive
    exact hlive (.inr rfl)
  constructor
  · intro p q hp hq hlive hlt
    dsimp only [Vacant,home,mask] at hlive hlt ⊢
    have hpi := hother hlive
    rw [hoff hpi] at hlive hlt
    by_cases hqi : q = i
    · rw [hqi,hat]
      exact m.sentinels_ne.symm
    · rw [hoff hqi]
      exact h.path p q hp hq hlive hlt
  · intro p q hp hq hlive hsame
    dsimp only [Vacant] at hlive hsame
    have hpi := hother hlive
    rw [hoff hpi] at hlive hsame
    by_cases hqi : q = i
    · rw [hqi,hat] at hsame
      exact absurd (.inr hsame) hlive
    · rw [hoff hqi] at hsame
      exact h.distinct p q hp hq hlive hsame
  · intro k v hk
    change m.Proper k at hk
    dsimp only
    rw [replay_erase]
    by_cases hkk : k = key
    · subst hkk
      rw [Function.update_self]
      constructor
      · rintro ⟨p,hp,hpc⟩
        by_cases hpi : p = i
        · rw [hpi,hat] at hpc
          exact absurd (congrArg Cell.key hpc).symm hk.2
        · rw [hoff hpi] at hpc
          have hsame : (m.cells i).key = (m.cells p).key := by rw [hcell,hpc]
          exact absurd (h.distinct i p hi hp (not_vacant_of_proper hk hcell) hsame).symm hpi
      · intro hnone
        cases hnone
    · rw [Function.update_of_ne hkk,← h.stored k v hk]
      constructor
      · rintro ⟨p,hp,hpc⟩
        by_cases hpi : p = i
        · rw [hpi,hat] at hpc
          exact absurd (congrArg Cell.key hpc).symm hk.2
        · rw [hoff hpi] at hpc
          exact ⟨p,hp,hpc⟩
      · rintro ⟨p,hp,hpc⟩
        have hpi : p ≠ i := by
          rintro rfl
          rw [hpc] at hcell
          exact hkk hcell
        exact ⟨p,hp,(hoff hpi).trans hpc⟩
  · rw [liveKeys_erase]
    exact hsize

/-- Fewer live keys than cells leave a cell for an insertion. -/
theorem Represents.exists_claim (h : m.Represents ops) (hroom : (liveKeys ops).card < m.capacity)
    (key : K) : ∃ i, m.claim key = some i := by
  by_contra hnone
  have hclaim : m.claim key = none :=
    Option.eq_none_iff_forall_ne_some.mpr fun i hi => hnone ⟨i,hi⟩
  have hfull : ∀ p, p < m.capacity → ¬m.Vacant p := by
    intro p hp hvacant
    exact not_hit_of_probe_ring (m.home_lt key) (m.next_iterate key) hclaim p hp (.inl hvacant)
  have hcard : (Finset.range m.capacity).card ≤ (liveKeys ops).card := by
    apply Finset.card_le_card_of_injOn fun p => (m.cells p).key
    · intro p hp
      have hlt := Finset.mem_range.mp hp
      have hproper : m.Proper (m.cells p).key := not_or.mp (hfull p hlt)
      rw [Finset.mem_coe,mem_liveKeys,
        (h.stored _ (m.cells p).val hproper).mp ⟨p,hlt,rfl⟩]
      rfl
    · intro p hp q hq hsame
      have hlt := Finset.mem_range.mp hp
      exact h.distinct p q hlt (Finset.mem_range.mp hq) (hfull p hlt) hsame
  rw [Finset.card_range] at hcard
  omega

theorem Represents.mem_liveKeys_iff (h : m.Represents ops) (hkey : m.Proper key) :
    key ∈ liveKeys ops ↔ ∃ p < m.capacity, (m.cells p).key = key := by
  rw [mem_liveKeys,Option.isSome_iff_exists]
  constructor
  · rintro ⟨val,hval⟩
    obtain ⟨p,hp,hcell⟩ := (h.stored key val hkey).mpr hval
    exact ⟨p,hp,by rw [hcell]⟩
  · rintro ⟨p,hp,rfl⟩
    exact ⟨(m.cells p).val,(h.stored _ _ hkey).mp ⟨p,hp,rfl⟩⟩

/-- The tables have the same sentinels and the same capacity. -/
def SameShape (m m' : LockFreeHashMap K V) : Prop :=
  m'.emptyKey = m.emptyKey ∧ m'.tombstoneKey = m.tombstoneKey ∧ m'.capacity = m.capacity

/-- An insertion keeps the table in order unless a tombstone shadows the key; then the key gets a
second cell and is counted twice. -/
theorem Represents.emplace_cases (h : m.Represents ops) (hkey : m.Proper key) (val : V)
    (hroom : (liveKeys ops).card < m.capacity) :
    ∃ b m', m.applyOp (.emplace key val) = .ok (m',b) ∧ m.SameShape m' ∧
      (¬m.Shadowed key ∧ m'.Represents (ops ++ [.emplace key val]) ∨
        m.Shadowed key ∧ m'.size ≠ (liveKeys (ops ++ [.emplace key val])).card) := by
  obtain ⟨i,hclaim⟩ := h.exists_claim hroom key
  obtain ⟨hi,hcell,hbefore⟩ := (m.claim_eq_some key i).mp hclaim
  have hpath : ∀ p, p < m.capacity →
      ringDist m.capacity (m.home key) p < ringDist m.capacity (m.home key) i →
        (m.cells p).key ≠ m.emptyKey :=
    fun p hp hlt hempty => (hbefore p hp hlt).1 (.inl hempty)
  by_cases hvacant : m.Vacant i
  · have hrun : m.applyOp (.emplace key val) = .ok ({ m with
        cells := Function.update m.cells i ⟨key,val⟩
        size := m.size + 1 },true) := by
      simp only [applyOp,emplace,safeCheck_pos hkey,hclaim,if_pos hvacant]
      rfl
    refine ⟨_,_,hrun,⟨rfl,rfl,rfl⟩,?_⟩
    by_cases hlive : key ∈ liveKeys ops
    · obtain ⟨q,hq,hqk⟩ := (h.mem_liveKeys_iff hkey).mp hlive
      have hliveq := not_vacant_of_proper hkey hqk
      have hlt : ringDist m.capacity (m.home key) i < ringDist m.capacity (m.home key) q := by
        rcases Nat.lt_trichotomy (ringDist m.capacity (m.home key) i)
          (ringDist m.capacity (m.home key) q) with hlt | heq | hgt
        · exact hlt
        · rw [ringDist_inj _ _ _ _ (m.home_lt key) hi hq heq] at hvacant
          exact absurd hvacant hliveq
        · exact absurd hqk (hbefore q hq hgt).2
      have hnonempty : (m.cells i).key ≠ m.emptyKey := by
        subst hqk
        exact h.path q i hq hi hliveq hlt
      right
      refine ⟨⟨i,hi,q,hq,hvacant.resolve_left hnonempty,hqk,hlt⟩,?_⟩
      rw [liveKeys_emplace,Finset.insert_eq_of_mem hlive,← h.size_eq]
      exact Nat.succ_ne_self m.size
    · have habsent : ∀ p, p < m.capacity → (m.cells p).key ≠ key :=
        fun p hp hpk => hlive ((h.mem_liveKeys_iff hkey).mpr ⟨p,hp,hpk⟩)
      left
      refine ⟨?_,h.write hkey val hi hcell (fun p hp hpk => absurd hpk (habsent p hp)) hpath ?_⟩
      · rintro ⟨_,_,q,hq,_,hqk,_⟩
        exact habsent q hq hqk
      · rw [Finset.card_insert_of_notMem hlive,h.size_eq]
  · have hik := hcell.resolve_left hvacant
    have hlive := (h.mem_liveKeys_iff hkey).mpr ⟨i,hi,hik⟩
    have honly : ∀ p, p < m.capacity → (m.cells p).key = key → p = i :=
      fun p hp hpk => (h.distinct i p hi hp hvacant (hik.trans hpk.symm)).symm
    have hrun : m.applyOp (.emplace key val) = .ok ({ m with
        cells := Function.update m.cells i ⟨key,val⟩ },false) := by
      simp only [applyOp,emplace,safeCheck_pos hkey,hclaim,if_neg hvacant,hik]
      rfl
    refine ⟨_,_,hrun,⟨rfl,rfl,rfl⟩,.inl ⟨?_,h.write hkey val hi hcell honly hpath ?_⟩⟩
    · rintro ⟨p,hp,q,hq,hpt,hqk,hlt⟩
      rw [honly q hq hqk] at hlt
      exact (hbefore p hp hlt).1 (.inr hpt)
    · rw [Finset.insert_eq_of_mem hlive,h.size_eq]

theorem Represents.erase (h : m.Represents ops) (hkey : m.Proper key) :
    ∃ b m', m.applyOp (.erase key) = .ok (m',b) ∧ m.SameShape m' ∧
      m'.Represents (ops ++ [.erase key]) := by
  cases hloc : m.locate key with
  | none =>
    have habsent : replay ops key = none := by
      rw [← Option.not_isSome_iff_eq_none,← h.isSome_locate hkey,hloc]
      exact Bool.false_ne_true
    have hdead : key ∉ liveKeys ops := by
      rw [mem_liveKeys,habsent]
      exact Bool.false_ne_true
    have hrun : m.applyOp (.erase key) = .ok (m,false) := by
      simp only [applyOp,LockFreeHashMap.erase,safeCheck_pos hkey,hloc]
      rfl
    refine ⟨_,_,hrun,⟨rfl,rfl,rfl⟩,h.path,h.distinct,?_,?_⟩
    · rw [replay_erase,Function.update_eq_self_iff.mpr habsent.symm]
      exact h.stored
    · rw [liveKeys_erase,Finset.erase_eq_of_notMem hdead]
      exact h.size_eq
  | some i =>
    obtain ⟨hi,hik⟩ := (h.locate_eq_some hkey i).mp hloc
    have hlive := (h.mem_liveKeys_iff hkey).mpr ⟨i,hi,hik⟩
    have hrun : m.applyOp (.erase key) = .ok ({ m with
        cells := Function.update m.cells i ⟨m.tombstoneKey,(m.cells i).val⟩
        size := m.size - 1 },true) := by
      simp only [applyOp,LockFreeHashMap.erase,safeCheck_pos hkey,hloc]
      rfl
    refine ⟨_,_,hrun,⟨rfl,rfl,rfl⟩,h.bury hkey hi hik _ ?_⟩
    rw [Finset.card_erase_of_mem hlive,h.size_eq]

/-- The update inserts a key that is shadowed. -/
def Reuses (m : LockFreeHashMap K V) : MapOp K V → Prop
  | .emplace key _ => m.Shadowed key
  | .erase _ => False

instance (m : LockFreeHashMap K V) (op : MapOp K V) : Decidable (m.Reuses op) :=
  match op with
  | .emplace key _ => inferInstanceAs (Decidable (m.Shadowed key))
  | .erase _ => instDecidableFalse

/-- What an update does to a table in order. -/
theorem Represents.applyOp_cases (h : m.Represents ops) {op : MapOp K V} (hkey : m.Proper op.key)
    (hroom : (liveKeys ops).card < m.capacity) :
    ∃ b m', m.applyOp op = .ok (m',b) ∧ m.SameShape m' ∧
      (¬m.Reuses op ∧ m'.Represents (ops ++ [op]) ∨
        m.Reuses op ∧ m'.size ≠ (liveKeys (ops ++ [op])).card) := by
  cases op with
  | emplace key val => exact h.emplace_cases hkey val hroom
  | erase key =>
    obtain ⟨b,m',hrun,hshape,hrep⟩ := h.erase hkey
    exact ⟨b,m',hrun,hshape,.inl ⟨id,hrep⟩⟩

section Run

variable (emptyKey tombstoneKey : K) (hsentinels : emptyKey ≠ tombstoneKey) (hasher : K → Nat)
  (emptyVal : V) (n : Nat)

theorem new_represents :
    (new emptyKey tombstoneKey hsentinels hasher emptyVal n).Represents [] := by
  constructor
  · intro p q _ _ hlive
    exact absurd (.inl rfl) hlive
  · intro p q _ _ hlive
    exact absurd (.inl rfl) hlive
  · intro key val hkey
    constructor
    · rintro ⟨p,_,hcell⟩
      exact absurd (congrArg Cell.key hcell).symm hkey.1
    · intro hnone
      cases hnone
  · rfl

/-- One more update after a run that leaves the table in order. -/
theorem Represents.run_concat {op : MapOp K V} {outs : List Bool} (h : m.Represents ops)
    (hrun : runOut applyOp (new emptyKey tombstoneKey hsentinels hasher emptyVal n) ops =
      .ok (m,outs))
    (hshape : (new emptyKey tombstoneKey hsentinels hasher emptyVal n).SameShape m)
    (hkey : op.key ≠ emptyKey ∧ op.key ≠ tombstoneKey)
    (hroom : (liveKeys ops).card < 2 ^ n) :
    ∃ b m', runOut applyOp (new emptyKey tombstoneKey hsentinels hasher emptyVal n)
        (ops ++ [op]) = .ok (m',outs ++ [b]) ∧
      (new emptyKey tombstoneKey hsentinels hasher emptyVal n).SameShape m' ∧
      (¬m.Reuses op ∧ m'.Represents (ops ++ [op]) ∨
        m.Reuses op ∧ m'.size ≠ (liveKeys (ops ++ [op])).card) := by
  obtain ⟨hempty,htomb,hcap⟩ := hshape
  have hproper : m.Proper op.key := by
    rw [Proper,hempty,htomb]
    exact hkey
  obtain ⟨b,m',hop,⟨hempty',htomb',hcap'⟩,hcases⟩ :=
    h.applyOp_cases hproper (by rw [hcap]; exact hroom)
  refine ⟨b,m',?_,⟨hempty'.trans hempty,htomb'.trans htomb,hcap'.trans hcap⟩,hcases⟩
  exact (runOut_append ..).mpr
    ⟨m,outs,[b],hrun,(runOut_cons ..).mpr ⟨m',b,[],hop,rfl,rfl⟩,rfl⟩

/-- A run without an insertion of a shadowed key succeeds and leaves the table in order. -/
theorem run_represents (ops : List (MapOp K V))
    (hkeys : ∀ op ∈ ops, op.key ≠ emptyKey ∧ op.key ≠ tombstoneKey)
    (hlive : LiveBelow (2 ^ n) ops)
    (h : During (fun (m : LockFreeHashMap K V) _ op => ¬m.Reuses op) applyOp
      (new emptyKey tombstoneKey hsentinels hasher emptyVal n) ops) :
    ∃ m outs, runOut applyOp (new emptyKey tombstoneKey hsentinels hasher emptyVal n) ops =
        .ok (m,outs) ∧
      (new emptyKey tombstoneKey hsentinels hasher emptyVal n).SameShape m ∧
      m.Represents ops := by
  induction ops using List.reverseRecOn with
  | nil => exact ⟨_,[],rfl,⟨rfl,rfl,rfl⟩,new_represents ..⟩
  | append_singleton ops op ih =>
    obtain ⟨m,outs,hrun,hshape,hrep⟩ := ih (fun o ho => hkeys o (by simp [ho]))
      (fun pre hpre => hlive pre (hpre.trans (List.prefix_append ..))) h.left
    obtain ⟨b,m',hrun',hshape',hcases⟩ := hrep.run_concat emptyKey tombstoneKey hsentinels hasher
      emptyVal n hrun hshape (hkeys op (by simp)) (hlive ops (List.prefix_append ..))
    rcases hcases with ⟨_,hrep'⟩ | ⟨hreuse,_⟩
    · exact ⟨m',_,hrun',hshape',hrep'⟩
    · exact absurd hreuse (h ops op [] m outs rfl hrun)

/-- The map law holds after every part of a run exactly if no insertion of the run is of a key
that a tombstone shadows. -/
theorem map_law_iff (ops : List (MapOp K V))
    (hkeys : ∀ op ∈ ops, op.key ≠ emptyKey ∧ op.key ≠ tombstoneKey)
    (hlive : LiveBelow (2 ^ n) ops) :
    (∀ pre, pre <+: ops → ∃ m outs,
      runOut applyOp (new emptyKey tombstoneKey hsentinels hasher emptyVal n) pre =
        .ok (m,outs) ∧ m.MapLaw pre) ↔
    During (fun (m : LockFreeHashMap K V) _ op => ¬m.Reuses op) applyOp
      (new emptyKey tombstoneKey hsentinels hasher emptyVal n) ops := by
  constructor
  · intro hlaw
    induction ops using List.reverseRecOn with
    | nil =>
      intro before a after t bs heq
      exact absurd heq (by simp)
    | append_singleton ops op ih =>
      have hprefix : ops <+: ops ++ [op] := List.prefix_append ..
      have hkeys' : ∀ o ∈ ops, o.key ≠ emptyKey ∧ o.key ≠ tombstoneKey :=
        fun o ho => hkeys o (by simp [ho])
      have hlive' : LiveBelow (2 ^ n) ops := fun pre hpre => hlive pre (hpre.trans hprefix)
      have hduring := ih hkeys' hlive' fun pre hpre => hlaw pre (hpre.trans hprefix)
      obtain ⟨m,outs,hrun,hshape,hrep⟩ := run_represents emptyKey tombstoneKey hsentinels hasher
        emptyVal n ops hkeys' hlive' hduring
      obtain ⟨b,m',hrun',_,hcases⟩ := hrep.run_concat emptyKey tombstoneKey hsentinels hasher
        emptyVal n hrun hshape (hkeys op (by simp)) (hlive ops hprefix)
      obtain ⟨m'',outs',hrun'',hmap⟩ := hlaw (ops ++ [op]) (List.prefix_refl _)
      rw [hrun'] at hrun''
      cases hrun''
      rcases hcases with ⟨hfresh,_⟩ | ⟨_,hsize⟩
      · exact hduring.snoc hrun hfresh
      · exact absurd hmap.size hsize
  · rintro hduring pre ⟨rest,rfl⟩
    obtain ⟨m,outs,hrun,_,hrep⟩ := run_represents emptyKey tombstoneKey hsentinels hasher emptyVal n
      pre (fun o ho => hkeys o (by simp [ho]))
      (fun first hfirst => hlive first (hfirst.trans (List.prefix_append ..))) hduring.left
    exact ⟨m,outs,hrun,hrep.mapLaw⟩

end Run

section Sample

/-- The default sentinels of a 64-bit key. -/
theorem defaultSentinels_ne : (0 : Nat) ≠ 18446744073709551615 := by decide

/-- Four cells, keys hashed to themselves: the keys `1` and `5` have one home. -/
def fourCells : LockFreeHashMap Nat Nat :=
  new 0 18446744073709551615 defaultSentinels_ne (fun key => key) 0 2

/-- The erased key is the last of its cluster, so its tombstone shadows nothing. -/
def tailOps : List (MapOp Nat Nat) := [.emplace 1 10,.emplace 5 50,.erase 5,.emplace 1 11]

theorem map_law_iff_tail :
    ∃ m outs, runOut applyOp fourCells tailOps = .ok (m,outs) ∧ m.MapLaw tailOps := by
  have hbelow : ∀ pre ∈ tailOps.inits, (liveKeys pre).card < 4 := by decide
  have hfresh : During (fun (m : LockFreeHashMap Nat Nat) _ op => ¬m.Reuses op) applyOp fourCells
      tailOps := During.of_check (by decide)
  have hlaw := (map_law_iff 0 18446744073709551615 defaultSentinels_ne (fun key => key) 0 2 tailOps
    (by decide) fun pre hpre => hbelow pre ((List.mem_inits ..).mpr hpre)).mpr hfresh
  exact hlaw tailOps (List.prefix_refl _)

/-- The key `1` is erased from the cell before that of `5`, and `5` is inserted again. -/
def headOps : List (MapOp Nat Nat) :=
  [.emplace 1 10,.emplace 5 50,.erase 1,.emplace 5 51,.erase 5]

/-- After its last erasure the key `5` is still found, with the value of its first insertion, and
counted. -/
theorem erased_key_found :
    (∀ op ∈ headOps, op.key ≠ 0 ∧ op.key ≠ 18446744073709551615) ∧ LiveBelow 4 headOps ∧
    ∃ m outs, runOut applyOp fourCells headOps = .ok (m,outs) ∧
      m.find 5 = .ok (some 50) ∧ replay headOps 5 = none ∧
      m.size = 1 ∧ liveKeys headOps = ∅ := by
  refine ⟨by decide,?_,_,_,rfl,rfl,rfl,rfl,rfl⟩
  have hbelow : ∀ pre ∈ headOps.inits, (liveKeys pre).card < 4 := by decide
  exact fun pre hpre => hbelow pre ((List.mem_inits ..).mpr hpre)

end Sample

end Aethon.LockFreeHashMap
