import Aethon.Container.OwnedTable
import Aethon.Container.Refill

/-!
# A walk that deletes

Both assembler engines drop expired sessions by a walk over the cells of their table. A deletion
moves another session into the cell that the walk is at, and the walk goes on behind it. What
one visit does is said once; the engines supply their loop.
-/

namespace Aethon.SingleThreadHashMap

open Framework

variable {K α : Type} [DecidableEq K]

/-- Cell `i` holds the object `a`. -/
def At (m : SingleThreadHashMap K Nat) (heap : Heap α) (i : Nat) (a : α) : Prop :=
  (m.cells i).key ≠ m.emptyKey ∧ heap.mem (m.cells i).val = some a

/-- The table holds the object `a` under a key. -/
def HoldsObject (m : SingleThreadHashMap K Nat) (heap : Heap α) (key : K) (a : α) : Prop :=
  ∃ p, m.Stored key p ∧ heap.mem p = some a

/-- One visit of cell `i`: an expired object there is deleted together with its key. -/
inductive Visits (expired : α → Prop) (m : SingleThreadHashMap K Nat) (heap : Heap α) (i : Nat) :
    SingleThreadHashMap K Nat → Heap α → Prop where
  | kept (h : ∀ a, m.At heap i a → ¬expired a) : Visits expired m heap i m heap
  | dropped {a : α} {b : Bool} {m' : SingleThreadHashMap K Nat} (hat : m.At heap i a)
      (hexpired : expired a) (herase : m.erase (m.cells i).key = .ok (b,m')) :
      Visits expired m heap i m' (heap.free (m.cells i).val)

/-- If the object of cell `i` is expired, the one that moves into its place is not. -/
def NoneFollows (expired : α → Prop) (m : SingleThreadHashMap K Nat) (heap : Heap α)
    (i : Nat) : Prop :=
  ∀ a, m.At heap i a → expired a → ∀ j, m.Follows i j → ∀ a', m.At heap j a' → ¬expired a'

/-- No cell in front of `n` holds an expired object. -/
def CleanTo (expired : α → Prop) (m : SingleThreadHashMap K Nat) (heap : Heap α) (n : Nat) : Prop :=
  ∀ p < n, ∀ a, m.At heap p a → ¬expired a

/-- The probe path of no expired object leads over the end of the table. -/
def NoWrap (expired : α → Prop) (m : SingleThreadHashMap K Nat) (heap : Heap α) : Prop :=
  ∀ p < m.capacity, ∀ a, m.At heap p a → expired a → m.home (m.cells p).key ≤ p

section Visit

variable {bound : Nat} {m m' : SingleThreadHashMap K Nat} {heap heap' : Heap α} {I : K → α → Prop}
  {expired : α → Prop} {i : Nat}

theorem At.stored {p : Nat} {a : α} (h : m.At heap p a) (hp : p < m.capacity) :
    m.Stored (m.cells p).key (m.cells p).val := ⟨p,hp,(entry_eq_some ..).mpr ⟨h.1,rfl⟩⟩

theorem exists_at {key : K} {a : α} (h : m.HoldsObject heap key a) :
    ∃ p < m.capacity, (m.cells p).key = key ∧ m.At heap p a := by
  obtain ⟨v,⟨p,hp,he⟩,ha⟩ := h
  obtain ⟨hne,hkv⟩ := (entry_eq_some ..).mp he
  obtain ⟨rfl,rfl⟩ := Prod.mk.inj hkv
  exact ⟨p,hp,rfl,hne,ha⟩

theorem visits_skipped (h : (m.cells i).key = m.emptyKey ∨ (m.cells i).val = 0) :
    Visits expired m heap i m heap := by
  refine Visits.kept ?_
  rintro a ⟨hne,ha⟩
  rcases h with hempty | hnull
  · exact absurd hempty hne
  · rw [hnull,heap.null] at ha
    cases ha

theorem visits_live {a : α} (ha : heap.mem (m.cells i).val = some a) (hlive : ¬expired a) :
    Visits expired m heap i m heap := by
  refine Visits.kept ?_
  rintro b ⟨_,hb⟩
  rw [ha] at hb
  cases hb
  exact hlive

theorem Owns.visit (h : Owns bound m heap I) (hi : i < m.capacity)
    (hv : Visits expired m heap i m' heap') :
    Owns bound m' heap' I ∧ m.SameShape m' := by
  cases hv with
  | kept => exact ⟨h,rfl,rfl,rfl⟩
  | dropped hat _ herase =>
    obtain ⟨b',m'',he,hshape,_,ho⟩ := h.erase_free (hat.stored hi)
    rw [herase] at he
    cases he
    exact ⟨ho,hshape⟩

/-- A visit drops nothing but an expired object. -/
theorem Owns.visit_holds (h : Owns bound m heap I) (hi : i < m.capacity)
    (hv : Visits expired m heap i m' heap') (key : K) (a : α) :
    (m'.HoldsObject heap' key a → m.HoldsObject heap key a) ∧
      (m.HoldsObject heap key a → ¬expired a → m'.HoldsObject heap' key a) := by
  cases hv with
  | kept => exact ⟨id,fun hm _ => hm⟩
  | @dropped a₀ b m' hat hexpired herase =>
    have hst := hat.stored hi
    obtain ⟨b',m'',he,_,hiff,_⟩ := h.erase_free hst
    rw [herase] at he
    cases he
    constructor
    · rintro ⟨p,hp,ha⟩
      have hp' := (hiff key p).mp hp
      refine ⟨p,hp'.2,?_⟩
      rwa [heap.free_mem_of_ne] at ha
      rintro rfl
      exact hp'.1 (h.inj _ _ _ hp'.2 hst)
    · rintro ⟨p,hp,ha⟩ hlive
      have hne : key ≠ (m.cells i).key := by
        rintro rfl
        have hpe := h.wf.stored_unique hp hst
        rw [hpe,hat.2] at ha
        cases ha
        exact hlive hexpired
      refine ⟨p,(hiff key p).mpr ⟨hne,hp⟩,?_⟩
      rw [heap.free_mem_of_ne]
      · exact ha
      · rintro rfl
        exact hne (h.inj _ _ _ hp hst)

/-- The objects of a table after a deletion, by their cells. -/
theorem Owns.erase_at (h : Owns bound m heap I) (hi : i < m.capacity) {a₀ : α} {b : Bool}
    (hat : m.At heap i a₀) (herase : m.erase (m.cells i).key = .ok (b,m')) :
    (∀ a, m'.At (heap.free (m.cells i).val) i a ↔ ∃ j, m.Follows i j ∧ m.At heap j a) ∧
      ∀ p a, p < m.capacity → m'.At (heap.free (m.cells i).val) p a →
        ∃ q < m.capacity, (m.cells q).key = (m'.cells p).key ∧ m.At heap q a ∧
          ringDist m.capacity i p ≤ ringDist m.capacity i q := by
  have hst := hat.stored hi
  obtain ⟨hcell,hback⟩ := h.wf.erase_refill h.size_lt hi hat.1 herase
  obtain ⟨b',m'',he,hshape,hiff,_⟩ := h.erase_free hst
  rw [herase] at he
  cases he
  have hentry : ∀ p a, p < m.capacity → m'.At (heap.free (m.cells i).val) p a →
      m'.entries m'.cells p = some ((m'.cells p).key,(m'.cells p).val) ∧
        heap.mem (m'.cells p).val = some a := by
    intro p a hp hm
    have hst' := hm.stored (hshape.2.2 ▸ hp)
    have hold := (hiff _ _).mp hst'
    refine ⟨(entry_eq_some ..).mpr ⟨hm.1,rfl⟩,?_⟩
    have ha := hm.2
    rwa [heap.free_mem_of_ne] at ha
    intro heq
    exact hold.1 (h.inj _ _ _ hold.2 (heq ▸ hst))
  have hfrom : ∀ p q, m.entries m.cells q = some ((m'.cells p).key,(m'.cells p).val) →
      (m.cells q).key = (m'.cells p).key ∧ ∀ a, heap.mem (m'.cells p).val = some a →
        m.At heap q a := by
    intro p q hq
    obtain ⟨hne,hkv⟩ := (entry_eq_some ..).mp hq
    obtain ⟨hk,hv⟩ := Prod.mk.inj hkv
    exact ⟨hk.symm,fun a ha => ⟨hne,hv ▸ ha⟩⟩
  constructor
  · intro a
    constructor
    · intro hm
      obtain ⟨hent,ha⟩ := hentry i a hi hm
      obtain ⟨j,hj,hq⟩ := (hcell _).mp hent
      exact ⟨j,hj,(hfrom i j hq).2 a ha⟩
    · rintro ⟨j,hj,hne,ha⟩
      have hent := (hcell _).mpr ⟨j,hj,(entry_eq_some ..).mpr ⟨hne,rfl⟩⟩
      obtain ⟨hne',hkv⟩ := (entry_eq_some ..).mp hent
      obtain ⟨_,hv⟩ := Prod.mk.inj hkv
      refine ⟨hne',?_⟩
      rw [← hv,heap.free_mem_of_ne]
      · exact ha
      · intro heq
        have hstj : m.Stored (m.cells j).key (m.cells j).val :=
          ⟨j,hj.lt,(entry_eq_some ..).mpr ⟨hne,rfl⟩⟩
        have hkey := h.inj _ _ _ (heq ▸ hstj) hst
        exact hj.ne (h.wf.distinct j i _ _ hj.lt hi ((entry_eq_some ..).mpr ⟨hne,rfl⟩)
          ((entry_eq_some ..).mpr ⟨hat.1,rfl⟩) hkey)
  · intro p a hp hm
    obtain ⟨hent,ha⟩ := hentry p a hp hm
    obtain ⟨q,hq,hqe,hle⟩ := hback p _ hp hent
    obtain ⟨hk,hat'⟩ := hfrom p q hqe
    exact ⟨q,hq,hk,hat' a ha,hle⟩

/-- A visit leaves the cells behind it clean if and only if no expired object moves into its
cell. -/
theorem Owns.visit_clean (h : Owns bound m heap I) (hi : i < m.capacity)
    (hv : Visits expired m heap i m' heap') (hclean : CleanTo expired m heap i) :
    CleanTo expired m' heap' (i + 1) ↔ NoneFollows expired m heap i := by
  cases hv with
  | kept hkept =>
    refine iff_of_true ?_ fun a ha hexp => absurd hexp (hkept a ha)
    intro p hp a ha
    rcases Nat.lt_succ_iff_lt_or_eq.mp hp with hlt | rfl
    · exact hclean p hlt a ha
    · exact hkept a ha
  | @dropped a₀ b m' hat hexpired herase =>
    obtain ⟨hcell,hback⟩ := h.erase_at hi hat herase
    constructor
    · intro hafter a _ _ j hj a' ha'
      exact hafter i (Nat.lt_succ_self i) a' ((hcell a').mpr ⟨j,hj,ha'⟩)
    · intro hnone p hp a ha
      rcases Nat.lt_succ_iff_lt_or_eq.mp hp with hlt | rfl
      · obtain ⟨q,hq,_,haq,hle⟩ := hback p a (by omega) ha
        refine hclean q ?_ a haq
        unfold ringDist at hle
        split_ifs at hle <;> omega
      · obtain ⟨j,hj,haj⟩ := (hcell a).mp ha
        exact hnone a₀ hat hexpired j hj a haj

/-- An expired object whose path does not lead over the end of the table moves towards its start
only. -/
theorem Owns.visit_noWrap (h : Owns bound m heap I) (hi : i < m.capacity)
    (hv : Visits expired m heap i m' heap') (hwrap : NoWrap expired m heap) :
    NoWrap expired m' heap' ∧
      ∀ p < i, ∀ a, m.At heap p a → expired a → ∃ p' ≤ p, m'.At heap' p' a := by
  cases hv with
  | kept => exact ⟨hwrap,fun p _ a ha _ => ⟨p,le_rfl,ha⟩⟩
  | @dropped a₀ b m' hat hexpired herase =>
    have hst := hat.stored hi
    obtain ⟨_,hback⟩ := h.erase_at hi hat herase
    obtain ⟨b',m'',he,hshape,hiff,_⟩ := h.erase_free hst
    rw [herase] at he
    cases he
    have hmoved : ∀ p q a, p < m.capacity → q < m.capacity → (m'.cells p).key ≠ m'.emptyKey →
        (m.cells q).key = (m'.cells p).key → m.At heap q a → expired a →
        m.home (m'.cells p).key ≤ p ∧ p ≤ q := by
      intro p q a hp hq hne hkey haq hexp
      obtain ⟨q',hq',he',hle⟩ := h.wf.erase_closer h.size_lt herase hp
        ((entry_eq_some ..).mpr ⟨hne,rfl⟩)
      have hqq : q = q' :=
        h.wf.distinct q q' _ _ hq hq' ((entry_eq_some ..).mpr ⟨haq.1,rfl⟩) he' hkey
      subst hqq
      have hq0 := hwrap q hq a haq hexp
      rw [hkey] at hq0
      have hhome := m.home_lt (m'.cells p).key
      dsimp only at hle
      unfold ringDist at hle
      split_ifs at hle <;> omega
    constructor
    · intro p hp a ha hexp
      rw [hshape.2.2] at hp
      obtain ⟨q,hq,hkey,haq,_⟩ := hback p a hp ha
      rw [hshape.home]
      exact (hmoved p q a hp hq ha.1 hkey haq hexp).1
    · intro p hp a ha hexp
      have hkey : (m.cells p).key ≠ (m.cells i).key := by
        intro hc
        have := h.wf.distinct p i _ _ (by omega) hi ((entry_eq_some ..).mpr ⟨ha.1,rfl⟩)
          ((entry_eq_some ..).mpr ⟨hat.1,rfl⟩) hc
        omega
      have hstp := ha.stored (show p < m.capacity by omega)
      obtain ⟨p',hp',he'⟩ := (hiff _ _).mpr ⟨hkey,hstp⟩
      obtain ⟨hne',hkv⟩ := (entry_eq_some ..).mp he'
      obtain ⟨hk,hval⟩ := Prod.mk.inj hkv
      rw [hshape.2.2] at hp'
      refine ⟨p',(hmoved p' p a hp' (by omega) hne' hk ha hexp).2,hne',?_⟩
      rw [← hval,heap.free_mem_of_ne]
      · exact ha.2
      · intro heq
        exact hkey (h.inj _ _ _ hstp (heq ▸ hst))

end Visit

section Walk

variable {σ : Type} {bound : Nat} {I : K → α → Prop} {expired : α → Prop}
  {visit : σ → Nat → Checked σ} {table : σ → SingleThreadHashMap K Nat} {heap : σ → Heap α}
  {s u : σ} {n : Nat}

/-- Every visit of the walk meets a table in which no expired object follows one. -/
def WalkMeets (expired : α → Prop) (visit : σ → Nat → Checked σ)
    (table : σ → SingleThreadHashMap K Nat) (heap : σ → Heap α) (s : σ) (n : Nat) : Prop :=
  ∀ i < n, ∀ t, (List.range i).foldlM visit s = .ok t → NoneFollows expired (table t) (heap t) i

theorem foldlM_range_succ (visit : σ → Nat → Checked σ) (s u : σ) (n : Nat) :
    (List.range (n + 1)).foldlM visit s = .ok u ↔
      ∃ t, (List.range n).foldlM visit s = .ok t ∧ visit t n = .ok u := by
  rw [List.range_succ,List.foldlM_append,bind_ok_iff]
  simp

omit [DecidableEq K] in
theorem SameShape.trans {m m' m'' : SingleThreadHashMap K Nat} (h : m.SameShape m')
    (h' : m'.SameShape m'') : m.SameShape m'' :=
  ⟨h'.1.trans h.1,h'.2.1.trans h.2.1,h'.2.2.trans h.2.2⟩

variable (hvisit : ∀ t i t', (table s).SameShape (table t) → visit t i = .ok t' →
  Visits expired (table t) (heap t) i (table t') (heap t'))
include hvisit

theorem Owns.walk (h : Owns bound (table s) (heap s) I) (hn : n ≤ (table s).capacity)
    (hrun : (List.range n).foldlM visit s = .ok u) :
    Owns bound (table u) (heap u) I ∧ (table s).SameShape (table u) ∧
      ∀ key a, ((table u).HoldsObject (heap u) key a → (table s).HoldsObject (heap s) key a) ∧
        ((table s).HoldsObject (heap s) key a → ¬expired a →
          (table u).HoldsObject (heap u) key a) := by
  induction n generalizing u with
  | zero =>
    cases hrun
    exact ⟨h,⟨rfl,rfl,rfl⟩,fun key a => ⟨id,fun hm _ => hm⟩⟩
  | succ n ih =>
    obtain ⟨t,ht,hstep⟩ := (foldlM_range_succ ..).mp hrun
    obtain ⟨ho,hsame,hholds⟩ := ih (by omega) ht
    have hlt : n < (table t).capacity := by
      rw [hsame.2.2]
      exact hn
    have hv := hvisit t n u hsame hstep
    obtain ⟨ho',hshape⟩ := ho.visit hlt hv
    refine ⟨ho',hsame.trans hshape,fun key a => ?_⟩
    have hone := ho.visit_holds hlt hv key a
    exact ⟨fun hu => (hholds key a).1 (hone.1 hu),
      fun hs hlive => hone.2 ((hholds key a).2 hs hlive) hlive⟩

/-- The visit of cell `n`, after the cells in front of it. -/
theorem Owns.walk_visit (h : Owns bound (table s) (heap s) I) (hn : n < (table s).capacity)
    (hrun : (List.range (n + 1)).foldlM visit s = .ok u) :
    ∃ t, (List.range n).foldlM visit s = .ok t ∧ Owns bound (table t) (heap t) I ∧
      n < (table t).capacity ∧ Visits expired (table t) (heap t) n (table u) (heap u) := by
  obtain ⟨t,ht,hstep⟩ := (foldlM_range_succ ..).mp hrun
  obtain ⟨ho,hsame,_⟩ := h.walk hvisit hn.le ht
  exact ⟨t,ht,ho,by rwa [hsame.2.2],hvisit t n u hsame hstep⟩

/-- A walk whose visits all meet the condition leaves no expired object behind. -/
theorem Owns.walk_clean (h : Owns bound (table s) (heap s) I) (hn : n ≤ (table s).capacity)
    (hrun : (List.range n).foldlM visit s = .ok u)
    (hmeets : WalkMeets expired visit table heap s n) : CleanTo expired (table u) (heap u) n := by
  induction n generalizing u with
  | zero => exact fun p hp => absurd hp (Nat.not_lt_zero p)
  | succ n ih =>
    obtain ⟨t,ht,ho,hlt,hv⟩ := h.walk_visit hvisit hn hrun
    have hclean := ih (by omega) ht fun i hi => hmeets i (by omega)
    exact (ho.visit_clean hlt hv hclean).mpr (hmeets n (by omega) t ht)

theorem Owns.walk_noWrap (h : Owns bound (table s) (heap s) I)
    (hwrap : NoWrap expired (table s) (heap s)) (hn : n ≤ (table s).capacity)
    (hrun : (List.range n).foldlM visit s = .ok u) : NoWrap expired (table u) (heap u) := by
  induction n generalizing u with
  | zero =>
    cases hrun
    exact hwrap
  | succ n ih =>
    obtain ⟨t,ht,ho,hlt,hv⟩ := h.walk_visit hvisit hn hrun
    exact (ho.visit_noWrap hlt hv (ih (by omega) ht)).1

/-- Without a path over the end of the table, an expired object that the walk has left behind
stays. -/
theorem Owns.walk_stays (h : Owns bound (table s) (heap s) I)
    (hwrap : NoWrap expired (table s) (heap s)) {d : Nat} {t : σ}
    (hn : n + d ≤ (table s).capacity) (ht : (List.range n).foldlM visit s = .ok t)
    (hrun : (List.range (n + d)).foldlM visit s = .ok u) {p : Nat} (hp : p < n) {a : α}
    (ha : (table t).At (heap t) p a) (hexpired : expired a) :
    ∃ p' ≤ p, (table u).At (heap u) p' a := by
  induction d generalizing u with
  | zero =>
    rw [Nat.add_zero,ht] at hrun
    cases hrun
    exact ⟨p,le_rfl,ha⟩
  | succ d ih =>
    obtain ⟨t',ht',ho,hlt,hv⟩ := h.walk_visit hvisit (show n + d < _ by omega) hrun
    obtain ⟨p',hp',ha'⟩ := ih (by omega) ht'
    have hone := (ho.visit_noWrap hlt hv (h.walk_noWrap hvisit hwrap (by omega) ht')).2
    obtain ⟨p'',hp'',ha''⟩ := hone p' (by omega) a ha' hexpired
    exact ⟨p'',by omega,ha''⟩

/-- With one object in the table there is none to follow it. -/
theorem Owns.walkMeets_single (h : Owns bound (table s) (heap s) I)
    (hone : ∀ key key' a a', (table s).HoldsObject (heap s) key a →
      (table s).HoldsObject (heap s) key' a' → key = key') :
    WalkMeets expired visit table heap s (table s).capacity := by
  intro i hi t ht a ha _ j hj a' ha' _
  obtain ⟨ho,hsame,hholds⟩ := h.walk hvisit hi.le ht
  have hi' : i < (table t).capacity := by rwa [hsame.2.2]
  have hkey := hone _ _ a a' ((hholds _ a).1 ⟨_,ha.stored hi',ha.2⟩)
    ((hholds _ a').1 ⟨_,ha'.stored hj.lt,ha'.2⟩)
  exact hj.ne (ho.wf.distinct j i _ _ hj.lt hi' ((entry_eq_some ..).mpr ⟨ha'.1,rfl⟩)
    ((entry_eq_some ..).mpr ⟨ha.1,rfl⟩) hkey.symm)

variable (hrun : (List.range (table s).capacity).foldlM visit s = .ok u)
include hrun

/-- A walk over all cells whose visits all meet the condition keeps exactly the objects that are
not expired. -/
theorem Owns.walk_exact (h : Owns bound (table s) (heap s) I)
    (hmeets : WalkMeets expired visit table heap s (table s).capacity) (key : K) (a : α) :
    (table u).HoldsObject (heap u) key a ↔
      (table s).HoldsObject (heap s) key a ∧ ¬expired a := by
  obtain ⟨_,hsame,hholds⟩ := h.walk hvisit le_rfl hrun
  have hclean := h.walk_clean hvisit le_rfl hrun hmeets
  constructor
  · intro hu
    obtain ⟨p,hp,_,ha⟩ := exists_at hu
    exact ⟨(hholds key a).1 hu,hclean p (hsame.2.2 ▸ hp) a ha⟩
  · exact fun hs => (hholds key a).2 hs.1 hs.2

/-- Without a path over the end of the table, the walk is exact only if every visit meets the
condition. -/
theorem Owns.walk_exact_iff (h : Owns bound (table s) (heap s) I)
    (hwrap : NoWrap expired (table s) (heap s)) :
    (∀ key a, (table u).HoldsObject (heap u) key a ↔
        (table s).HoldsObject (heap s) key a ∧ ¬expired a) ↔
      WalkMeets expired visit table heap s (table s).capacity := by
  refine ⟨?_,h.walk_exact hvisit hrun⟩
  intro hexact
  have hclean : ∀ n ≤ (table s).capacity, ∀ t, (List.range n).foldlM visit s = .ok t →
      CleanTo expired (table t) (heap t) n := by
    intro n hn t ht p hp a ha hexpired
    obtain ⟨d,hd⟩ := Nat.exists_eq_add_of_le hn
    obtain ⟨p',hp',ha'⟩ := h.walk_stays hvisit hwrap hd.symm.le ht (hd ▸ hrun) hp ha hexpired
    obtain ⟨_,hsame,_⟩ := h.walk hvisit le_rfl hrun
    have hlt : p' < (table u).capacity := by
      rw [hsame.2.2]
      omega
    exact ((hexact _ a).mp ⟨_,ha'.stored hlt,ha'.2⟩).2 hexpired
  intro i hi t ht
  obtain ⟨d,hd⟩ := Nat.exists_eq_add_of_le (Nat.succ_le_of_lt hi)
  rw [hd,List.range_add,List.foldlM_append,bind_ok_iff] at hrun
  obtain ⟨t',ht',_⟩ := hrun
  obtain ⟨t'',ht'',ho,hlt,hv⟩ := h.walk_visit hvisit hi ht'
  rw [ht] at ht''
  cases ht''
  exact (ho.visit_clean hlt hv (hclean i hi.le t ht)).mp (hclean (i + 1) hi t' ht')

/-- The law of the walk, for a notion of age that agrees with the test of the code on the objects
in the table. -/
theorem Owns.walk_law (h : Owns bound (table s) (heap s) I) {overdue : α → Prop}
    (hage : ∀ key a, (table s).HoldsObject (heap s) key a → (expired a ↔ overdue a)) :
    (WalkMeets expired visit table heap s (table s).capacity →
      ∀ key a, (table u).HoldsObject (heap u) key a ↔
        (table s).HoldsObject (heap s) key a ∧ ¬overdue a) ∧
    (NoWrap expired (table s) (heap s) →
      ((∀ key a, (table u).HoldsObject (heap u) key a ↔
          (table s).HoldsObject (heap s) key a ∧ ¬overdue a) ↔
        WalkMeets expired visit table heap s (table s).capacity)) := by
  have hsame : ∀ key a, (table s).HoldsObject (heap s) key a ∧ ¬overdue a ↔
      (table s).HoldsObject (heap s) key a ∧ ¬expired a :=
    fun key a => and_congr_right fun hs => not_congr (hage key a hs).symm
  simp only [hsame]
  exact ⟨h.walk_exact hvisit hrun,h.walk_exact_iff hvisit hrun⟩

end Walk

end Aethon.SingleThreadHashMap
