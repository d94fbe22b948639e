import Aethon.Transport.UdpHonest

/-!
# Datagrams among other traffic

The fragments of one datagram among calls with other keys. A call with another key leaves the
session of a key as it is, unless its cleanup finds that session expired; so a datagram is
reassembled as if its fragments were alone.
-/

namespace Aethon

open Framework

namespace UDPassemblerEngine

open SingleThreadHashMap

variable {e u : UDPassemblerEngine} {logs : FragmentKey → List Fragment} {key k : FragmentKey}
  {nowNs : BitVec 64} {c : FragmentCall} {done : List Fragment} {D : List UInt8}

/-- No session of `key` is expired. -/
def Unexpired (key : FragmentKey) (nowNs : BitVec 64) (e : UDPassemblerEngine) : Prop :=
  ∀ p s, e.sessions.Stored key p → e.heap.mem p = some s → isExpired nowNs s = false

/-- The cleanup of a call at `nowNs` does not drop the session of `key`. -/
def Spares (key : FragmentKey) (nowNs : BitVec 64) (e : UDPassemblerEngine) : Prop :=
  nowNs - e.lastCleanupNs > cleanupIntervalNs → Unexpired key nowNs e

theorem EngineWf.purgeCell_spares (h : EngineWf e logs) (hx : Unexpired key nowNs e) {i : Nat}
    (hi : i < e.sessions.capacity) (hrun : UDPassemblerEngine.purgeCell nowNs e i = .ok u) {p : Nat}
    (hst : e.sessions.Stored key p) : u.sessions.Stored key p := by
  unfold UDPassemblerEngine.purgeCell at hrun
  dsimp only at hrun
  split_ifs at hrun with hskip
  · cases hrun
    exact hst
  · have hcell : e.sessions.Stored (e.sessions.cells i).key (e.sessions.cells i).val := by
      refine ⟨i,hi,(entry_eq_some ..).mpr ⟨?_,rfl⟩⟩
      rw [h.emptyKey]
      exact fun hc => hskip (Or.inl hc)
    obtain ⟨s,hs,_⟩ := h.owns.live _ _ hcell
    rw [hs] at hrun
    dsimp only at hrun
    split_ifs at hrun with hexpired
    · obtain ⟨b,m',he,_,hiff,_⟩ := h.owns.erase_free hcell
      rw [he] at hrun
      cases hrun
      refine (hiff key p).mpr ⟨?_,hst⟩
      rintro rfl
      rw [hx _ s hcell hs] at hexpired
      cases hexpired
    · cases hrun
      exact hst

theorem EngineWf.cleanup_spares (h : EngineWf e logs) (hx : Spares key nowNs e) :
    ∃ u, e.cleanup nowNs = .ok u ∧ EngineWf u logs ∧
      ∀ p, u.sessions.Stored key p ↔ e.sessions.Stored key p := by
  unfold UDPassemblerEngine.cleanup
  split_ifs with hdue
  · obtain ⟨u,hu,hwf,hsh,_,hkept⟩ := foldlM_invariant
      (I := fun u => EngineWf u logs ∧ Shrinks e u ∧ u.sessions.capacity = e.sessions.capacity ∧
        ∀ p, e.sessions.Stored key p → u.sessions.Stored key p)
      (List.range e.sessions.capacity)
      (by
        intro t i hi ht
        obtain ⟨hwf,hsh,hcap,hkept⟩ := ht
        have hit : i < t.sessions.capacity := by simpa [hcap] using hi
        have hxt : Unexpired key nowNs t := by
          intro p s hst hs
          obtain ⟨hst',hmem⟩ := hsh key p hst
          exact hx hdue p s hst' (hmem ▸ hs)
        obtain ⟨u,hu,hwf',hsh',hcap'⟩ := hwf.purgeCell nowNs hit
        exact ⟨u,hu,hwf',hsh.trans hsh',hcap'.trans hcap,
          fun p hst => hwf.purgeCell_spares hxt hit hu (hkept p hst)⟩)
      e ⟨h,fun _ _ hst => ⟨hst,rfl⟩,rfl,fun _ hst => hst⟩
    refine ⟨{ u with lastCleanupNs := nowNs },?_,⟨hwf.owns,hwf.emptyKey⟩,
      fun p => ⟨fun hst => (hsh key p hst).1,hkept p⟩⟩
    exact (bind_ok_iff ..).mpr ⟨u,hu,rfl⟩
  · exact ⟨e,rfl,h,fun _ => Iff.rfl⟩

/-- The session of `key` has accepted exactly `done`; whatever other sessions there are. -/
def Gathers (key : FragmentKey) (e : UDPassemblerEngine) (done : List Fragment) : Prop :=
  ∃ logs, EngineWf e logs ∧ ((done = [] ∧ ∀ p, ¬e.sessions.Stored key p) ∨
    (logs key = done ∧ ∃ p, e.sessions.Stored key p))

theorem new_gathers (key : FragmentKey) : Gathers key new [] :=
  ⟨fun _ => [],new_engineWf _,Or.inl ⟨rfl,fun p hst => new_not_stored _ _ _ _ key p hst⟩⟩

/-- Memory that no cell refers to may be freed. -/
theorem Gathers.free (h : Gathers key e done) {q : Nat} (hq : ∀ k, ¬e.sessions.Stored k q) :
    Gathers key { e with heap := e.heap.free q } done := by
  obtain ⟨logs,hwf,hcase⟩ := h
  exact ⟨logs,⟨hwf.owns.free hq,hwf.emptyKey⟩,hcase⟩

/-- The sessions of other keys do not change what is gathered for `key`. -/
theorem gathers_of_stored {logs' : FragmentKey → List Fragment} (hwf : EngineWf u logs')
    (hlog : logs' key = logs key) (hst : ∀ p, u.sessions.Stored key p ↔ e.sessions.Stored key p)
    (hcase : (done = [] ∧ ∀ p, ¬e.sessions.Stored key p) ∨
      (logs key = done ∧ ∃ p, e.sessions.Stored key p)) : Gathers key u done := by
  refine ⟨logs',hwf,?_⟩
  simp only [hst,hlog]
  exact hcase

/-- A call with another key. -/
theorem Gathers.other (h : Gathers key e done) (hne : k ≠ key) (hk : k ≠ kEmptyFragmentKey)
    (hx : Spares key c.nowNs e) :
    ∃ u res, processFragment k e c = .ok (u,res) ∧ Gathers key u done := by
  obtain ⟨logs,hwf,hcase⟩ := h
  obtain ⟨t,ht,hwft,hstored⟩ := hwf.cleanup_spares hx
  simp only [← hstored] at hcase
  obtain ⟨slot,hf⟩ := t.sessions.find_ok k (by rwa [hwft.emptyKey])
  cases slot with
  | some p =>
    obtain ⟨s,hst,hs,hcall,_⟩ := hwft.call_found ht hf
    obtain ⟨u,res,hfeed,hwf',_,hst',_⟩ := hwft.feedSession hst hs c.fragment
    refine ⟨u,res,hcall.trans hfeed,gathers_of_stored hwf' (Function.update_of_ne hne.symm ..) ?_ hcase⟩
    intro q
    simp [hst',hne.symm]
  | none =>
    by_cases hroom : t.sessions.size < maxActiveDgramSessions ∧ c.allocated = true
    · obtain ⟨t',p,hcall,_,hwf',hmem,_,hst'⟩ := hwft.call_new hk ht hf hroom.1 hroom.2
      obtain ⟨u,res,hfeed,hwfu,_,hstu,_⟩ :=
        hwf'.feedSession ((hst' k p).mpr (Or.inl ⟨rfl,rfl⟩)) hmem c.fragment
      refine ⟨u,res,hcall.trans hfeed,gathers_of_stored hwfu ?_ ?_ hcase⟩
      · rw [Function.update_of_ne hne.symm,Function.update_of_ne hne.symm]
      · intro q
        simp [hstu,hst',hne.symm]
    · exact ⟨t,{},(call_refused ht hf hroom).1,logs,hwft,hcase⟩

/-- There is a slot and memory for a new session, and a session of `key` is within the search
budget of the table. -/
def Admits (key : FragmentKey) (e : UDPassemblerEngine) (c : FragmentCall) : Prop :=
  c.allocated = true ∧ ∀ t, e.cleanup c.nowNs = .ok t →
    t.sessions.size < maxActiveDgramSessions ∧
      ∀ p, t.sessions.Stored key p → t.sessions.find key = .ok (some p)

/-- Sixty-four sessions are never too many. -/
theorem EngineWf.admits_of_few (h : EngineWf e logs) (halloc : c.allocated = true)
    (hfew : ∀ t, e.cleanup c.nowNs = .ok t → t.sessions.size ≤ 64) : Admits key e c := by
  refine ⟨halloc,?_⟩
  intro t ht
  obtain ⟨t',ht',hwf,_⟩ := h.cleanup c.nowNs
  rw [ht] at ht'
  cases ht'
  have hsize := hfew t ht
  refine ⟨lt_of_le_of_lt hsize (by decide),?_⟩
  intro p hst
  have hne := hst.ne_emptyKey
  obtain ⟨i,hi,hentry⟩ := hst
  obtain ⟨_,hcell⟩ := (entry_eq_some ..).mp hentry
  simp only [Prod.mk.injEq] at hcell
  have hdist := hwf.owns.wf.ringDist_lt_size hi hcell.1.symm hne
  exact (hwf.owns.wf.find_eq_some key hne p).mpr ⟨i,hi,hentry,lt_of_lt_of_le hdist hsize⟩

/-- What a call with a fragment of `D` does, if the session has accepted `done`. -/
def Accepts (D : List UInt8) (key : FragmentKey) (done : List Fragment) (u : UDPassemblerEngine)
    (res : AssemblyResult) : Prop :=
  (Covers D done ∧ Delivers D res ∧ Gathers key u []) ∨
    (¬Covers D done ∧ res.isComplete = false ∧ Gathers key u done)

theorem feed_accepts {p : Nat} {s : ReassemblySession} {f : Fragment} (hwf : EngineWf e logs)
    (hst : e.sessions.Stored key p) (hs : e.heap.mem p = some s)
    (hall : ∀ g ∈ logs key ++ [f], FragmentOf D g) (hlen : (logs key).length < 64)
    (hlo : 8 ≤ D.length) (hhi : D.length ≤ 65535) :
    ∃ u res, e.feedSession key p f = .ok (u,res) ∧ Accepts D key (logs key ++ [f]) u res := by
  have hb := hwf.built hst hs
  have hacc : (s.addFragment f).1 = true := by
    apply (ReassemblySession.addFragment_fst s f).mpr
    exact ⟨(hall f (by simp)).acceptable hhi,by rw [hb.count]; exact hlen⟩
  have hb' := hb.addFragment hacc
  have hiff := complete_iff_covers hb' hall hlo hhi
  obtain ⟨u,res,hfeed,hwf',_,hstored,_,hres⟩ := hwf.feedSession hst hs f
  refine ⟨u,res,hfeed,?_⟩
  cases hc : (s.addFragment f).2.isComplete with
  | true =>
    refine Or.inl ⟨hiff.mp hc,?_,_,hwf',Or.inl ⟨rfl,?_⟩⟩
    · rw [hres,if_pos (by simp [hacc,hc])]
      exact completedResult_delivers hb' hall hc hlo p
    · intro q hq
      have hboth := ((hstored key q).mp hq).2
      simp [hc] at hboth
  | false =>
    refine Or.inr ⟨?_,?_,_,hwf',Or.inr ⟨?_,p,?_⟩⟩
    · intro hcov
      rw [hiff.mpr hcov] at hc
      cases hc
    · rw [hres,if_neg (by simp [hc])]
    · rw [Function.update_self,extendLog,if_pos hacc]
    · exact (hstored key p).mpr ⟨hst,Or.inr ⟨hacc,hc⟩⟩

/-- A call with a fragment of the datagram. -/
theorem Gathers.own (h : Gathers key e done) (hkey : key ≠ kEmptyFragmentKey)
    (hx : Spares key c.nowNs e) (hadmits : Admits key e c)
    (hall : ∀ g ∈ done ++ [c.fragment], FragmentOf D g) (hlen : done.length < 64)
    (hlo : 8 ≤ D.length) (hhi : D.length ≤ 65535) :
    ∃ u res, processFragment key e c = .ok (u,res) ∧ Accepts D key (done ++ [c.fragment]) u res := by
  obtain ⟨logs,hwf,hcase⟩ := h
  obtain ⟨t,ht,hwft,hstored⟩ := hwf.cleanup_spares hx
  simp only [← hstored] at hcase
  obtain ⟨slot,hf⟩ := t.sessions.find_ok key (by rwa [hwft.emptyKey])
  rcases hcase with ⟨rfl,hnone⟩ | ⟨rfl,p,hst⟩
  · have hslot : slot = none := by
      cases slot with
      | none => rfl
      | some q => exact absurd (hwft.owns.wf.find_stored hf) (hnone q)
    subst hslot
    obtain ⟨t',q,hcall,_,hwf',hmem,_,hst'⟩ :=
      hwft.call_new hkey ht hf (hadmits.2 t ht).1 hadmits.1
    rw [hcall]
    have hlog : Function.update logs key [] key = [] := Function.update_self ..
    have hfeed := feed_accepts (f := c.fragment) (D := D) hwf'
      ((hst' key q).mpr (Or.inl ⟨rfl,rfl⟩)) hmem (by rwa [hlog]) (by rwa [hlog]) hlo hhi
    rwa [hlog] at hfeed
  · have hfound := (hadmits.2 t ht).2 p hst
    obtain ⟨s,hst',hs,hcall,_⟩ := hwft.call_found ht hfound
    rw [hcall]
    exact feed_accepts hwft hst' hs hall hlen hlo hhi

end UDPassemblerEngine

end Aethon
