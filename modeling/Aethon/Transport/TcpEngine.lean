import Aethon.Transport.TcpAssembler

/-!
# Steps of the TCP assembler

What one call of `process_packet` can do, said once: it is ignored, it opens a session, or it
updates or removes the session it meets. Every invariant of the engine is derived from this.
-/

namespace Aethon.TcpAssemblerEngine

open Framework SingleThreadHashMap

/-- Every stored session is live and satisfies `I` for its key. -/
structure EngineWf (I : TcpKey → TcpStreamSession → Prop) (e : TcpAssemblerEngine) : Prop where
  owns : Owns maxActiveTcpSession e.sessions e.heap I
  emptyKey : e.sessions.emptyKey = kEmptyTcpKey

variable {I J : TcpKey → TcpStreamSession → Prop} {e t u : TcpAssemblerEngine}

theorem new_engineWf (I : TcpKey → TcpStreamSession → Prop) : EngineWf I new where
  owns := owns_new kEmptyTcpKey tcpKeyHasher 17 (by decide)
  emptyKey := rfl

/-- The stored sessions of `u` are stored sessions of `e` that were left alone. -/
def Shrinks (e u : TcpAssemblerEngine) : Prop :=
  ∀ k p, u.sessions.Stored k p → e.sessions.Stored k p ∧ u.heap.mem p = e.heap.mem p

theorem Shrinks.refl (e : TcpAssemblerEngine) : Shrinks e e := fun _ _ hst => ⟨hst,rfl⟩

theorem Shrinks.trans (h : Shrinks e t) (h' : Shrinks t u) : Shrinks e u := by
  intro k p hst
  have hu := h' k p hst
  have ht := h k p hu.1
  exact ⟨ht.1,hu.2.trans ht.2⟩

theorem EngineWf.deleteSession (h : EngineWf I e) {key : TcpKey} {p : Nat}
    (hst : e.sessions.Stored key p) (s : TcpStreamSession) :
    ∃ u, e.deleteSession key p s = .ok u ∧ EngineWf I u ∧ Shrinks e u ∧
      u.sessions.capacity = e.sessions.capacity ∧
      (∀ k q, u.sessions.Stored k q ↔ k ≠ key ∧ e.sessions.Stored k q) ∧
      u.kernel = e.kernel.closeIfOpen s.backendFd ∧ u.heap = e.heap.free p := by
  obtain ⟨b,m',he,hshape,hiff,ho⟩ := h.owns.erase_free hst
  refine ⟨{ e with
      sessions := m'
      heap := e.heap.free p
      kernel := e.kernel.closeIfOpen s.backendFd },?_,⟨ho,hshape.1.trans h.emptyKey⟩,?_,
    hshape.2.2,hiff,rfl,rfl⟩
  · rw [TcpAssemblerEngine.deleteSession,he]
    rfl
  · intro k q hk
    have hk' := (hiff k q).mp hk
    refine ⟨hk'.2,e.heap.free_mem_of_ne ?_⟩
    intro hq
    subst hq
    exact hk'.1 (h.owns.inj _ _ _ hk'.2 hst)

theorem EngineWf.purgeCell (h : EngineWf I e) (nowNs : BitVec 64) {i : Nat}
    (hi : i < e.sessions.capacity) :
    ∃ u, purgeCell nowNs e i = .ok u ∧ EngineWf I u ∧ Shrinks e u ∧
      u.sessions.capacity = e.sessions.capacity := by
  unfold TcpAssemblerEngine.purgeCell
  by_cases hskip : (e.sessions.cells i).key = kEmptyTcpKey ∨ (e.sessions.cells i).val = 0
  · simp only [hskip,if_true]
    exact ⟨e,rfl,h,Shrinks.refl e,rfl⟩
  · have hst : e.sessions.Stored (e.sessions.cells i).key (e.sessions.cells i).val := by
      refine ⟨i,hi,(entry_eq_some ..).mpr ⟨?_,rfl⟩⟩
      rw [h.emptyKey]
      exact fun hc => hskip (Or.inl hc)
    obtain ⟨s,hs,_⟩ := h.owns.live _ _ hst
    simp only [hskip,if_false,hs]
    split_ifs
    · obtain ⟨u,hu,hwf,hsh,hcap,_⟩ := h.deleteSession hst s
      exact ⟨u,hu,hwf,hsh,hcap⟩
    · exact ⟨e,rfl,h,Shrinks.refl e,rfl⟩

/-- `purged_expired` always returns and only drops sessions. -/
theorem EngineWf.purgedExpired (h : EngineWf I e) (nowNs : BitVec 64) :
    ∃ u, e.purgedExpired nowNs = .ok u ∧ EngineWf I u ∧ Shrinks e u := by
  obtain ⟨u,hu,hwf,hsh,_⟩ := foldlM_invariant
    (I := fun u => EngineWf I u ∧ Shrinks e u ∧ u.sessions.capacity = e.sessions.capacity)
    (List.range e.sessions.capacity)
    (by
      intro t i hi ht
      obtain ⟨hwf,hsh,hcap⟩ := ht
      obtain ⟨u,hu,hwf',hsh',hcap'⟩ :=
        hwf.purgeCell nowNs (show i < t.sessions.capacity by simpa [hcap] using hi)
      exact ⟨u,hu,hwf',hsh.trans hsh',hcap'.trans hcap⟩)
    e ⟨h,Shrinks.refl e,rfl⟩
  exact ⟨u,hu,hwf,hsh⟩

/-- The cleanup always returns and only drops sessions. -/
theorem EngineWf.cleanup (h : EngineWf I e) (nowNs : BitVec 64) :
    ∃ t, e.cleanup nowNs = .ok t ∧ EngineWf I t ∧ Shrinks e t := by
  unfold TcpAssemblerEngine.cleanup
  split_ifs
  · obtain ⟨u,hu,hwf,hsh⟩ := h.purgedExpired nowNs
    refine ⟨{ u with lastCleanupNs := nowNs },?_,⟨hwf.owns,hwf.emptyKey⟩,hsh⟩
    rw [bind_ok_iff]
    exact ⟨u,hu,rfl⟩
  · exact ⟨e,rfl,h,Shrinks.refl e⟩

section Cleanup

variable {P : TcpAssemblerEngine → Prop} {nowNs : BitVec 64}
  (hdel : ∀ e key p s u, P e → e.heap.mem p = some s → isExpired nowNs s = true →
    e.deleteSession key p s = .ok u → P u)
include hdel

theorem purgeCell_preserves {i : Nat} (h : P e)
    (hrun : TcpAssemblerEngine.purgeCell nowNs e i = .ok u) : P u := by
  unfold TcpAssemblerEngine.purgeCell at hrun
  dsimp only at hrun
  split_ifs at hrun
  · cases hrun
    exact h
  · split at hrun
    · cases hrun
    · rename_i s hs
      split_ifs at hrun with hexpired
      · exact hdel e _ _ s u h hs hexpired hrun
      · cases hrun
        exact h

theorem purgeCells_preserves (cells : List Nat) (h : P e)
    (hrun : cells.foldlM (TcpAssemblerEngine.purgeCell nowNs) e = .ok u) : P u := by
  induction cells generalizing e with
  | nil =>
    cases hrun
    exact h
  | cons i cells ih =>
    rw [List.foldlM_cons] at hrun
    obtain ⟨t,ht,hrest⟩ := (bind_ok_iff ..).mp hrun
    exact ih (purgeCell_preserves hdel h ht) hrest

/-- What every deletion keeps, and the time of the cleanup does not matter for, the cleanup
keeps. -/
theorem cleanup_preserves (htime : ∀ e, P e → P { e with lastCleanupNs := nowNs }) (h : P e)
    (hrun : e.cleanup nowNs = .ok u) : P u := by
  unfold TcpAssemblerEngine.cleanup at hrun
  split_ifs at hrun
  · obtain ⟨t,ht,hret⟩ := (bind_ok_iff ..).mp hrun
    cases hret
    exact htime t (purgeCells_preserves hdel _ h ht)
  · cases hrun
    exact h

end Cleanup

/-- What a call does to the engine `t` that its cleanup leaves. -/
inductive StepCase (t : TcpAssemblerEngine) (c : PacketCall) :
    TcpAssemblerEngine → TcpAssemblyResult → Prop where
  | ignored : StepCase t c t (portsOf c.packet {} none)
  | opened (m : SingleThreadHashMap TcpKey Nat) (b : Bool)
      (hsyn : c.packet.has thSyn = true) (hroom : t.sessions.size < maxActiveTcpSession)
      (hnone : t.sessions.find c.packet.key = .ok none)
      (hput : t.sessions.emplace c.packet.key
        (t.heap.alloc (.opened c.packet c.nowNs)).1 = .ok (b,m)) :
      StepCase t c
        { t with sessions := m, heap := (t.heap.alloc (.opened c.packet c.nowNs)).2 }
        (portsOf c.packet { isSyn := true } (some (t.heap.alloc (.opened c.packet c.nowNs)).1))
  | kept (p : Nat) (s s' : TcpStreamSession) (res : TcpAssemblyResult)
      (hfind : t.sessions.find c.packet.key = .ok (some p)) (hs : t.heap.mem p = some s)
      (hon : s.onPacket c.packet c.nowNs c.garbage = (some s',res)) :
      StepCase t c { t with heap := t.heap.set p s' } (portsOf c.packet res (some p))
  | removed (p : Nat) (s : TcpStreamSession) (res : TcpAssemblyResult) (v : TcpAssemblerEngine)
      (hfind : t.sessions.find c.packet.key = .ok (some p)) (hs : t.heap.mem p = some s)
      (hon : s.onPacket c.packet c.nowNs c.garbage = (none,res))
      (hdel : t.deleteSession c.packet.key p s = .ok v) :
      StepCase t c v (portsOf c.packet res none)

theorem openSession_cases {c : PacketCall} {res : TcpAssemblyResult}
    (hnone : t.sessions.find c.packet.key = .ok none)
    (h : t.openSession c = .ok (u,res)) : StepCase t c u res := by
  unfold openSession at h
  dsimp only at h
  split_ifs at h with hsyn hroom halloc
  · cases h
    exact StepCase.ignored
  · cases h
    exact StepCase.ignored
  · cases h
    exact StepCase.ignored
  · obtain ⟨⟨b,m⟩,hput,hret⟩ := (bind_ok_iff ..).mp h
    cases hret
    exact StepCase.opened m b (by simpa using hsyn) (not_le.mp hroom) hnone hput

theorem updateSession_cases {c : PacketCall} {res : TcpAssemblyResult} {p : Nat}
    (hfind : t.sessions.find c.packet.key = .ok (some p))
    (h : t.updateSession c p = .ok (u,res)) : StepCase t c u res := by
  unfold updateSession at h
  cases hs : t.heap.mem p with
  | none =>
    simp only [hs] at h
    cases h
  | some s =>
    simp only [hs] at h
    cases hon : s.onPacket c.packet c.nowNs c.garbage with
    | mk fate r =>
      cases fate with
      | some s' =>
        simp only [hon] at h
        cases h
        exact StepCase.kept p s s' r hfind hs hon
      | none =>
        simp only [hon] at h
        obtain ⟨v,hdel,hret⟩ := (bind_ok_iff ..).mp h
        cases hret
        exact StepCase.removed p s r u hfind hs hon hdel

/-- A call that returns has cleaned up and then taken one of the four ways. -/
theorem processPacket_cases {c : PacketCall} {res : TcpAssemblyResult}
    (h : e.processPacket c = .ok (u,res)) :
    ∃ t, e.cleanup c.nowNs = .ok t ∧ StepCase t c u res := by
  unfold processPacket at h
  obtain ⟨t,ht,hrest⟩ := (bind_ok_iff ..).mp h
  refine ⟨t,ht,?_⟩
  dsimp only at hrest
  split_ifs at hrest with hfull
  · cases hrest
    exact StepCase.ignored
  · obtain ⟨slot,hfind,hgo⟩ := (bind_ok_iff ..).mp hrest
    cases slot with
    | some p => exact updateSession_cases hfind hgo
    | none => exact openSession_cases hfind hgo

/-- One call keeps an invariant of the sessions: each kept update of a session of the
packet's key must lead from `I` to `J`. -/
theorem StepCase.engineWf {c : PacketCall} {res : TcpAssemblyResult} (h : StepCase t c u res)
    (hwf : EngineWf I t)
    (hother : ∀ k s, k ≠ c.packet.key → I k s → J k s)
    (hsame : res.session = none → ∀ s, I c.packet.key s → J c.packet.key s)
    (hopen : c.packet.has thSyn = true → J c.packet.key (.opened c.packet c.nowNs))
    (hkeep : ∀ p s s' r, t.sessions.find c.packet.key = .ok (some p) → t.heap.mem p = some s →
      res = portsOf c.packet r (some p) → I c.packet.key s →
      s.onPacket c.packet c.nowNs c.garbage = (some s',r) → J c.packet.key s') :
    EngineWf J u := by
  cases h with
  | ignored =>
    refine ⟨hwf.owns.change ?_,hwf.emptyKey⟩
    intro k p s _ _ hs
    by_cases hk : k = c.packet.key
    · subst hk
      exact hsame rfl s hs
    · exact hother k s hk hs
  | opened m b hsyn hroom hnone hput =>
    obtain ⟨b',m',hput',hshape,_,ho⟩ := hwf.owns.insert (J := J)
      (ne_emptyKey_of_find hnone) hroom hother (hopen hsyn)
    rw [hput] at hput'
    cases hput'
    exact ⟨ho,hshape.1.trans hwf.emptyKey⟩
  | kept p s s' r hfind hs hon =>
    have hst := hwf.owns.wf.find_stored hfind
    refine ⟨hwf.owns.set hst hother ?_,hwf.emptyKey⟩
    exact hkeep p s s' r hfind hs rfl (hwf.owns.holds hst hs) hon
  | removed p s r v hfind hs hon hdel =>
    have hst := hwf.owns.wf.find_stored hfind
    obtain ⟨v',hdel',hwf',_,_,hiff,_⟩ := hwf.deleteSession hst s
    rw [hdel] at hdel'
    cases hdel'
    refine ⟨hwf'.owns.change ?_,hwf'.emptyKey⟩
    intro k q s' hk _ hs'
    exact hother k s' ((hiff k q).mp hk).1 hs'

theorem EngineWf.openSession_ok (h : EngineWf I t) {c : PacketCall}
    (hne : c.packet.key ≠ kEmptyTcpKey) : ∃ u res, t.openSession c = .ok (u,res) := by
  unfold openSession
  dsimp only
  split_ifs with hsyn hroom halloc
  · exact ⟨_,_,rfl⟩
  · exact ⟨_,_,rfl⟩
  · exact ⟨_,_,rfl⟩
  · obtain ⟨b,m',hput,_⟩ := h.owns.wf.emplace_spec c.packet.key
      (t.heap.alloc (.opened c.packet c.nowNs)).1 (by rwa [h.emptyKey]) h.owns.size_lt
    exact ⟨_,_,(bind_ok_iff ..).mpr ⟨_,hput,rfl⟩⟩

theorem EngineWf.updateSession_ok (h : EngineWf I t) {c : PacketCall} {p : Nat}
    (hst : t.sessions.Stored c.packet.key p) : ∃ u res, t.updateSession c p = .ok (u,res) := by
  obtain ⟨s,hs,_⟩ := h.owns.live _ _ hst
  unfold updateSession
  simp only [hs]
  cases hon : s.onPacket c.packet c.nowNs c.garbage with
  | mk fate r =>
    cases fate with
    | some s' => exact ⟨_,_,rfl⟩
    | none =>
      obtain ⟨v,hdel,_⟩ := h.deleteSession hst s
      exact ⟨_,_,(bind_ok_iff ..).mpr ⟨v,hdel,rfl⟩⟩

/-- A call with a key other than the sentinel always returns. -/
theorem EngineWf.processPacket_ok (h : EngineWf I e) {c : PacketCall}
    (hne : c.packet.key ≠ kEmptyTcpKey) : ∃ u res, e.processPacket c = .ok (u,res) := by
  obtain ⟨t,ht,hwf,_⟩ := h.cleanup c.nowNs
  unfold processPacket
  rw [ht]
  simp only [bind,Except.bind]
  split_ifs
  · exact ⟨_,_,rfl⟩
  · obtain ⟨slot,hfind⟩ := t.sessions.find_ok c.packet.key (by rwa [hwf.emptyKey])
    rw [hfind]
    cases slot with
    | some p => exact hwf.updateSession_ok (hwf.owns.wf.find_stored hfind)
    | none => exact hwf.openSession_ok hne

end Aethon.TcpAssemblerEngine
