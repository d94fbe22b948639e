import Aethon.Pipeline.Served

/-!
# Sessions with a backend are found

The lookup of the session table gives up after 64 cells, so a session may be stored and not be
found. A session leaves its first state, and a backend connection is opened for it, only when a
packet has found it, and the table moves entries only towards their home slots. So a session with
a backend is found for as long as it lives, and a call that closes it by its key reaches it.
-/

namespace Aethon

open Framework SingleThreadHashMap

namespace TcpAssemblerEngine

/-- A packet has found the session since its SYN. -/
def Settled (s : TcpStreamSession) : Prop := s.backendFd ≠ none ∨ s.state ≠ .synSent

/-- Table and heap agree on the keys, and a settled session is found by its key. -/
structure Located (e : TcpAssemblerEngine) : Prop where
  wf : EngineWf (fun key s => s.key = key) e
  settled : ∀ p s, e.heap.mem p = some s → Settled s → e.sessions.find s.key = .ok (some p)

variable {e t u : TcpAssemblerEngine}

theorem Located.backed (h : Located e) (p : Nat) (s : TcpStreamSession)
    (hs : e.heap.mem p = some s) (hfd : s.backendFd ≠ none) :
    e.sessions.find s.key = .ok (some p) :=
  h.settled p s hs (Or.inl hfd)

theorem new_located : Located new where
  wf := new_engineWf _
  settled := by
    intro p s hs
    cases hs

theorem Located.deleteSession (h : Located e) {key : TcpKey} {p : Nat} {s : TcpStreamSession}
    (hst : e.sessions.Stored key p) (hdel : e.deleteSession key p s = .ok u) : Located u := by
  obtain ⟨v,hv,hwf,_⟩ := h.wf.deleteSession hst s
  rw [hdel] at hv
  cases hv
  refine ⟨hwf,?_⟩
  obtain ⟨⟨b,m⟩,herase,hret⟩ := (bind_ok_iff ..).mp hdel
  cases hret
  intro q r hr hfd
  by_cases hq : q = p
  · rw [hq] at hr
    cases (Heap.free_mem_self e.heap p).symm.trans hr
  · have hr' : e.heap.mem q = some r := (Heap.free_mem_of_ne e.heap hq).symm.trans hr
    have hfind := h.settled q r hr' hfd
    apply h.wf.owns.wf.erase_find h.wf.owns.size_lt herase _ hfind
    intro hkey
    rw [hkey] at hfind
    exact hq (h.wf.owns.wf.stored_unique (h.wf.owns.wf.find_stored hfind) hst)

theorem Located.purgeCell (h : Located e) {nowNs : BitVec 64} {i : Nat}
    (hi : i < e.sessions.capacity) (hrun : purgeCell nowNs e i = .ok u) : Located u := by
  unfold TcpAssemblerEngine.purgeCell at hrun
  dsimp only at hrun
  split_ifs at hrun with hskip
  · cases hrun
    exact h
  · have hst : e.sessions.Stored (e.sessions.cells i).key (e.sessions.cells i).val := by
      refine ⟨i,hi,(entry_eq_some ..).mpr ⟨?_,rfl⟩⟩
      rw [h.wf.emptyKey]
      exact fun hc => hskip (Or.inl hc)
    split at hrun
    · cases hrun
    · split_ifs at hrun
      · exact h.deleteSession hst hrun
      · cases hrun
        exact h

theorem Located.cleanup (h : Located e) {nowNs : BitVec 64} (hrun : e.cleanup nowNs = .ok t) :
    Located t := by
  unfold TcpAssemblerEngine.cleanup at hrun
  split_ifs at hrun
  · obtain ⟨u,hu,hret⟩ := (bind_ok_iff ..).mp hrun
    cases hret
    obtain ⟨v,hv,hlocated,_⟩ := foldlM_invariant
      (I := fun v => Located v ∧ v.sessions.capacity = e.sessions.capacity)
      (List.range e.sessions.capacity)
      (by
        intro v i hi hinv
        obtain ⟨hv,hcap⟩ := hinv
        have hlt : i < v.sessions.capacity := by simpa [hcap] using hi
        obtain ⟨w,hw,_,_,hcap'⟩ := hv.wf.purgeCell nowNs hlt
        exact ⟨w,hw,hv.purgeCell hlt hw,hcap'.trans hcap⟩)
      e ⟨h,rfl⟩
    rw [purgedExpired] at hu
    rw [hu] at hv
    cases hv
    exact ⟨⟨hlocated.wf.owns,hlocated.wf.emptyKey⟩,hlocated.settled⟩
  · cases hrun
    exact h

theorem Located.closeSession (h : Located e) {key : TcpKey} (hrun : e.closeSession key = .ok u) :
    Located u := by
  unfold TcpAssemblerEngine.closeSession at hrun
  obtain ⟨slot,hfind,hrest⟩ := (bind_ok_iff ..).mp hrun
  cases slot with
  | none =>
    cases hrest
    exact h
  | some p =>
    dsimp only at hrest
    split_ifs at hrest
    · cases hrest
      exact h
    · split at hrest
      · cases hrest
      · exact h.deleteSession (h.wf.owns.wf.find_stored hfind) hrest

/-- Overwriting a session, which may have got a backend if it is found. -/
theorem Located.set (h : Located e) {p : Nat} {s s' : TcpStreamSession}
    (hs : e.heap.mem p = some s) (hkey : s'.key = s.key)
    (hfound : Settled s' → e.sessions.find s.key = .ok (some p)) (kernel : Kernel) :
    Located { e with heap := e.heap.set p s', kernel := kernel } where
  wf := by
    refine ⟨h.wf.owns.overwrite ?_,h.wf.emptyKey⟩
    intro key hst
    rw [hkey]
    exact h.wf.owns.holds hst hs
  settled := by
    intro q r hr hfd
    by_cases hq : q = p
    · subst hq
      have hself : (e.heap.set q s').mem q = some s' := e.heap.set_mem_self s' hs
      rw [hself] at hr
      cases hr
      rw [hkey]
      exact hfound hfd
    · have hother : (e.heap.set p s').mem q = e.heap.mem q := e.heap.set_mem_of_ne s' hq
      rw [hother] at hr
      exact h.settled q r hr hfd

/-- A session that the result of a call names is found by its key, unless the call opened it. -/
def Names (u : TcpAssemblerEngine) (res : TcpAssemblyResult) : Prop :=
  ∀ p s, res.session = some p → u.heap.mem p = some s →
    res.isSyn = true ∨ u.sessions.find s.key = .ok (some p)

theorem StepCase.located {c : PacketCall} {res : TcpAssemblyResult} (hcase : StepCase t c u res)
    (h : Located t) : Located u ∧ Names u res := by
  cases hcase with
  | ignored =>
    refine ⟨h,?_⟩
    intro p s hp
    cases hp
  | opened m b hsyn hroom hnone hput =>
    refine ⟨⟨?_,?_⟩,fun _ _ _ _ => Or.inl rfl⟩
    · exact (StepCase.opened m b hsyn hroom hnone hput).engineWf h.wf (fun _ _ _ hk => hk)
        (fun hnone => by cases hnone) (fun _ => rfl) (fun p s s' r hfind => by
          rw [hnone] at hfind
          cases hfind)
    · intro q r hr hfd
      by_cases hq : q = t.heap.next
      · rw [hq] at hr
        have hnew : (t.heap.alloc (.opened c.packet c.nowNs)).2.mem t.heap.next =
            some (.opened c.packet c.nowNs) := Heap.alloc_mem_self t.heap _
        rw [hnew] at hr
        cases hr
        exact hfd.elim (absurd rfl) (absurd rfl)
      · have hold : (t.heap.alloc (.opened c.packet c.nowNs)).2.mem q = t.heap.mem q :=
          Heap.alloc_mem_of_ne t.heap _ hq
        rw [hold] at hr
        have hfind := h.settled q r hr hfd
        apply h.wf.owns.wf.emplace_find h.wf.owns.size_lt hput _ hfind
        intro hkey
        rw [hkey,hnone] at hfind
        cases hfind
  | kept p s s' r hfind hs hon =>
    have houter := TcpStreamSession.onPacket_outer hon
    have hkey : s.key = c.packet.key := h.wf.owns.holds (h.wf.owns.wf.find_stored hfind) hs
    rw [← hkey] at hfind
    refine ⟨h.set hs houter.key (fun _ => hfind) t.kernel,?_⟩
    intro q v hq hv
    cases hq
    have hself : (t.heap.set p s').mem p = some s' := t.heap.set_mem_self s' hs
    rw [hself] at hv
    cases hv
    right
    rw [houter.key]
    exact hfind
  | removed p s r v hfind hs hon hdel =>
    refine ⟨h.deleteSession (h.wf.owns.wf.find_stored hfind) hdel,?_⟩
    intro q v hq
    cases hq

theorem Located.processPacket (h : Located e) {c : PacketCall} {res : TcpAssemblyResult}
    (hrun : e.processPacket c = .ok (u,res)) : Located u ∧ Names u res := by
  obtain ⟨t,ht,hcase⟩ := processPacket_cases hrun
  exact hcase.located (h.cleanup ht)

end TcpAssemblerEngine

namespace Pipeline

open TcpAssemblerEngine

section Step

variable {cfg : Config} {st st' : State}

theorem handleResult_key {f : TcpFrame} {c c' : Conn} {res : TcpAssemblyResult}
    {verdict : Verdict} (h : handleResult cfg f c res = .ok (c',verdict)) :
    c'.session.key = c.session.key :=
  congrArg Prod.fst (handleResult_inner h)

theorem handleResult_syn_backendFd {f : TcpFrame} {c c' : Conn} {res : TcpAssemblyResult}
    {verdict : Verdict} (hsyn : res.isSyn = true)
    (h : handleResult cfg f c res = .ok (c',verdict)) :
    c'.session.backendFd = c.session.backendFd := by
  simp only [handleResult,hsyn,if_true] at h
  cases h
  change (c.noteDelivery res).session.backendFd = _
  rw [Conn.noteDelivery_session]

theorem State.closeSession_located {key : TcpKey} (h : Located st.engine)
    (hrun : st.closeSession key = .ok st') : Located st'.engine := by
  obtain ⟨e,he,hret⟩ := (bind_ok_iff ..).mp hrun
  cases hret
  exact h.closeSession he

theorem finish_located {f : TcpFrame} {res : TcpAssemblyResult} {c : Conn} {verdict : Verdict}
    {out : Output} (h : Located (st.store c).engine)
    (hrun : finish f res st c verdict = .ok (st',out)) : Located st'.engine := by
  cases verdict with
  | reply =>
    cases hrun
    exact h
  | silent =>
    cases hrun
    exact h
  | reset =>
    obtain ⟨u,hu,hret⟩ := (bind_ok_iff ..).mp hrun
    cases hret
    exact State.closeSession_located h hu
  | proceed =>
    rw [finish] at hrun
    split_ifs at hrun
    · obtain ⟨u,hu,hret⟩ := (bind_ok_iff ..).mp hrun
      cases hret
      exact State.closeSession_located h hu
    · cases hrun
      exact h

theorem handleTcpPacket_located {f : TcpFrame} {out : Output} (h : Located st.engine)
    (hrun : handleTcpPacket cfg st f = .ok (st',out)) : Located st'.engine := by
  unfold handleTcpPacket at hrun
  split_ifs at hrun
  · cases hrun
    exact h
  · obtain ⟨⟨engine,res⟩,hpacket,hrest⟩ := (bind_ok_iff ..).mp hrun
    obtain ⟨hlocated,hnames⟩ := h.processPacket hpacket
    dsimp only at hrest
    split at hrest
    · split_ifs at hrest
      · obtain ⟨u,hu,hret⟩ := (bind_ok_iff ..).mp hrest
        cases hret
        exact State.closeSession_located hlocated hu
      · cases hrest
        exact hlocated
    · rename_i p hp
      split at hrest
      · cases hrest
      · rename_i s hs
        obtain ⟨⟨c,verdict⟩,hhandle,hfinish⟩ := (bind_ok_iff ..).mp hrest
        have haddr : c.addr = p := handleResult_addr hhandle
        apply finish_located _ hfinish
        change Located { engine with heap := engine.heap.set c.addr c.session, kernel := c.kernel }
        rw [haddr]
        refine hlocated.set hs (handleResult_key hhandle) ?_ c.kernel
        intro hsettled
        rcases hnames p s hp hs with hsyn | hfind
        · apply hlocated.settled p s hs
          have hstate : c.session.state = s.state :=
            congrArg (fun i => i.2.1) (handleResult_inner hhandle)
          rwa [Settled,handleResult_syn_backendFd hsyn hhandle,hstate] at hsettled
        · exact hfind

theorem drainOne_located {pe : Nat × BackendEvent} {log : List (Nat × Action)}
    (h : Located st.engine) (hrun : drainOne st pe = .ok (st',log)) : Located st'.engine := by
  unfold drainOne at hrun
  split at hrun
  · cases hrun
  · rename_i s hs
    split at hrun
    · cases hrun
      exact h
    · rename_i fd hfd
      have haddr := (onBackendEvent_acts (R := fun _ _ => True)
        (c := ⟨pe.1,s,st.engine.kernel,st.txPool,[]⟩) pe.2 hfd).addr
      have hkey := congrArg Prod.fst (Conn.onBackendEvent_inner
        ⟨pe.1,s,st.engine.kernel,st.txPool,[]⟩ fd pe.2)
      dsimp only at hrun
      generalize (Conn.onBackendEvent ⟨pe.1,s,st.engine.kernel,st.txPool,[]⟩ fd pe.2) = r
        at hrun haddr hkey
      have hstore : Located (st.store r.1).engine := by
        change Located { st.engine with
          heap := st.engine.heap.set r.1.addr r.1.session, kernel := r.1.kernel }
        rw [haddr]
        refine h.set hs hkey ?_ r.1.kernel
        intro _
        exact h.backed pe.1 s hs (by rw [hfd]; exact Option.some_ne_none fd)
      split_ifs at hrun
      · obtain ⟨u,hu,hret⟩ := (bind_ok_iff ..).mp hrun
        cases hret
        exact State.closeSession_located hstore hu
      · cases hrun
        exact hstore

/-- Every call of the worker loop keeps the sessions with a backend located. -/
theorem step_located {ev : Event} {out : Output} (h : Located st.engine)
    (hrun : step cfg st ev = .ok (st',out)) : Located st'.engine := by
  cases ev with
  | packet f => exact handleTcpPacket_located h hrun
  | backend events =>
    change drainBackendEvents cfg st events = .ok (st',out) at hrun
    unfold drainBackendEvents at hrun
    split_ifs at hrun
    · obtain ⟨⟨u,logs⟩,hdrain,hret⟩ := (bind_ok_iff ..).mp hrun
      cases hret
      exact runOut_invariant (C := fun _ _ => True) (I := fun t _ => Located t.engine)
        (fun _ _ _ _ _ hl _ hone => drainOne_located hl hone) _ st _ [] logs h
        (Along.of_forall _ _ fun _ _ => trivial) hdrain
    · cases hrun
      exact h
  | completion addrs =>
    cases hrun
    exact h

end Step

end Pipeline

end Aethon
