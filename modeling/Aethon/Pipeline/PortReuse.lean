import Aethon.Pipeline.HelloSegments
import Aethon.Pipeline.Steps
import Aethon.Transport.TcpLifetime

/-!
# A new connection on the ports of a closed one

A FIN that comes with data leaves its session in the table, in the state CLOSING. A SYN of a new
connection on the same ports is then taken for a repetition of the old one: the session stays as
it is and takes no more data. The data of the new connection is delivered exactly when the SYN
finds no session, since the sweep has removed the old one.
-/

namespace Aethon.Pipeline

open Framework TcpAssemblerEngine SingleThreadHashMap

/-- A SYN without other flags that opens a connection of `key` at `isn`. -/
structure PureSyn (key : TcpKey) (isn : BitVec 32) (f : TcpFrame) : Prop where
  headers : f.headersOk = true
  key : f.packet.key = key
  seq : f.packet.seq = isn
  syn : f.packet.has thSyn = true
  noAck : f.packet.has thAck = false
  noRst : f.packet.has thRst = false
  noFin : f.packet.has thFin = false

/-- If the packet finds a session, `process_packet` delivers exactly its bytes. -/
def HandedOver (st : State) (f : TcpFrame) : Prop :=
  Found st f → ∃ engine res, st.engine.processPacket f.call = .ok (engine,res) ∧
    res.isReady = true ∧ res.payload = f.packet.payload

/-- The SYN and the data of a new connection are processed, and every data packet that finds a
session is delivered. -/
def DeliversNew (cfg : Config) (st : State) (syn : TcpFrame) (frames : List TcpFrame) : Prop :=
  ∃ st₁ out, handleTcpPacket cfg st syn = .ok (st₁,out) ∧
    (∃ st₂ outs, runOut (handleTcpPacket cfg) st₁ frames = .ok (st₂,outs)) ∧
    Along HandedOver (handleTcpPacket cfg) st₁ frames

section Stored

variable {cfg : Config} {st st' : State} {f : TcpFrame} {out : Output}
  {engine : TcpAssemblerEngine} {res : TcpAssemblyResult}

theorem closeSession_shrinks {I : TcpKey → TcpStreamSession → Prop} {e u : TcpAssemblerEngine}
    (h : EngineWf I e) {key : TcpKey} (hclose : e.closeSession key = .ok u) : Shrinks e u := by
  have hne : key ≠ kEmptyTcpKey := by
    obtain ⟨slot,hfind,_⟩ := (bind_ok_iff ..).mp hclose
    rw [← h.emptyKey]
    exact ne_emptyKey_of_find hfind
  obtain ⟨v,hv,_,hshrinks⟩ := closeSession_ok h hne
  rw [hclose] at hv
  cases hv
  exact hshrinks

/-- A session that is stored after `st'` was stored before, with the same inner state. -/
def KeepsInner (engine : TcpAssemblerEngine) (st' : State) : Prop :=
  ∀ k q s', st'.engine.sessions.Stored k q → st'.engine.heap.mem q = some s' →
    engine.sessions.Stored k q ∧ ∃ s, engine.heap.mem q = some s ∧ s'.inner = s.inner

theorem KeepsInner.closeSession {I : TcpKey → TcpStreamSession → Prop} {key : TcpKey}
    (h : KeepsInner engine st) (hwf : EngineWf I st.engine)
    (hclose : st.closeSession key = .ok st') : KeepsInner engine st' := by
  obtain ⟨u,hu,hret⟩ := (bind_ok_iff ..).mp hclose
  cases hret
  intro k q s' hst hs'
  obtain ⟨hst',hmem⟩ := closeSession_shrinks hwf hu k q hst
  exact h k q s' hst' (hmem.symm.trans hs')

theorem finish_keepsInner {c : Conn} {verdict : Verdict} (hstore : KeepsInner engine (st.store c))
    (hwf : EngineWf (fun _ _ => True) st.engine)
    (h : finish f res st c verdict = .ok (st',out)) : KeepsInner engine st' := by
  have hwf' : EngineWf (fun _ _ => True) (st.store c).engine :=
    store_engineWf hwf fun _ _ => trivial
  cases verdict with
  | reply =>
    cases h
    exact hstore
  | silent =>
    cases h
    exact hstore
  | reset =>
    obtain ⟨u,hu,hret⟩ := (bind_ok_iff ..).mp h
    cases hret
    exact hstore.closeSession hwf' hu
  | proceed =>
    rw [finish] at h
    split_ifs at h
    · obtain ⟨u,hu,hret⟩ := (bind_ok_iff ..).mp h
      cases hret
      exact hstore.closeSession hwf' hu
    · cases h
      exact hstore

/-- What `handle_tcp_packet` does behind `process_packet` leaves the inner state of every session
that it does not close. -/
theorem handleTcpPacket_keepsInner (hwf : EngineWf (fun _ _ => True) st.engine)
    (hheaders : f.headersOk = true) (hpacket : st.engine.processPacket f.call = .ok (engine,res))
    (h : handleTcpPacket cfg st f = .ok (st',out)) : KeepsInner engine st' := by
  have hengine : EngineWf (fun _ _ => True) engine := hwf.processPacket hpacket
  have hself : KeepsInner engine { st with engine := engine } :=
    fun _ _ s' hst hs' => ⟨hst,s',hs',rfl⟩
  simp only [handleTcpPacket,hheaders,Bool.not_true,Bool.false_eq_true,if_false,hpacket,bind,
    Except.bind] at h
  split at h
  · split_ifs at h
    · obtain ⟨u,hu,hret⟩ := (bind_ok_iff ..).mp h
      cases hret
      exact hself.closeSession hengine hu
    · cases h
      exact hself
  · rename_i p hp
    split at h
    · cases h
    · rename_i s hs
      obtain ⟨⟨c,verdict⟩,hhandle,hfinish⟩ := (bind_ok_iff ..).mp h
      have haddr : c.addr = p := handleResult_addr hhandle
      refine finish_keepsInner ?_ hengine hfinish
      intro k q s' hst hs'
      refine ⟨hst,?_⟩
      change (engine.heap.set c.addr c.session).mem q = some s' at hs'
      rw [haddr] at hs'
      by_cases hq : q = p
      · subst hq
        rw [Heap.set_mem_self _ _ hs] at hs'
        cases hs'
        exact ⟨s,hs,handleResult_inner hhandle⟩
      · rw [Heap.set_mem_of_ne _ _ hq] at hs'
        exact ⟨s',hs',rfl⟩

theorem processPacket_live {e : TcpAssemblerEngine} {c : PacketCall} {p : Nat}
    (h : e.processPacket c = .ok (engine,res)) (hp : res.session = some p) :
    ∃ s, engine.heap.mem p = some s := by
  obtain ⟨t,_,hcase⟩ := processPacket_cases h
  cases hcase with
  | ignored => cases hp
  | opened =>
    cases hp
    exact ⟨_,Heap.alloc_mem_self t.heap _⟩
  | kept q s s' r _ hs =>
    cases hp
    exact ⟨s',Heap.set_mem_self t.heap s' hs⟩
  | removed => cases hp

theorem State.closeSession_total (hwf : EngineWf (fun _ _ => True) st.engine) {key : TcpKey}
    (hkey : key ≠ kEmptyTcpKey) : ∃ u, st.closeSession key = .ok u := by
  obtain ⟨e,he,_⟩ := closeSession_ok hwf hkey
  refine ⟨{ st with engine := e },?_⟩
  simp only [State.closeSession,he,bind,Except.bind]
  rfl

theorem finish_total {c : Conn} (verdict : Verdict)
    (hwf : EngineWf (fun _ _ => True) st.engine) (hkey : f.packet.key ≠ kEmptyTcpKey) :
    ∃ st' out, finish f res st c verdict = .ok (st',out) := by
  obtain ⟨u,hu⟩ := State.closeSession_total
    (store_engineWf (c := c) hwf fun _ _ => trivial) hkey
  cases verdict with
  | reply => exact ⟨_,_,rfl⟩
  | silent => exact ⟨_,_,rfl⟩
  | reset =>
    simp only [finish,hu,bind,Except.bind]
    exact ⟨_,_,rfl⟩
  | proceed =>
    rw [finish]
    split_ifs
    · simp only [hu,bind,Except.bind]
      exact ⟨_,_,rfl⟩
    · exact ⟨_,_,rfl⟩

/-- `handle_tcp_packet` returns for every packet whose key is not the empty one. -/
theorem handleTcpPacket_total (cfg : Config) (hwf : EngineWf (fun _ _ => True) st.engine)
    (hkey : f.packet.key ≠ kEmptyTcpKey) : ∃ st' out, handleTcpPacket cfg st f = .ok (st',out) := by
  by_cases hheaders : f.headersOk = true
  · obtain ⟨engine,res,hpacket⟩ := hwf.processPacket_ok (c := f.call) hkey
    have hengine : EngineWf (fun _ _ => True) engine := hwf.processPacket hpacket
    cases hp : res.session with
    | none =>
      have hclose : ∃ u, State.closeSession { st with engine := engine } f.packet.key = .ok u :=
        State.closeSession_total hengine hkey
      obtain ⟨u,hu⟩ := hclose
      simp only [handleTcpPacket,hheaders,hpacket,hp,bind,Except.bind,Bool.not_true,
        Bool.false_eq_true,if_false]
      split_ifs
      · simp only [hu]
        exact ⟨_,_,rfl⟩
      · exact ⟨_,_,rfl⟩
    | some p =>
      obtain ⟨s,hs⟩ := processPacket_live hpacket hp
      obtain ⟨c,verdict,hrun,_⟩ := handleResult_ok cfg f ⟨p,s,engine.kernel,st.txPool,[]⟩ res
      rw [handleTcpPacket_eq hheaders hpacket hp hs hrun]
      exact finish_total verdict hengine hkey
  · refine ⟨st,{},?_⟩
    simp only [handleTcpPacket,hheaders,Bool.not_false,if_true]
    rfl

end Stored

section Expecting

variable {cfg : Config} {key : TcpKey} {st st' : State} {state : TcpState} {next : BitVec 32}
  {f : TcpFrame} {segment : List UInt8} {out : Output}

/-- A session of `key`, if there is one, is in `state` and expects `next`. -/
structure Expects (key : TcpKey) (state : TcpState) (next : BitVec 32) (st : State) : Prop where
  located : st.engine.Located
  keyed : key ≠ kEmptyTcpKey
  session : ∀ p s, st.engine.sessions.Stored key p → st.engine.heap.mem p = some s →
    s.state = state ∧ s.rcvNxt = next ∧ s.outOfOrderCount = 0

theorem Located.engineWf {e : TcpAssemblerEngine} (h : e.Located) :
    EngineWf (fun _ _ => True) e := ⟨h.wf.owns.change fun _ _ _ _ _ _ => trivial,h.wf.emptyKey⟩

/-- After the sweep, a session of `key` is found, or there is none. -/
theorem sweep_cases {P : TcpStreamSession → Prop} (hlocated : st.engine.Located)
    (hkeyed : key ≠ kEmptyTcpKey)
    (hsession : ∀ p s, st.engine.sessions.Stored key p → st.engine.heap.mem p = some s → P s)
    (hkey : f.packet.key = key) (hstate : (∀ s, P s → Settled s) ∨ Found st f) :
    ∃ t, st.engine.cleanup f.call.nowNs = .ok t ∧ t.Located ∧
      ((∀ p, ¬ t.sessions.Stored key p) ∧ t.sessions.find key = .ok none ∨
        ∃ p s, t.sessions.find key = .ok (some p) ∧ t.heap.mem p = some s ∧ P s) := by
  obtain ⟨t,ht,hwf,hshrinks⟩ := hlocated.wf.cleanup f.call.nowNs
  have hswept := hlocated.cleanup ht
  refine ⟨t,ht,hswept,?_⟩
  obtain ⟨slot,hfind⟩ := t.sessions.find_ok key (by rw [hwf.emptyKey]; exact hkeyed)
  cases slot with
  | none =>
    refine Or.inl ⟨?_,hfind⟩
    intro p hst
    obtain ⟨s,hs,hskey⟩ := hwf.owns.live key p hst
    rcases hstate with hsettled | ⟨s₁,t',q,ht',hfind',_⟩
    · obtain ⟨hbefore,hmem⟩ := hshrinks key p hst
      have hexpected := hsession p s hbefore (hmem.symm.trans hs)
      have hfound := hswept.settled p s hs (hsettled s hexpected)
      rw [hskey,hfind] at hfound
      cases hfound
    · rw [ht] at ht'
      cases ht'
      change t.sessions.find f.packet.key = _ at hfind'
      rw [hkey,hfind] at hfind'
      cases hfind'
  | some p =>
    have hst := hwf.owns.wf.find_stored hfind
    obtain ⟨s,hs,_⟩ := hwf.owns.live key p hst
    obtain ⟨hbefore,hmem⟩ := hshrinks key p hst
    exact Or.inr ⟨p,s,hfind,hs,hsession p s hbefore (hmem.symm.trans hs)⟩

/-- A packet sweeps the table, takes one of the four ways, and is handled. -/
theorem handleTcpPacket_stepCase (hlocated : st.engine.Located) (hheaders : f.headersOk = true)
    (hkey : f.packet.key ≠ kEmptyTcpKey) (hrun : handleTcpPacket cfg st f = .ok (st',out)) :
    ∃ t engine res, st.engine.cleanup f.call.nowNs = .ok t ∧
      st.engine.processPacket f.call = .ok (engine,res) ∧ StepCase t f.call engine res ∧
      KeepsInner engine st' := by
  have hwf := Located.engineWf hlocated
  obtain ⟨engine,res,hpacket⟩ := hwf.processPacket_ok (c := f.call) hkey
  obtain ⟨t,ht,hcase⟩ := processPacket_cases hpacket
  exact ⟨t,engine,res,ht,hpacket,hcase,handleTcpPacket_keepsInner hwf hheaders hpacket hrun⟩

/-- A data packet in order is delivered, and the session then expects the byte behind it. -/
theorem Expects.data (h : Expects key state next st) (hf : DataFrame key next segment f)
    (hne : segment ≠ []) (hstate : state = .established ∨ state = .synSent ∧ Found st f)
    (hrun : handleTcpPacket cfg st f = .ok (st',out)) :
    HandedOver st f ∧
      Expects key .established (next + BitVec.ofNat 32 segment.length) st' := by
  have hwf := Located.engineWf h.located
  obtain ⟨t,ht,_,hcase⟩ := sweep_cases h.located h.keyed h.session hf.key (by
    rcases hstate with hest | hfound
    · exact Or.inl fun s hs => Or.inr (by rw [hs.1,hest]; decide)
    · exact Or.inr hfound.2)
  obtain ⟨t',engine,res,ht',hpacket,hstep,hkeeps⟩ := handleTcpPacket_stepCase h.located hf.headers
    (by rw [hf.key]; exact h.keyed) hrun
  rw [ht] at ht'
  cases ht'
  rcases hcase with ⟨hnone,hfind⟩ | ⟨p,s,hfind,hs,hs₁,hs₂,hs₃⟩
  · refine ⟨?_,handleTcpPacket_located h.located hrun,h.keyed,?_⟩
    · rintro ⟨s₁,t',q,ht',hfind',_⟩
      rw [ht] at ht'
      cases ht'
      change t.sessions.find f.packet.key = _ at hfind'
      rw [hf.key,hfind] at hfind'
      cases hfind'
    · intro q s' hst hs'
      obtain ⟨hstored,_⟩ := hkeeps key q s' hst hs'
      have hfind' : t.sessions.find f.call.packet.key = .ok none := by
        change t.sessions.find f.packet.key = _
        rw [hf.key]
        exact hfind
      cases hstep with
      | ignored => exact absurd hstored (hnone q)
      | opened _ _ hsyn => cases hf.noSyn.symm.trans hsyn
      | kept _ _ _ _ hsome =>
        rw [hfind'] at hsome
        cases hsome
      | removed _ _ _ _ hsome =>
        rw [hfind'] at hsome
        cases hsome
  · have htakes : s.takesData f.packet = true := by
      rcases hstate with rfl | ⟨rfl,_⟩
      · simp [TcpStreamSession.takesData,hf.noRst,hf.noSyn,hs₁]
      · simp [TcpStreamSession.takesData,hf.noRst,hf.noSyn,hf.ack,hs₁]
    have hpos : 0 < f.packet.payload.length := by
      rw [hf.payload]
      exact List.length_pos_of_ne_nil hne
    have hon := onPacket_inOrder f.call.nowNs f.call.garbage htakes hf.noFin hs₃
      (hf.seq.trans hs₂.symm) hpos
    obtain ⟨t',ht',hwf',hshrinks⟩ := hwf.cleanup f.call.nowNs
    rw [ht] at ht'
    cases ht'
    obtain ⟨hbefore,hmem⟩ := hshrinks key p (hwf'.owns.wf.find_stored hfind)
    have hserving : Serving key p st s := ⟨hwf,hbefore,hmem.symm.trans hs⟩
    have hmeets : st.engine.Meets f.call s := by
      refine ⟨t,p,ht,?_,hs⟩
      change t.sessions.find f.packet.key = _
      rw [hf.key]
      exact hfind
    obtain ⟨t',_,_,hpacket',hserved⟩ := hserving.processPacket hf.key hmeets
      (not_refused hf.noSyn) hon
    rw [hpacket] at hpacket'
    cases hpacket'
    refine ⟨fun _ => ⟨_,_,hpacket,rfl,rfl⟩,handleTcpPacket_located h.located hrun,h.keyed,?_⟩
    intro q s' hst hs'
    obtain ⟨hstored,s₁,hs₁',hinner⟩ := hkeeps key q s' hst hs'
    have hq : q = p := hserved.wf.owns.wf.stored_unique hstored hserved.stored
    subst hq
    cases hserved.mem.symm.trans hs₁'
    refine ⟨congrArg (fun i => i.2.1) hinner,?_,?_⟩
    · refine (congrArg (fun i => i.2.2.2.2.1) hinner).trans ?_
      change s.rcvNxt + BitVec.ofNat 32 f.packet.payload.length = _
      rw [hs₂,hf.payload]
    · exact (congrArg (fun i => i.2.2.1) hinner).trans hs₃

/-- The data of the new connection is delivered, packet after packet. -/
theorem Expects.run (cfg : Config) (segments : List (List UInt8)) :
    ∀ {st : State} {next : BitVec 32} {frames : List TcpFrame},
      Expects key .established next st → Carries key next frames segments →
      (∀ segment ∈ segments, segment ≠ []) →
      (∃ st₂ outs, runOut (handleTcpPacket cfg) st frames = .ok (st₂,outs)) ∧
        Along HandedOver (handleTcpPacket cfg) st frames := by
  induction segments with
  | nil =>
    intro st next frames _ hcarry _
    cases frames with
    | nil => exact ⟨⟨st,[],rfl⟩,trivial⟩
    | cons f frames => exact hcarry.elim
  | cons segment segments ih =>
    intro st next frames h hcarry hne
    cases frames with
    | nil => exact hcarry.elim
    | cons f frames =>
      obtain ⟨hf,hrest⟩ := hcarry
      obtain ⟨st',out,hstep⟩ := handleTcpPacket_total cfg (Located.engineWf h.located)
        (by rw [hf.key]; exact h.keyed)
      obtain ⟨hover,hnext⟩ := h.data hf (hne segment (by simp)) (Or.inl rfl) hstep
      obtain ⟨⟨st₂,outs,hrun⟩,halong⟩ := ih hnext hrest fun x hx => hne x (by simp [hx])
      refine ⟨⟨st₂,_,(runOut_cons ..).mpr ⟨_,_,_,hstep,hrun,rfl⟩⟩,hover,?_⟩
      intro u b hu
      rw [hstep] at hu
      cases hu
      exact halong

end Expecting

section Reuse

variable {cfg : Config} {key : TcpKey} {isn : BitVec 32} {st st' : State} {syn f : TcpFrame}
  {segment : List UInt8} {out : Output}

/-- A session of `key`, if there is one, is in CLOSING. -/
structure Lingers (key : TcpKey) (st : State) : Prop where
  located : st.engine.Located
  keyed : key ≠ kEmptyTcpKey
  session : ∀ p s, st.engine.sessions.Stored key p → st.engine.heap.mem p = some s →
    s.state = .closing

theorem settled_of_closing {s : TcpStreamSession} (h : s.state = .closing) : Settled s :=
  Or.inr (by rw [h]; decide)

theorem lingers_of_closing {p : Nat} {s : TcpStreamSession} (hlocated : st.engine.Located)
    (hs : st.engine.heap.mem p = some s) (hclosing : s.state = .closing) : Lingers s.key st := by
  have hfind := hlocated.settled p s hs (settled_of_closing hclosing)
  have hst := hlocated.wf.owns.wf.find_stored hfind
  refine ⟨hlocated,?_,?_⟩
  · rw [← hlocated.wf.emptyKey]
    exact hst.ne_emptyKey
  · intro q r hq hr
    cases hlocated.wf.owns.wf.stored_unique hq hst
    rw [hs] at hr
    cases hr
    exact hclosing

theorem found_iff {t : TcpAssemblerEngine} (ht : st.engine.cleanup f.call.nowNs = .ok t)
    (hwf : EngineWf (fun _ _ => True) t) (hkey : f.packet.key = key) :
    Found st f ↔ ∃ p, t.sessions.find key = .ok (some p) := by
  constructor
  · rintro ⟨s,t',p,ht',hfind,_⟩
    rw [ht] at ht'
    cases ht'
    exact ⟨p,hkey ▸ hfind⟩
  · rintro ⟨p,hfind⟩
    obtain ⟨s,hs,_⟩ := hwf.owns.live key p (hwf.owns.wf.find_stored hfind)
    exact ⟨s,t,p,ht,hkey.symm ▸ hfind,hs⟩

/-- A SYN that finds no session opens one, if any, for the new connection. -/
theorem Lingers.opens (h : Lingers key st) (hsyn : PureSyn key isn syn) (hnone : ¬ Found st syn)
    (hrun : handleTcpPacket cfg st syn = .ok (st',out)) :
    Expects key .synSent (isn + 1) st' := by
  obtain ⟨t,ht,hlocated,hcase⟩ := sweep_cases h.located h.keyed h.session hsyn.key
    (Or.inl fun _ => settled_of_closing)
  have hfound := found_iff ht (Located.engineWf hlocated) hsyn.key
  obtain ⟨t',engine,res,ht',_,hstep,hkeeps⟩ := handleTcpPacket_stepCase h.located hsyn.headers
    (by rw [hsyn.key]; exact h.keyed) hrun
  rw [ht] at ht'
  cases ht'
  rcases hcase with ⟨hempty,hfind⟩ | ⟨p,_,hfind,_⟩
  · refine ⟨handleTcpPacket_located h.located hrun,h.keyed,?_⟩
    intro q s' hst hs'
    obtain ⟨hstored,s₁,hs₁,hinner⟩ := hkeeps key q s' hst hs'
    have hfind' : t.sessions.find syn.call.packet.key = .ok none := by
      change t.sessions.find syn.packet.key = _
      rw [hsyn.key]
      exact hfind
    cases hstep with
    | ignored => exact absurd hstored (hempty q)
    | opened m b _ hroom _ hput =>
      obtain ⟨b',m',hput',_,hiff,_⟩ := (Located.engineWf hlocated).owns.insert
        (J := fun _ _ => True) (a := .opened syn.call.packet syn.call.nowNs)
        (ne_emptyKey_of_find hfind') hroom (fun _ _ _ _ => trivial) trivial
      rw [hput] at hput'
      cases hput'
      rcases (hiff key q).mp hstored with ⟨_,rfl⟩ | ⟨hother,_⟩
      · have hnew : (t.heap.alloc (.opened syn.call.packet syn.call.nowNs)).2.mem t.heap.next =
            some (.opened syn.call.packet syn.call.nowNs) := Heap.alloc_mem_self t.heap _
        cases hnew.symm.trans hs₁
        refine ⟨congrArg (fun i => i.2.1) hinner,?_,congrArg (fun i => i.2.2.1) hinner⟩
        rw [← hsyn.seq]
        exact congrArg (fun i => i.2.2.2.2.1) hinner
      · exact absurd hsyn.key.symm hother
    | kept _ _ _ _ hsome =>
      rw [hfind'] at hsome
      cases hsome
    | removed _ _ _ _ hsome =>
      rw [hfind'] at hsome
      cases hsome
  · exact absurd (hfound.mpr ⟨p,hfind⟩) hnone

theorem onPacket_syn {s : TcpStreamSession} {pkt : TcpPacket} {nowNs : BitVec 64}
    {garbage : Nat → UInt8} (hrst : pkt.has thRst = false) (hsyn : pkt.has thSyn = true) :
    s.onPacket pkt nowNs garbage = (some { s with lastSeenNs := nowNs },{ isSyn := true }) := by
  simp [TcpStreamSession.onPacket,hrst,hsyn]

/-- A SYN that finds the old session leaves it in CLOSING. -/
theorem Lingers.stays (h : Lingers key st) (hsyn : PureSyn key isn syn) (hfound : Found st syn)
    (hrun : handleTcpPacket cfg st syn = .ok (st',out)) : Lingers key st' := by
  obtain ⟨t,engine,res,ht,_,hstep,hkeeps⟩ := handleTcpPacket_stepCase h.located hsyn.headers
    (by rw [hsyn.key]; exact h.keyed) hrun
  obtain ⟨t',ht',hwf,hshrinks⟩ := (Located.engineWf h.located).cleanup syn.call.nowNs
  rw [ht] at ht'
  cases ht'
  have hlinger : ∀ p s, t.sessions.Stored key p → t.heap.mem p = some s → s.state = .closing := by
    intro p s hst hs
    obtain ⟨hbefore,hmem⟩ := hshrinks key p hst
    exact h.session p s hbefore (hmem.symm.trans hs)
  refine ⟨handleTcpPacket_located h.located hrun,h.keyed,?_⟩
  intro q s' hst hs'
  obtain ⟨hstored,s₁,hs₁,hinner⟩ := hkeeps key q s' hst hs'
  refine (congrArg (fun i => i.2.1) hinner).trans ?_
  change s₁.state = .closing
  cases hstep with
  | ignored => exact hlinger q s₁ hstored hs₁
  | opened _ _ _ _ hnone =>
    obtain ⟨p,hfind⟩ := (found_iff ht hwf rfl).mp hfound
    cases hfind.symm.trans hnone
  | kept p s s₂ r hfind hs hon =>
    cases (onPacket_syn hsyn.noRst hsyn.syn).symm.trans hon
    have hst₀ := hwf.owns.wf.find_stored hfind
    rw [show syn.call.packet.key = key from hsyn.key] at hst₀
    cases hwf.owns.wf.stored_unique hstored hst₀
    rw [show (t.heap.set q { s with lastSeenNs := syn.call.nowNs }).mem q = _ from
      Heap.set_mem_self t.heap _ hs] at hs₁
    cases hs₁
    exact hlinger q s hstored hs
  | removed p s r v hfind hs hon hdel =>
    cases (onPacket_syn hsyn.noRst hsyn.syn).symm.trans hon

/-- Data that finds the old session is not delivered. -/
theorem Lingers.withholds {seq : BitVec 32} (h : Lingers key st) (hf : DataFrame key seq segment f)
    (hfound : Found st f) : ¬ HandedOver st f := by
  intro hover
  obtain ⟨engine,res,hpacket,hready,_⟩ := hover hfound
  obtain ⟨s,t,p,ht,hfind,hs⟩ := hfound
  obtain ⟨t',ht',hwf,hshrinks⟩ := (Located.engineWf h.located).cleanup f.call.nowNs
  rw [ht] at ht'
  cases ht'
  have hst := hwf.owns.wf.find_stored hfind
  rw [show f.call.packet.key = key from hf.key] at hst
  obtain ⟨hbefore,hmem⟩ := hshrinks key p hst
  have hclosing := h.session p s hbefore (hmem.symm.trans hs)
  have hmeets : st.engine.Meets f.call s := ⟨t,p,ht,hfind,hs⟩
  have hon : s.onPacket f.call.packet f.call.nowNs f.call.garbage =
      (some { s with lastSeenNs := f.call.nowNs },{}) := by
    have hrst : f.call.packet.has thRst = false := hf.noRst
    have hsyn : f.call.packet.has thSyn = false := hf.noSyn
    simp [TcpStreamSession.onPacket,hrst,hsyn,hclosing]
  obtain ⟨u,q,hpacket',_⟩ := hmeets.kept (Located.engineWf h.located) (not_refused hf.noSyn) hon
  rw [hpacket] at hpacket'
  cases hpacket'
  cases hready

/-- Unless it is due and the session is old, the sweep leaves a session that lingers. -/
theorem found_of_not_swept {p : Nat} {s : TcpStreamSession} (hlocated : st.engine.Located)
    (hs : st.engine.heap.mem p = some s) (hclosing : s.state = .closing)
    (hkey : syn.packet.key = s.key)
    (h : ¬ (syn.call.nowNs - st.engine.lastCleanupNs > tcpCleanupIntervalNs ∧
      isExpired syn.call.nowNs s = true)) : Found st syn := by
  obtain ⟨t,ht,hwf,_⟩ := (Located.engineWf hlocated).cleanup syn.call.nowNs
  have hmem : t.heap.mem p = some s := by
    by_cases hdue : syn.call.nowNs - st.engine.lastCleanupNs > tcpCleanupIntervalNs
    · have hfresh : isExpired syn.call.nowNs s ≠ true := fun hexp => h ⟨hdue,hexp⟩
      refine cleanup_preserves (P := fun v => v.heap.mem p = some s) ?_ (fun _ hv => hv) hs ht
      intro v k q r v' hv hr hexpired hdel
      rw [deleteSession_heap hdel]
      have hq : p ≠ q := by
        rintro rfl
        rw [hv] at hr
        cases hr
        exact hfresh hexpired
      rw [Heap.free_mem_of_ne v.heap hq]
      exact hv
    · rw [TcpAssemblerEngine.cleanup,if_neg hdue] at ht
      cases ht
      exact hs
  have hfind := (hlocated.cleanup ht).settled p s hmem (settled_of_closing hclosing)
  exact ⟨s,t,p,ht,hkey.symm ▸ hfind,hmem⟩

end Reuse

/-- The data of a new connection on the ports of a session in CLOSING is delivered exactly when
its SYN finds no session, which takes a sweep that is due and a session that has expired. -/
theorem port_reuse_iff (cfg : Config) (st : State) (hreached : Reached cfg st) (p : Nat)
    (s : TcpStreamSession) (hs : st.engine.heap.mem p = some s) (hclosing : s.state = .closing)
    (isn : BitVec 32) (syn : TcpFrame) (hsyn : PureSyn s.key isn syn) (frames : List TcpFrame)
    (segments : List (List UInt8)) (hcarry : Carries s.key (isn + 1) frames segments)
    (hne : ∀ segment ∈ segments, segment ≠ [])
    (hfound : ∀ st₁ out, handleTcpPacket cfg st syn = .ok (st₁,out) →
      ∃ f ∈ frames.head?, Found st₁ f) :
    (DeliversNew cfg st syn frames ↔ ¬ Found st syn) ∧
      (¬ Found st syn → syn.call.nowNs - st.engine.lastCleanupNs > tcpCleanupIntervalNs ∧
        isExpired syn.call.nowNs s = true) := by
  have hlocated : st.engine.Located := by
    obtain ⟨txPool,events,outs,hrun⟩ := hreached
    exact run_located new_located hrun
  have hlingers := lingers_of_closing hlocated hs hclosing
  obtain ⟨st₁,out,hstep⟩ := handleTcpPacket_total cfg (f := syn) (Located.engineWf hlocated)
    (by rw [hsyn.key]; exact hlingers.keyed)
  obtain ⟨f,hf,hmet⟩ := hfound st₁ out hstep
  cases frames with
  | nil => cases hf
  | cons f' frames =>
    cases hf
    cases segments with
    | nil => exact hcarry.elim
    | cons segment segments =>
      obtain ⟨hdata,hrest⟩ := hcarry
      refine ⟨⟨?_,?_⟩,?_⟩
      · rintro ⟨st₁',out',hstep',_,halong⟩ hold
        rw [hstep] at hstep'
        cases hstep'
        exact (hlingers.stays hsyn hold hstep).withholds hdata hmet halong.1
      · intro hnone
        have hopens := hlingers.opens hsyn hnone hstep
        obtain ⟨st₂,out₂,hnext⟩ := handleTcpPacket_total cfg (f := f)
          (Located.engineWf hopens.located) (by rw [hdata.key]; exact hlingers.keyed)
        obtain ⟨hover,hexpects⟩ := hopens.data hdata (hne segment (by simp)) (Or.inr ⟨rfl,hmet⟩)
          hnext
        have hlater := Expects.run cfg segments hexpects hrest fun x hx => hne x (by simp [hx])
        obtain ⟨⟨st₃,outs,hrun⟩,halong⟩ := hlater
        refine ⟨st₁,out,hstep,⟨st₃,_,(runOut_cons ..).mpr ⟨_,_,_,hnext,hrun,rfl⟩⟩,hover,?_⟩
        intro u b hu
        rw [hnext] at hu
        cases hu
        exact halong
      · intro hnone
        by_contra hkept
        exact hnone (found_of_not_swept hlocated hs hclosing hsyn.key hkept)

section Setting

/-- A FIN with a byte of data, which is forwarded and acknowledged. -/
def finFrame : TcpFrame :=
  { byteFrame (thFin ||| thAck) 1 5 with backend := { socket := some 7 } }

def closedFrames : List TcpFrame :=
  [emptyFrame thSyn 0,emptyFrame thAck 1,finFrame]

def lingeringState : State :=
  match runOut (handleTcpPacket mixedConfig) (State.new []) closedFrames with
  | .ok (st,_) => st
  | .error _ => .new []

def lingeringSession : TcpStreamSession :=
  (lingeringState.engine.heap.mem 1).getD TcpAssemblerEngine.sampleStart

/-- The SYN of a new connection on the same ports. -/
def newSyn : TcpFrame := emptyFrame thSyn 5000

theorem newSyn_pure : PureSyn lingeringSession.key 5000 newSyn := by
  constructor <;> decide +kernel

theorem newSyn_found : Found lingeringState newSyn :=
  ⟨lingeringSession,_,1,rfl,rfl,rfl⟩

/-- The data of the new connection. -/
def newFrames : List TcpFrame := [segmentFrame 5001 [9]]

theorem newFrames_carries : Carries lingeringSession.key (5000 + 1) newFrames [[9]] :=
  ⟨segmentFrame_data (by decide),trivial⟩

theorem newFrames_found (st₁ : State) (out : Output)
    (h : handleTcpPacket mixedConfig lingeringState newSyn = .ok (st₁,out)) :
    ∃ f ∈ newFrames.head?, Found st₁ f := by
  obtain ⟨st₂,out₂,hrun,hsteady,s,hs⟩ : ∃ st₂ out₂,
      handleTcpPacket mixedConfig lingeringState newSyn = .ok (st₂,out₂) ∧ Steady st₂ ∧
      ∃ s, st₂.engine.heap.mem 1 = some s := ⟨_,_,rfl,⟨rfl,rfl⟩,_,rfl⟩
  rw [h] at hrun
  cases hrun
  exact ⟨_,rfl,s,hsteady.found 5001 (by decide) hs⟩

end Setting

theorem port_reuse_iff_lingering :
    Found lingeringState newSyn ∧ ¬ DeliversNew mixedConfig lingeringState newSyn newFrames := by
  have hiff := (port_reuse_iff mixedConfig lingeringState
    ⟨[],closedFrames.map .packet,_,rfl⟩ 1 lingeringSession rfl rfl 5000 newSyn newSyn_pure newFrames
    [[9]] newFrames_carries (by decide) newFrames_found).1
  exact ⟨newSyn_found,fun h => hiff.mp h newSyn_found⟩

/-- The bytes of a new connection are not delivered while the old session is in CLOSING. -/
theorem reuse_not_delivered :
    ¬ ∀ (cfg : Config) (txPool : List Nat) (earlier : List TcpFrame) (st : State)
      (outs : List Output), runOut (handleTcpPacket cfg) (State.new txPool) earlier = .ok (st,outs) →
      ∀ p s, st.engine.heap.mem p = some s → s.state = .closing →
      ∀ isn syn, PureSyn s.key isn syn →
      ∀ frames segments, Carries s.key (isn + 1) frames segments →
      (∀ segment ∈ segments, segment ≠ []) →
      (∀ st₁ out, handleTcpPacket cfg st syn = .ok (st₁,out) →
        ∃ f ∈ frames.head?, Found st₁ f) →
      DeliversNew cfg st syn frames := by
  intro hall
  have hdelivers := hall mixedConfig [] closedFrames lingeringState _ rfl 1 lingeringSession rfl rfl
    5000 newSyn newSyn_pure newFrames [[9]] newFrames_carries (by decide) newFrames_found
  obtain ⟨st₁,out,hstep,_,halong⟩ := hdelivers
  obtain ⟨f,hf,hfound⟩ := newFrames_found st₁ out hstep
  cases hf
  have hlingers : Lingers lingeringSession.key lingeringState :=
    lingers_of_closing (run_located new_located (show runOut (step mixedConfig) (State.new [])
      (closedFrames.map .packet) = .ok (lingeringState,_) from rfl)) (p := 1) rfl rfl
  exact (hlingers.stays newSyn_pure newSyn_found hstep).withholds newFrames_carries.1 hfound halong.1

end Aethon.Pipeline
