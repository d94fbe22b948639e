import Aethon.Pipeline.Acts
import Aethon.Transport.TcpRun

/-!
# Handling always returns

The parser, the registry and the maps never fault, so the handling of a result always returns.
It leaves alone the part of the session that the assembler works on, and the calls keep the
session table and the heap in step.
-/

namespace Aethon

open Framework SingleThreadHashMap

/-- The assembler's update of a session leaves alone what belongs to the pipeline. -/
structure TcpStreamSession.SameOuter (s t : TcpStreamSession) : Prop where
  key : t.key = s.key
  tlsStatus : t.tlsStatus = s.tlsStatus
  backendFd : t.backendFd = s.backendFd
  backendPort : t.backendPort = s.backendPort
  backendTxBuf : t.backendTxBuf = s.backendTxBuf
  epolloutArmed : t.epolloutArmed = s.epolloutArmed
  hsStream : t.hsStream = s.hsStream
  sendNxt : t.sendNxt = s.sendNxt
  clientHelloBuf : t.clientHelloBuf = s.clientHelloBuf

namespace TcpStreamSession

theorem SameOuter.refl (s : TcpStreamSession) : s.SameOuter s :=
  ⟨rfl,rfl,rfl,rfl,rfl,rfl,rfl,rfl,rfl⟩

theorem onPacket_outer {s t : TcpStreamSession} {pkt : TcpPacket} {nowNs : BitVec 64}
    {garbage : Nat → UInt8} {res : TcpAssemblyResult}
    (h : s.onPacket pkt nowNs garbage = (some t,res)) : s.SameOuter t := by
  obtain ⟨_,_,_,_,_,rfl⟩ := onPacket_updated h
  exact ⟨rfl,rfl,rfl,rfl,rfl,rfl,rfl,rfl,rfl⟩

/-- A result with bytes comes with its session, is not that of a SYN and asks for no bare ACK. -/
def HandsOver (fate : Option TcpStreamSession) (res : TcpAssemblyResult) : Prop :=
  res.payload = [] ∨ res.isSyn = false ∧ res.needAck = false ∧ fate.isSome = true

theorem onFin_handsOver {s : TcpStreamSession} {pkt : TcpPacket} {res : TcpAssemblyResult}
    (hsyn : res.isSyn = false) (hack : res.needAck = false) :
    HandsOver (s.onFin pkt res).1 (s.onFin pkt res).2 := by
  unfold onFin
  split_ifs with hfin hempty
  · exact Or.inl (List.length_eq_zero_iff.mp hempty)
  · exact Or.inr ⟨hsyn,hack,rfl⟩
  · exact Or.inr ⟨hsyn,hack,rfl⟩

theorem onEstablished_handsOver (s : TcpStreamSession) (pkt : TcpPacket) (garbage : Nat → UInt8) :
    HandsOver (s.onEstablished pkt garbage).1 (s.onEstablished pkt garbage).2 := by
  unfold onEstablished
  split_ifs
  · split
    · exact Or.inl rfl
    · exact Or.inl rfl
    · exact Or.inl rfl
    · exact onFin_handsOver rfl rfl
  · exact onFin_handsOver rfl rfl

theorem onPacket_handsOver (s : TcpStreamSession) (pkt : TcpPacket) (nowNs : BitVec 64)
    (garbage : Nat → UInt8) :
    HandsOver (s.onPacket pkt nowNs garbage).1 (s.onPacket pkt nowNs garbage).2 := by
  unfold onPacket
  dsimp only
  split
  · exact Or.inl rfl
  · split
    · exact Or.inl rfl
    · split
      · exact Or.inl rfl
      · generalize (if s.state = _ then _ else _ : TcpStreamSession) = t
        split
        · exact Or.inl rfl
        · exact onEstablished_handsOver _ pkt garbage

end TcpStreamSession

/-- The part of a session that the assembler works on. -/
def TcpStreamSession.inner (s : TcpStreamSession) : TcpKey × TcpState × BitVec 16 × BitVec 32 ×
    BitVec 32 × BitVec 64 × TcpNegotiatedParams × Option TcpRing :=
  (s.key,s.state,s.outOfOrderCount,s.isn,s.rcvNxt,s.lastSeenNs,s.params,s.ring)

namespace Pipeline

open Tls

namespace Conn

variable (c : Conn)

@[simp] theorem emit_inner (a : Action) : (c.emit a).session.inner = c.session.inner := rfl

@[simp] theorem emitAck_inner : c.emitAck.session.inner = c.session.inner := rfl

@[simp] theorem clearHello_inner : c.clearHello.session.inner = c.session.inner := rfl

@[simp] theorem setMacs_inner (f : TcpFrame) : (c.setMacs f).session.inner = c.session.inner := rfl

@[simp] theorem setStatus_inner (status : TlsSessionStatus) :
    (c.setStatus status).session.inner = c.session.inner := rfl

@[simp] theorem scanBytes_inner (f : TcpFrame) (bytes : List UInt8) :
    (c.scanBytes f bytes).session.inner = c.session.inner := rfl

@[simp] theorem noteDelivery_inner (res : TcpAssemblyResult) :
    (c.noteDelivery res).session.inner = c.session.inner := by
  rw [noteDelivery_session]

@[simp] theorem stepHandshake_inner (io : TlsIo) :
    (c.stepHandshake io).session.inner = c.session.inner := by
  unfold stepHandshake
  split <;> rfl

@[simp] theorem routeTls_inner (io : TlsIo) (svc : Option ServiceConfig) :
    (c.routeTls io svc).session.inner = c.session.inner := by
  unfold routeTls
  split
  · split <;> rfl
  · rfl

@[simp] theorem sendTcpSegmentedData_inner (sent : Nat → Bool) (data : List UInt8) :
    (c.sendTcpSegmentedData sent data).2.session.inner = c.session.inner := by
  unfold sendTcpSegmentedData
  split <;> rfl

@[simp] theorem armEpoll_inner (epfd : Bool) (prevFd : Option Nat) :
    (c.armEpoll epfd prevFd).session.inner = c.session.inner := by
  unfold armEpoll
  split
  · dsimp only
    split_ifs <;> rfl
  · rfl

theorem backendOnly_inner {c' : Conn} (h : BackendOnly c c') :
    c'.session.inner = c.session.inner := by
  obtain ⟨_,_,_,_,_,rfl,_⟩ := h
  rfl

@[simp] theorem flushBackendTx_inner (io : BackendIo) :
    (c.flushBackendTx io).session.inner = c.session.inner :=
  backendOnly_inner c (BackendOnly.flushBackendTx c io)

@[simp] theorem forwardToBackend_inner (io : BackendIo) (data : List UInt8) (port : BitVec 16) :
    (c.forwardToBackend io data port).2.session.inner = c.session.inner :=
  backendOnly_inner c (BackendOnly.forwardToBackend c io data port)

@[simp] theorem answerTls_inner (f : TcpFrame) :
    (answerTls f c).session.inner = c.session.inner := by
  unfold answerTls
  split <;> simp

@[simp] theorem disarmEpoll_inner (fd : Nat) :
    (c.disarmEpoll fd).session.inner = c.session.inner := by
  unfold disarmEpoll
  split_ifs <;> rfl

@[simp] theorem announceWindow_inner (ev : BackendEvent) (oldWin newWin : Nat) :
    (c.announceWindow ev oldWin newWin).session.inner = c.session.inner := by
  unfold announceWindow
  split
  · rfl
  · split_ifs <;> rfl

@[simp] theorem onWritable_inner (fd : Nat) (ev : BackendEvent) :
    (c.onWritable fd ev).session.inner = c.session.inner := by
  simp [onWritable]

@[simp] theorem onReadable_inner (ev : BackendEvent) :
    (c.onReadable ev).1.session.inner = c.session.inner := by
  unfold onReadable
  split
  · rfl
  · rfl
  · dsimp only
    split_ifs <;> simp

@[simp] theorem hangUp_inner (fd : Nat) (ev : BackendEvent) :
    (c.hangUp fd ev).session.inner = c.session.inner := by
  unfold hangUp
  dsimp only
  split
  · rfl
  · split_ifs <;> rfl

@[simp] theorem onBackendEvent_inner (fd : Nat) (ev : BackendEvent) :
    (c.onBackendEvent fd ev).1.session.inner = c.session.inner := by
  have hout : (if ev.epollOut then c.onWritable fd ev else c).session.inner =
      c.session.inner := by
    split_ifs
    · exact onWritable_inner c fd ev
    · rfl
  unfold onBackendEvent
  generalize (if ev.epollOut then c.onWritable fd ev else c) = d at hout ⊢
  have hin : (if ev.epollIn then d.onReadable ev else (d,false)).1.session.inner =
      c.session.inner := by
    split_ifs
    · exact (onReadable_inner d ev).trans hout
    · exact hout
  dsimp only
  generalize (if ev.epollIn then d.onReadable ev else (d,false)) = r at hin ⊢
  split
  · exact (hangUp_inner _ fd ev).trans hin
  · exact hin

end Conn

/-- What becomes of delivered bytes does not depend on the part of the session that the
assembler works on. -/
theorem holdHello_outer {s s' t' : TcpStreamSession} {payload hello : List UInt8}
    (hsame : s.SameOuter s') (h : holdHello s' payload = .pass t' hello) :
    ∃ t, holdHello s payload = .pass t hello := by
  unfold holdHello at h ⊢
  rw [hsame.tlsStatus,hsame.clientHelloBuf] at h
  dsimp only at h ⊢
  split_ifs at h ⊢
  · cases h
    exact ⟨_,rfl⟩
  · cases h
    exact ⟨_,rfl⟩
  · cases h
    exact ⟨_,rfl⟩

section Handling

variable {cfg : Config} {f : TcpFrame} {c c' : Conn} {verdict : Verdict}

theorem targetPort_ok (cfg : Config) (f : TcpFrame) (s : TcpStreamSession) :
    ∃ port, targetPort cfg f s = .ok port := by
  unfold targetPort
  split_ifs
  · obtain ⟨svc,hsvc⟩ := cfg.registry.findByIpPort_ok f.packet.daddr (ntohs f.packet.dest)
    rw [hsvc]
    cases svc with
    | none => exact ⟨0,rfl⟩
    | some svc => exact ⟨svc.backendPort,rfl⟩
  · exact ⟨s.backendPort,rfl⟩

/-- Relaying returns and leaves the assembler's part alone. -/
theorem relay_ok (cfg : Config) (f : TcpFrame) (c : Conn) (bytes : List UInt8) :
    ∃ c' verdict, relay cfg f c bytes = .ok (c',verdict) ∧
      c'.session.inner = c.session.inner := by
  obtain ⟨port,hport⟩ := targetPort_ok cfg f c.session
  have hforward := ((c.emit (.target port)).emit (.forward port bytes)).forwardToBackend_inner
    f.backend bytes port
  unfold relay
  rw [hport]
  simp only [bind,Except.bind]
  split_ifs
  · split
    · rename_i d hd
      rw [hd] at hforward
      exact ⟨_,_,rfl,hforward⟩
    · rename_i d hd
      rw [hd] at hforward
      refine ⟨_,_,rfl,?_⟩
      rw [Conn.emitAck_inner,Conn.armEpoll_inner,Conn.clearHello_inner]
      exact hforward
  · exact ⟨_,_,rfl,rfl⟩

theorem inspect_ok (cfg : Config) (f : TcpFrame) (c : Conn) (bytes : List UInt8) :
    ∃ c' verdict, inspect cfg f c bytes = .ok (c',verdict) ∧
      c'.session.inner = c.session.inner := by
  unfold inspect
  dsimp only
  split_ifs
  · exact ⟨_,_,rfl,rfl⟩
  · obtain ⟨c',verdict,hrun,hinner⟩ := relay_ok cfg f (c.scanBytes f bytes) bytes
    exact ⟨c',verdict,hrun,hinner⟩

theorem tlsData_ok (cfg : Config) (f : TcpFrame) (c : Conn) :
    ∃ c' verdict, tlsData cfg f c = .ok (c',verdict) ∧ c'.session.inner = c.session.inner := by
  unfold tlsData
  split_ifs
  · split
    · rename_i b bytes _
      obtain ⟨d,verdict,hrun,hinner⟩ := inspect_ok cfg f c (b :: bytes)
      rw [hrun]
      cases verdict with
      | proceed => exact ⟨_,_,rfl,by rw [Conn.answerTls_inner]; exact hinner⟩
      | reply => exact ⟨_,_,rfl,hinner⟩
      | reset => exact ⟨_,_,rfl,hinner⟩
      | silent => exact ⟨_,_,rfl,hinner⟩
    · exact ⟨_,_,rfl,by simp⟩
    · exact ⟨_,_,rfl,by simp⟩
    · exact ⟨_,_,rfl,by simp⟩
    · exact ⟨_,_,rfl,by simp⟩
  · exact ⟨_,_,rfl,by simp⟩

theorem tlsPath_ok (cfg : Config) (f : TcpFrame) (c : Conn) (hello : List UInt8) :
    ∃ c' verdict, tlsPath cfg f c hello = .ok (c',verdict) ∧
      c'.session.inner = c.session.inner := by
  unfold tlsPath
  dsimp only
  split
  · split
    · exact ⟨_,_,rfl,by simp⟩
    · obtain ⟨c',verdict,hrun,hinner⟩ :=
        tlsData_ok cfg f ((c.emit (.feed hello)).clearHello.stepHandshake f.tls)
      exact ⟨c',verdict,hrun,by rw [hinner]; simp⟩
  · exact tlsData_ok cfg f ((c.emit (.feed hello)).clearHello)

theorem dispatch_ok (cfg : Config) (f : TcpFrame) (c : Conn) (hello : List UInt8) :
    ∃ c' verdict, dispatch cfg f c hello = .ok (c',verdict) ∧
      c'.session.inner = c.session.inner := by
  unfold dispatch
  split_ifs
  · exact tlsPath_ok cfg f c hello
  · exact inspect_ok cfg f c hello

theorem selectService_ok (cfg : Config) (f : TcpFrame) (sni : List UInt8) :
    ∃ svc, selectService cfg f sni = .ok svc := by
  obtain ⟨svc,hsvc⟩ := cfg.registry.findByDomain_ok sni
  unfold selectService
  rw [hsvc]
  cases svc with
  | none => exact cfg.registry.findByIpPort_ok f.packet.daddr (ntohs f.packet.dest)
  | some svc => exact ⟨some svc,rfl⟩

theorem applyPolicy_ok (cfg : Config) (f : TcpFrame) (c : Conn) (hello : List UInt8) :
    ∃ c' verdict, applyPolicy cfg f c hello = .ok (c',verdict) ∧
      c'.session.inner = c.session.inner := by
  obtain ⟨info,hinfo,_⟩ := parseClientHello_ok hello
  unfold applyPolicy
  rw [hinfo]
  simp only [bind,Except.bind]
  split
  · split
    · exact ⟨_,_,rfl,rfl⟩
    · obtain ⟨svc,hsvc⟩ := selectService_ok cfg f (info.sni hello)
      rw [hsvc]
      obtain ⟨c',verdict,hrun,hinner⟩ :=
        dispatch_ok cfg f ((c.routeTls f.tls svc).setMacs f) hello
      exact ⟨c',verdict,hrun,by rw [hinner]; simp⟩
  · exact dispatch_ok cfg f c hello

theorem handleReady_ok (cfg : Config) (f : TcpFrame) (c : Conn) (payload : List UInt8) :
    ∃ c' verdict, handleReady cfg f c payload = .ok (c',verdict) ∧
      c'.session.inner = c.session.inner := by
  unfold handleReady
  split
  · exact ⟨_,_,rfl,rfl⟩
  · rename_i t ht
    refine ⟨_,_,rfl,?_⟩
    rw [Conn.emitAck_inner,holdHello_session (Or.inl ht)]
    rfl
  · rename_i t hello ht
    obtain ⟨c',verdict,hrun,hinner⟩ := applyPolicy_ok cfg f { c with session := t } hello
    refine ⟨c',verdict,hrun,?_⟩
    rw [hinner,holdHello_session (Or.inr ⟨hello,ht⟩)]
    rfl

/-- Handling a result returns and leaves the assembler's part alone. -/
theorem handleResult_ok (cfg : Config) (f : TcpFrame) (c : Conn) (res : TcpAssemblyResult) :
    ∃ c' verdict, handleResult cfg f c res = .ok (c',verdict) ∧
      c'.session.inner = c.session.inner := by
  unfold handleResult
  dsimp only
  split_ifs
  · refine ⟨_,_,rfl,?_⟩
    rw [Conn.emit_inner,← c.noteDelivery_inner res]
    rfl
  · exact ⟨_,_,rfl,by simp⟩
  · obtain ⟨c',verdict,hrun,hinner⟩ := handleReady_ok cfg f (c.noteDelivery res) res.payload
    exact ⟨c',verdict,hrun,by rw [hinner]; simp⟩
  · exact ⟨_,_,rfl,by simp⟩

theorem handleResult_inner {res : TcpAssemblyResult}
    (h : handleResult cfg f c res = .ok (c',verdict)) :
    c'.session.inner = c.session.inner := by
  obtain ⟨d,v,hrun,hinner⟩ := handleResult_ok cfg f c res
  rw [h] at hrun
  cases hrun
  exact hinner

theorem Act.addr {R : TcpStreamSession → Tls.ServiceConfig → Prop} {c c' : Conn}
    (h : Act R c c') : c'.addr = c.addr := by
  cases h with
  | calm h => exact h.addr
  | forward io bytes port => exact Conn.forwardToBackend_addr _ io bytes port
  | route io svc hssl _ =>
    simp only [Conn.routeTls,hssl]
    rfl
  | flush io => exact (c.flushBackendTx_frame io).1
  | drop fd hfd => rfl

theorem Acts.addr {R : TcpStreamSession → Tls.ServiceConfig → Prop} {c c' : Conn}
    (h : Acts R c c') : c'.addr = c.addr :=
  h.invariant (I := fun d => d.addr = c.addr) (fun _ _ hd ha => ha.addr.trans hd) rfl

/-- Handling never changes which session it is about. -/
theorem handleResult_addr {f : TcpFrame} {c c' : Conn} {res : TcpAssemblyResult}
    {verdict : Verdict} (h : handleResult cfg f c res = .ok (c',verdict)) : c'.addr = c.addr :=
  Acts.addr (R := fun _ _ => True) (handleResult_acts (fun _ _ _ _ _ _ _ => trivial) h)

theorem handleResult_syn {f : TcpFrame} {c c' : Conn} {res : TcpAssemblyResult}
    {verdict : Verdict} (hsyn : res.isSyn = true)
    (h : handleResult cfg f c res = .ok (c',verdict)) : verdict = .reply := by
  simp only [handleResult,hsyn,if_true] at h
  cases h
  rfl

end Handling

section Engine

open TcpAssemblerEngine

variable {I : TcpKey → TcpStreamSession → Prop} {cfg : Config} {st st' : State}

theorem store_engineWf (h : EngineWf I st.engine) {c : Conn}
    (hc : ∀ key, st.engine.sessions.Stored key c.addr → I key c.session) :
    EngineWf I (st.store c).engine :=
  ⟨h.owns.overwrite hc,h.emptyKey⟩

/-- Closing a session returns and only drops sessions. -/
theorem closeSession_ok {e : TcpAssemblerEngine} (h : EngineWf I e) {key : TcpKey}
    (hne : key ≠ kEmptyTcpKey) :
    ∃ u, e.closeSession key = .ok u ∧ EngineWf I u ∧ Shrinks e u := by
  obtain ⟨slot,hfind⟩ := e.sessions.find_ok key (by rwa [h.emptyKey])
  unfold TcpAssemblerEngine.closeSession
  rw [hfind]
  simp only [bind,Except.bind]
  cases slot with
  | none => exact ⟨e,rfl,h,Shrinks.refl e⟩
  | some p =>
    have hst := h.owns.wf.find_stored hfind
    obtain ⟨s,hs,_⟩ := h.owns.live key p hst
    have hp : p ≠ 0 := by
      intro hzero
      rw [hzero,e.heap.null] at hs
      cases hs
    obtain ⟨u,hdel,hwf,hshrinks,_⟩ := h.deleteSession hst s
    simp only [hp,if_false,hs]
    exact ⟨u,hdel,hwf,hshrinks⟩

/-- Closing a session, if it returns, keeps the table and the heap in step. -/
theorem closeSession_engineWf {e u : TcpAssemblerEngine} (h : EngineWf I e) {key : TcpKey}
    (hclose : e.closeSession key = .ok u) : EngineWf I u := by
  have hne : key ≠ kEmptyTcpKey := by
    obtain ⟨slot,hfind,_⟩ := (bind_ok_iff ..).mp hclose
    rw [← h.emptyKey]
    exact ne_emptyKey_of_find hfind
  obtain ⟨v,hv,hwf,_⟩ := closeSession_ok h hne
  rw [hclose] at hv
  cases hv
  exact hwf

theorem finish_engineWf (h : EngineWf I st.engine) {f : TcpFrame} {res : TcpAssemblyResult}
    {c : Conn} {verdict : Verdict} {out : Output}
    (hc : ∀ key, st.engine.sessions.Stored key c.addr → I key c.session)
    (hfinish : finish f res st c verdict = .ok (st',out)) : EngineWf I st'.engine := by
  have hstore := store_engineWf h hc
  have hclosed : ∀ u, (st.store c).closeSession f.packet.key = .ok u → EngineWf I u.engine := by
    intro u hu
    obtain ⟨e,he,hret⟩ := (bind_ok_iff ..).mp hu
    cases hret
    exact closeSession_engineWf hstore he
  cases verdict with
  | reply =>
    cases hfinish
    exact hstore
  | silent =>
    cases hfinish
    exact hstore
  | reset =>
    obtain ⟨u,hu,hret⟩ := (bind_ok_iff ..).mp hfinish
    cases hret
    exact hclosed _ hu
  | proceed =>
    rw [finish] at hfinish
    split_ifs at hfinish
    · obtain ⟨u,hu,hret⟩ := (bind_ok_iff ..).mp hfinish
      cases hret
      exact hclosed _ hu
    · cases hfinish
      exact hstore

/-- A packet keeps the table and the heap in step. -/
theorem handleTcpPacket_engineWf {f : TcpFrame} {out : Output}
    (h : EngineWf (fun _ _ => True) st.engine)
    (hrun : handleTcpPacket cfg st f = .ok (st',out)) :
    EngineWf (fun _ _ => True) st'.engine := by
  unfold handleTcpPacket at hrun
  split_ifs at hrun
  · cases hrun
    exact h
  · obtain ⟨⟨engine,res⟩,hpacket,hrest⟩ := (bind_ok_iff ..).mp hrun
    have hwf := h.processPacket hpacket
    dsimp only at hrest
    split at hrest
    · split_ifs at hrest
      · obtain ⟨u,hu,hret⟩ := (bind_ok_iff ..).mp hrest
        cases hret
        obtain ⟨e,he,hret⟩ := (bind_ok_iff ..).mp hu
        cases hret
        exact closeSession_engineWf hwf he
      · cases hrest
        exact hwf
    · split at hrest
      · cases hrest
      · obtain ⟨⟨c,verdict⟩,_,hfinish⟩ := (bind_ok_iff ..).mp hrest
        exact finish_engineWf hwf (fun _ _ => trivial) hfinish

theorem drainOne_engineWf {pe : Nat × BackendEvent} {log : List (Nat × Action)}
    (h : EngineWf (fun _ _ => True) st.engine) (hrun : drainOne st pe = .ok (st',log)) :
    EngineWf (fun _ _ => True) st'.engine := by
  unfold drainOne at hrun
  split at hrun
  · cases hrun
  · split at hrun
    · cases hrun
      exact h
    · dsimp only at hrun
      split_ifs at hrun
      · obtain ⟨u,hu,hret⟩ := (bind_ok_iff ..).mp hrun
        cases hret
        obtain ⟨e,he,hret⟩ := (bind_ok_iff ..).mp hu
        cases hret
        exact closeSession_engineWf (store_engineWf h fun _ _ => trivial) he
      · cases hrun
        exact store_engineWf h fun _ _ => trivial

/-- A call of the worker loop keeps the table and the heap in step. -/
theorem step_engineWf {ev : Event} {out : Output} (h : EngineWf (fun _ _ => True) st.engine)
    (hrun : step cfg st ev = .ok (st',out)) : EngineWf (fun _ _ => True) st'.engine := by
  cases ev with
  | packet f => exact handleTcpPacket_engineWf h hrun
  | backend events =>
    change drainBackendEvents cfg st events = .ok (st',out) at hrun
    unfold drainBackendEvents at hrun
    split_ifs at hrun
    · obtain ⟨⟨u,logs⟩,hdrain,hret⟩ := (bind_ok_iff ..).mp hrun
      cases hret
      exact runOut_invariant (C := fun _ _ => True)
        (I := fun t _ => EngineWf (fun _ _ => True) t.engine)
        (fun _ _ _ _ _ hwf _ hone => drainOne_engineWf hwf hone) _ st _ [] logs h
        (Along.of_forall _ _ fun _ _ => trivial) hdrain
    · cases hrun
      exact h
  | completion addrs =>
    cases hrun
    exact h

/-- The session `s` of `key` is at address `p`. -/
structure Serving (key : TcpKey) (p : Nat) (st : State) (s : TcpStreamSession) : Prop where
  wf : EngineWf (fun _ _ => True) st.engine
  stored : st.engine.sessions.Stored key p
  mem : st.engine.heap.mem p = some s

namespace Serving

variable {key : TcpKey} {p : Nat} {s s₁ s' : TcpStreamSession} {f : TcpFrame}
  {res : TcpAssemblyResult}

/-- A session that a call meets is the one that is served, and it is found at its address. -/
theorem lookup (h : Serving key p st s) (hkey : f.packet.key = key)
    (hmeets : st.engine.Meets f.call s₁) :
    s₁ = s ∧ ∃ t, st.engine.cleanup f.call.nowNs = .ok t ∧
      t.sessions.find key = .ok (some p) ∧ Serving key p { st with engine := t } s := by
  obtain ⟨t,q,ht,hfind,hs⟩ := hmeets
  obtain ⟨t',ht',hwf,hshrinks⟩ := h.wf.cleanup f.call.nowNs
  rw [ht] at ht'
  cases ht'
  change t.sessions.find f.packet.key = _ at hfind
  rw [hkey] at hfind
  have hst := hwf.owns.wf.find_stored hfind
  obtain ⟨hbefore,hmem⟩ := hshrinks key q hst
  have hq : q = p := h.wf.owns.wf.stored_unique hbefore h.stored
  subst hq
  rw [hs,h.mem] at hmem
  cases hmem
  exact ⟨rfl,t,ht,hfind,hwf,hst,hs⟩

/-- What a packet that the session survives does. -/
theorem processPacket (h : Serving key p st s) (hkey : f.packet.key = key)
    (hmeets : st.engine.Meets f.call s₁) (hopen : ¬ st.engine.Refused f.call)
    (hon : s.onPacket f.packet f.call.nowNs f.call.garbage = (some s',res)) :
    ∃ t, st.engine.cleanup f.call.nowNs = .ok t ∧ t.sessions.find key = .ok (some p) ∧
      st.engine.processPacket f.call =
        .ok ({ t with heap := t.heap.set p s' },portsOf f.packet res (some p)) ∧
      Serving key p { st with engine := { t with heap := t.heap.set p s' } } s' := by
  obtain ⟨rfl,t,ht,hfind,hserving⟩ := h.lookup hkey hmeets
  obtain ⟨t',q,ht',hfind',hs,hp⟩ := hmeets.lookup hopen
  rw [ht] at ht'
  cases ht'
  change t.sessions.find f.packet.key = _ at hfind'
  rw [hkey,hfind] at hfind'
  cases hfind'
  refine ⟨t,ht,hfind,?_,⟨hserving.wf.owns.overwrite fun _ _ => trivial,hserving.wf.emptyKey⟩,
    hserving.stored,t.heap.set_mem_self s' hserving.mem⟩
  change s₁.onPacket f.call.packet f.call.nowNs f.call.garbage = _ at hon
  rw [hp]
  simp only [updateSession,hs,hon]
  rfl

/-- The session as its handling leaves it, when it stays open. -/
theorem put (h : Serving key p st s) {c : Conn} (haddr : c.addr = p) :
    Serving key p (st.store c) c.session := by
  refine ⟨store_engineWf h.wf fun _ _ => trivial,h.stored,?_⟩
  have hmem := h.mem
  rw [← haddr] at hmem ⊢
  exact Heap.set_mem_self _ c.session hmem

end Serving

/-- `handle_tcp_packet` when the packet has a session. -/
theorem handleTcpPacket_eq {f : TcpFrame} {engine : TcpAssemblerEngine}
    {res : TcpAssemblyResult} {p : Nat} {s : TcpStreamSession} {c : Conn} {verdict : Verdict}
    (hheaders : f.headersOk = true) (hpacket : st.engine.processPacket f.call = .ok (engine,res))
    (hp : res.session = some p) (hs : engine.heap.mem p = some s)
    (hrun : handleResult cfg f ⟨p,s,engine.kernel,st.txPool,[]⟩ res = .ok (c,verdict)) :
    handleTcpPacket cfg st f = finish f res { st with engine := engine } c verdict := by
  simp only [handleTcpPacket,hheaders,hpacket,hp,hs,hrun,bind,Except.bind,Bool.not_true,
    Bool.false_eq_true,if_false]

/-- A state that the pipeline reaches. -/
def Reached (cfg : Config) (st : State) : Prop :=
  ∃ txPool events outs, runOut (step cfg) (State.new txPool) events = .ok (st,outs)

theorem Reached.engineWf {cfg : Config} {st : State} (h : Reached cfg st) :
    EngineWf (fun _ _ => True) st.engine := by
  obtain ⟨txPool,events,outs,hrun⟩ := h
  exact runOut_invariant (C := fun _ _ => True)
    (I := fun t _ => EngineWf (fun _ _ => True) t.engine)
    (fun _ _ _ _ _ hwf _ hstep => step_engineWf hwf hstep) events _ _ [] outs
    (new_engineWf _) (Along.of_forall _ _ fun _ _ => trivial) hrun

end Engine

/-- A frame of the fixed connection of `sampleCall`. -/
def sampleFrame (flags : BitVec 8) (seq : BitVec 32) (payload : List UInt8)
    (h : payload.length < 65536) : TcpFrame where
  call := TcpAssemblerEngine.sampleCall flags seq payload h
  totLen := 40 + payload.length
  ipPktLen := 40 + payload.length
  payload_len := by
    intro _
    change payload.length = _
    omega

/-- The sample frame without data, and the one with a single byte. -/
def emptyFrame (flags : BitVec 8) (seq : BitVec 32) : TcpFrame :=
  sampleFrame flags seq [] TcpAssemblerEngine.nil_length_lt

def byteFrame (flags : BitVec 8) (seq : BitVec 32) (b : UInt8) : TcpFrame :=
  sampleFrame flags seq [b] (TcpAssemblerEngine.byte_length_lt b)

/-- A plain service on port 8000 for the address of the sample connection, and a TLS service on
port 9000 for the name `ab`. -/
def twoServices : Checked Config := do
  let (_,registry) ← Tls.ServiceRegistry.new.registerIpPort 2 (ntohs 4) { backendPort := 8000 }
  let (_,registry) ← registry.registerDomain [0x61,0x62]
    { backendPort := 9000, hasSslCtx := true }
  return { registry := registry }

def mixedConfig : Config :=
  match twoServices with
  | .ok cfg => cfg
  | .error _ => {}

/-- The handshake of the sample connection. -/
def openingEvents : List Event :=
  [.packet (emptyFrame thSyn 0),.packet (emptyFrame thAck 1)]

/-- The sample connection after two bytes of data. -/
def twoByteEvents : List Event :=
  openingEvents ++ [.packet { sampleFrame thAck 1 [5,6] (by decide) with
    backend := { socket := some 7 } }]

def openedState : State :=
  match runOut (step mixedConfig) (State.new []) openingEvents with
  | .ok (st,_) => st
  | .error _ => .new []

def openedSession : TcpStreamSession :=
  (openedState.engine.heap.mem 1).getD TcpAssemblerEngine.sampleStart

theorem openedState_reached : Reached mixedConfig openedState := ⟨[],openingEvents,_,rfl⟩

theorem openedState_find : openedState.engine.sessions.find ⟨1,2,3,4⟩ = .ok (some 1) := rfl

theorem openedState_mem : openedState.engine.heap.mem 1 = some openedSession := rfl

theorem openedState_serving : Serving ⟨1,2,3,4⟩ 1 openedState openedSession :=
  ⟨openedState_reached.engineWf,
    openedState_reached.engineWf.owns.wf.find_stored openedState_find,openedState_mem⟩

end Pipeline

end Aethon
