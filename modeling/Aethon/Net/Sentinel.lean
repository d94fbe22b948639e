import Aethon.Dpi.Detection
import Aethon.Net.StaleBytes
import Aethon.Pipeline.PortReuse
import Aethon.Transport.UdpEngine

/-!
# Sentinel keys

A table aborts the process when it is asked for its sentinel key. Rules, services and fragments
never lead to one, and the only packets that do are TCP segments from 0.0.0.0:0 to 0.0.0.0:0.
-/

namespace Aethon.Net

open Framework Pipeline Dpi

/-- The call ends in a failed `AETHON_SAFE_CHECK`. -/
def Aborts {α : Type} (call : Checked α) : Prop := ∃ message, call = .error (.safeCheck message)

theorem not_aborts_ok {α : Type} {call : Checked α} {a : α} (h : call = .ok a) : ¬Aborts call := by
  rintro ⟨message,hm⟩
  rw [h] at hm
  cases hm

theorem aborts_bind {α β : Type} (call : Checked α) (f : α → Checked β) :
    Aborts (call >>= f) ↔ Aborts call ∨ ∃ a, call = .ok a ∧ Aborts (f a) := by
  cases call with
  | error fault => simp [Aborts,bind,Except.bind]
  | ok a => simp [Aborts,bind,Except.bind]

section Rules

variable {rules : List AethonRule} {hs : Hyperscan}

theorem sid_ne_zero_of_parseRuleLine {line : Text} {rule : AethonRule}
    (h : parseRuleLine line = some rule) : rule.sid ≠ 0 := by
  unfold parseRuleLine at h
  dsimp only at h
  split_ifs at h
  obtain ⟨body,_,hbody⟩ := Option.bind_eq_some_iff.mp h
  obtain ⟨header,_,hrest⟩ := Option.bind_eq_some_iff.mp hbody
  split_ifs at hrest with haccepted
  cases hrest
  simp only [AethonRule.accepted,Bool.and_eq_true,decide_eq_true_eq] at haccepted
  exact haccepted.1

theorem insertRules_ok (hsid : ∀ rule ∈ rules, rule.sid ≠ 0) (m : RuleMap) (hm : m.emptyKey = 0) :
    ∃ m', insertRules rules m = .ok m' ∧ m'.emptyKey = 0 := by
  induction rules generalizing m with
  | nil => exact ⟨m,rfl,hm⟩
  | cons rule rules ih =>
    obtain ⟨b,m',hput⟩ := m.emplace_ok rule.sid (some rule) (by
      rw [hm]
      exact hsid rule (by simp))
    have hm' := (SingleThreadHashMap.emplace_emptyKey hput).trans hm
    obtain ⟨u,hu,hempty⟩ := ih (fun r hr => hsid r (by simp [hr])) m' hm'
    refine ⟨u,?_,hempty⟩
    rw [insertRules,hput]
    exact hu

/-- What `compile_rules` leaves: a rule map with sentinel 0 and expressions with other ids. -/
structure Compiled (engine : HyperscanEngine) : Prop where
  ruleMap : ∀ m, engine.ruleMap = some m → m.emptyKey = 0
  ids : ∀ db, engine.db = some db → ∀ e ∈ db, e.id ≠ 0

theorem compileRules_ok (hs : Hyperscan) (hsid : ∀ rule ∈ rules, rule.sid ≠ 0) :
    ∃ b engine, compileRules hs rules = .ok (b,engine) ∧ Compiled engine := by
  obtain ⟨m,hm,hempty⟩ := insertRules_ok hsid (RuleMap.new (nextPowerOfTwo (rules.length * 2))) rfl
  have hmap : ∀ m', some m = some m' → m'.emptyKey = 0 := by
    rintro m' hm'
    cases hm'
    exact hempty
  unfold compileRules
  split_ifs with hnil
  · exact ⟨false,{},rfl,⟨by simp,by simp⟩⟩
  · rw [hm]
    simp only [bind,Except.bind]
    split_ifs
    · exact ⟨_,_,rfl,⟨hmap,by simp⟩⟩
    · refine ⟨_,_,rfl,⟨hmap,?_⟩⟩
      intro db hdb e he
      cases hdb
      obtain ⟨rule,hrule,hexpr⟩ := List.mem_filterMap.mp he
      unfold ruleExpression at hexpr
      split_ifs at hexpr
      cases hexpr
      exact hsid rule hrule
    · exact ⟨_,_,rfl,⟨hmap,by simp⟩⟩

theorem onMatchEvent_ok {ruleMap : Option RuleMap} (hmap : ∀ m, ruleMap = some m → m.emptyKey = 0)
    (payload : List UInt8) (alerts : List AttackAlert) {event : UInt32 × Nat} (hid : event.1 ≠ 0) :
    ∃ alerts', onMatchEvent ruleMap payload alerts event = .ok alerts' := by
  cases ruleMap with
  | none => exact ⟨alerts,rfl⟩
  | some m =>
    obtain ⟨found,hfound⟩ := m.find_ok event.1 (by rwa [hmap m rfl])
    simp only [onMatchEvent,hfound,bind,Except.bind]
    repeat' split
    all_goals exact ⟨_,rfl⟩

/-- A scan looks up only the ids of compiled expressions. -/
theorem scanStream_ok {engine : HyperscanEngine} (hdoc : hs.Documented) (h : Compiled engine)
    (taken payload : List UInt8) : ∃ r, engine.createWorker.scanStream hs taken payload = .ok r := by
  cases hdb : engine.db with
  | none =>
    refine ⟨(false,taken),?_⟩
    simp only [HyperscanEngine.createWorker,hdb,HyperscanWorker.scanStream]
    rfl
  | some db =>
    have hfold : ∀ events : List (UInt32 × Nat), (∀ ev ∈ events, ev.1 ≠ 0) → ∀ alerts,
        ∃ alerts', events.foldlM (onMatchEvent engine.ruleMap payload) alerts = .ok alerts' := by
      intro events
      induction events with
      | nil => exact fun _ alerts => ⟨alerts,rfl⟩
      | cons ev events ih =>
        intro hids alerts
        obtain ⟨next,hnext⟩ := onMatchEvent_ok h.ruleMap payload alerts (hids ev (by simp))
        rw [List.foldlM_cons,hnext]
        exact ih (fun e he => hids e (by simp [he])) next
    have hids : ∀ ev ∈ hs.reports db taken (payload.take (payload.length % 2 ^ 32)), ev.1 ≠ 0 := by
      rintro ⟨id,stop⟩ hev
      obtain ⟨e,he,hid,_⟩ := (hdoc.mem_reports ..).mp hev
      rw [← hid]
      exact h.ids db hdb e he
    obtain ⟨alerts,halerts⟩ := hfold _ hids []
    simp only [HyperscanEngine.createWorker,hdb,HyperscanWorker.scanStream]
    split_ifs
    · exact ⟨_,rfl⟩
    · rw [halerts]
      exact ⟨_,rfl⟩

end Rules

section Datagrams

variable {w : Worker} {pkt : Nat → UInt8}

open UDPassemblerEngine

/-- The table of fragments is in order. -/
def DatagramsWf (e : UDPassemblerEngine) : Prop := ∃ logs, EngineWf e logs

/-- The protocol in the key is that of UDP. -/
theorem fragmentKeyOf_ne (h : protocol pkt = ipprotoUdp) : fragmentKeyOf pkt ≠ kEmptyFragmentKey := by
  intro hkey
  have hproto : BitVec.ofNat 8 (protocol pkt) = 0 := congrArg FragmentKey.protocol hkey
  rw [h] at hproto
  cases hproto

theorem releaseCompleted_wf {e : UDPassemblerEngine} {res : AssemblyResult} (h : DatagramsWf e)
    (hunstored : ∀ q, res.completedSession = some q → ∀ k, ¬e.sessions.Stored k q) :
    DatagramsWf (releaseCompleted e res) := by
  obtain ⟨logs,hwf⟩ := h
  unfold releaseCompleted
  split
  · rename_i p hp
    exact ⟨logs,hwf.owns.free (hunstored p hp),hwf.emptyKey⟩
  · exact ⟨logs,hwf⟩

/-- The UDP branch always returns. -/
theorem onUdp_ok (env : RxEnv) (h : DatagramsWf w.udp) (hproto : protocol pkt = ipprotoUdp) :
    ∃ w' report, onUdp env w pkt = .ok (w',report) ∧ DatagramsWf w'.udp ∧ w'.tcp = w.tcp := by
  unfold onUdp
  split_ifs
  · exact ⟨w,_,rfl,h,rfl⟩
  · obtain ⟨logs,hwf⟩ := h
    have hne := fragmentKeyOf_ne hproto
    obtain ⟨u,res,log,hrun,_,hwf',_⟩ :=
      hwf.processFragment hne ⟨fragmentOf pkt,env.nowNs,env.allocated⟩
    refine ⟨{ w with udp := releaseCompleted u res },{ scanned := (fragmentPathScan res).toList },?_,
      releaseCompleted_wf ⟨_,hwf'⟩ fun q hq => hwf.processFragment_unstored hne hrun hq,rfl⟩
    rw [hrun]
    rfl

end Datagrams

section Segments

open TcpAssemblerEngine

variable {cfg : Config} {st : State} {f : TcpFrame}

theorem handleTcpPacket_refused (hrefused : st.engine.Refused f.call) :
    ¬Aborts (handleTcpPacket cfg st f) := by
  cases hheaders : f.headersOk with
  | false => exact not_aborts_ok (handleTcpPacket_dropped cfg st hheaders)
  | true =>
    obtain ⟨hsyn,hack,t,ht,hfull⟩ := hrefused
    have hpacket : st.engine.processPacket f.call = .ok (t,portsOf f.call.packet {} none) := by
      rw [processPacket,ht]
      simp only [bind,Except.bind,hsyn,hack,hfull,Bool.not_false,and_self,if_true]
      rfl
    apply not_aborts_ok (a := ({ st with engine := t },{}))
    rw [handleTcpPacket,hheaders]
    simp only [hpacket,bind,Except.bind,portsOf]
    rfl

theorem handleTcpPacket_sentinel (hlocated : st.engine.Located) (hheaders : f.headersOk = true)
    (hkey : f.packet.key = kEmptyTcpKey) (hopen : ¬st.engine.Refused f.call) :
    handleTcpPacket cfg st f = .error (.safeCheck "Cannot search for EmptyKey!") := by
  obtain ⟨t,ht,hwf,_⟩ := hlocated.wf.cleanup f.call.nowNs
  have hguard : ¬(f.call.packet.has thSyn ∧ !f.call.packet.has thAck ∧
      t.sessions.size ≥ maxActiveTcpSession) := by
    rintro ⟨hsyn,hack,hfull⟩
    exact hopen ⟨hsyn,by simpa using hack,t,ht,hfull⟩
  have hfind : t.sessions.find f.call.packet.key =
      .error (.safeCheck "Cannot search for EmptyKey!") := by
    rw [show f.call.packet.key = t.sessions.emptyKey from hkey.trans hwf.emptyKey.symm]
    exact t.sessions.find_sentinel
  rw [handleTcpPacket,hheaders]
  simp only [processPacket,ht,bind,Except.bind,hguard,hfind]
  rfl

/-- A segment aborts the process exactly when it has a good header and the sentinel key, and is
not turned away before the lookup. -/
theorem handleTcpPacket_aborts_iff (hlocated : st.engine.Located) :
    Aborts (handleTcpPacket cfg st f) ↔
      f.headersOk = true ∧ f.packet.key = kEmptyTcpKey ∧ ¬st.engine.Refused f.call := by
  constructor
  · intro haborts
    refine ⟨?_,?_,fun hrefused => handleTcpPacket_refused hrefused haborts⟩
    · by_contra hheaders
      exact not_aborts_ok (handleTcpPacket_dropped cfg st (Bool.not_eq_true _ ▸ hheaders)) haborts
    · by_contra hkey
      obtain ⟨st',out,hrun⟩ := handleTcpPacket_total cfg (Located.engineWf hlocated) hkey
      exact not_aborts_ok hrun haborts
  · rintro ⟨hheaders,hkey,hopen⟩
    exact ⟨_,handleTcpPacket_sentinel hlocated hheaders hkey hopen⟩

end Segments

section Events

open TcpAssemblerEngine

variable {cfg : Config} {st : State}

/-- A closed session is found by its key, so its key is not the sentinel. -/
theorem drainOne_not_aborts (hlocated : st.engine.Located) (pe : Nat × BackendEvent) :
    ¬Aborts (drainOne st pe) := by
  unfold drainOne
  split
  · rintro ⟨message,hm⟩
    cases hm
  · rename_i s hs
    split
    · exact not_aborts_ok rfl
    · rename_i fd hfd
      dsimp only
      split_ifs
      · have hkey : s.key ≠ kEmptyTcpKey := by
          have hfind := hlocated.backed pe.1 s hs (by rw [hfd]; exact Option.some_ne_none fd)
          rw [← hlocated.wf.emptyKey]
          exact SingleThreadHashMap.ne_emptyKey_of_find hfind
        obtain ⟨u,hu⟩ := State.closeSession_total
          (store_engineWf (Located.engineWf hlocated) fun _ _ => trivial) hkey
        rw [hu]
        exact not_aborts_ok rfl
      · exact not_aborts_ok rfl

theorem drain_not_aborts (hlocated : st.engine.Located) (events : List (Nat × BackendEvent)) :
    ¬Aborts (runOut drainOne st events) := by
  induction events generalizing st with
  | nil => exact not_aborts_ok rfl
  | cons pe events ih =>
    rw [runOut,aborts_bind]
    rintro (hone | ⟨⟨t,b⟩,hone,hrest⟩)
    · exact drainOne_not_aborts hlocated pe hone
    · rcases (aborts_bind ..).mp hrest with hrest | ⟨r,_,hret⟩
      · exact ih (drainOne_located hlocated hone) hrest
      · exact not_aborts_ok rfl hret

theorem drainBackendEvents_not_aborts (hlocated : st.engine.Located)
    (events : List BackendEvent) : ¬Aborts (drainBackendEvents cfg st events) := by
  unfold drainBackendEvents
  split_ifs
  · rw [aborts_bind]
    rintro (hrun | ⟨r,_,hret⟩)
    · exact drain_not_aborts hlocated _ hrun
    · exact not_aborts_ok rfl hret
  · exact not_aborts_ok rfl

end Events

section Reached

variable {cfg : Config} {hostIps : List (BitVec 32)} {w : Worker}

/-- Both assemblers are in order. -/
structure WorkerWf (w : Worker) : Prop where
  udp : DatagramsWf w.udp
  tcp : w.tcp.engine.Located

theorem rxPacket_wf {env : RxEnv} {pkt : Nat → UInt8} {len : Nat} {w' : Worker} {report : RxReport}
    (h : WorkerWf w) (hrun : rxPacket cfg env w pkt len hostIps = .ok (w',report)) :
    WorkerWf w' := by
  unfold rxPacket at hrun
  split_ifs at hrun with haccept hudp htcp hicmp
  · obtain ⟨u,_,hu,hwf,hsame⟩ := onUdp_ok env h.udp hudp.2
    rw [hrun] at hu
    cases hu
    exact ⟨hwf,hsame ▸ h.tcp⟩
  · obtain ⟨⟨tcp,out⟩,hhandle,hret⟩ := (bind_ok_iff ..).mp hrun
    cases hret
    exact ⟨h.udp,handleTcpPacket_located h.tcp hhandle⟩
  · cases hrun
    exact h
  · cases hrun
    exact h
  · cases hrun
    exact h

theorem workerStep_wf {ev : WorkerEvent} {w' : Worker} {report : RxReport} (h : WorkerWf w)
    (hrun : workerStep cfg hostIps w ev = .ok (w',report)) : WorkerWf w' := by
  cases ev with
  | packet env pkt len => exact rxPacket_wf h hrun
  | backend txBuffer events =>
    obtain ⟨⟨tcp,out⟩,hdrain,hret⟩ := (bind_ok_iff ..).mp hrun
    cases hret
    have hstep : step cfg w.tcp (.backend events) = .ok (tcp,out) := hdrain
    exact ⟨h.udp,step_located h.tcp hstep⟩
  | completion addrs =>
    cases hrun
    exact ⟨h.udp,h.tcp⟩

theorem Worker.Reached.wf (h : w.Reached cfg hostIps) : WorkerWf w := by
  obtain ⟨txPool,events,reports,hrun⟩ := h
  have hnew : WorkerWf (.new txPool) :=
    ⟨⟨fun _ => [],UDPassemblerEngine.new_engineWf _⟩,TcpAssemblerEngine.new_located⟩
  exact runOut_invariant (C := fun _ _ => True) (I := fun w _ => WorkerWf w)
    (fun _ _ _ _ _ hw _ hstep => workerStep_wf hw hstep) _ _ _ [] reports hnew
    (Along.of_forall _ _ fun _ _ => trivial) hrun

end Reached

/-- The packet is a TCP segment from 0.0.0.0:0 to 0.0.0.0:0 that passes the header checks of
`rx_worker` and `handle_tcp_packet`. -/
structure ZeroSegment (pkt : Nat → UInt8) (len : Nat) (hostIps : List (BitVec 32)) : Prop where
  accepted : acceptsIpv4 pkt len = true
  forThisHost : isForThisHost pkt hostIps = true
  protocol : protocol pkt = ipprotoTcp
  header : HoldsTcp pkt
  saddr : saddr pkt = 0
  daddr : daddr pkt = 0
  source : tcpSource pkt (tcphOf pkt) = 0
  dest : tcpDest pkt (tcphOf pkt) = 0

/-- The segment is a SYN without ACK, and the session table is full after the cleanup. -/
def TurnedAway (w : Worker) (env : RxEnv) (pkt : Nat → UInt8) : Prop :=
  w.tcp.engine.Refused (tcpFrameOf env pkt).call

/-- The event brings no segment with the sentinel key to the lookup. -/
def KeysSafely (hostIps : List (BitVec 32)) (w : Worker) : WorkerEvent → Prop
  | .packet env pkt len => ZeroSegment pkt len hostIps → TurnedAway w env pkt
  | _ => True

theorem tcpFrameOf_key_iff (env : RxEnv) {pkt : Nat → UInt8} :
    (tcpFrameOf env pkt).packet.key = kEmptyTcpKey ↔ saddr pkt = 0 ∧ daddr pkt = 0 ∧
      tcpSource pkt (tcphOf pkt) = 0 ∧ tcpDest pkt (tcphOf pkt) = 0 := by
  change TcpKey.mk (saddr pkt) (daddr pkt) (tcpSource pkt (tcphOf pkt)) (tcpDest pkt (tcphOf pkt)) =
    ⟨0,0,0,0⟩ ↔ _
  simp only [TcpKey.mk.injEq]

theorem rxPacket_aborts_iff {cfg : Config} {env : RxEnv} {w : Worker} {pkt : Nat → UInt8}
    {len : Nat} {hostIps : List (BitVec 32)} (h : WorkerWf w) :
    Aborts (rxPacket cfg env w pkt len hostIps) ↔
      ZeroSegment pkt len hostIps ∧ ¬TurnedAway w env pkt := by
  have htcp : Aborts (onTcp cfg env w pkt) ↔ HoldsTcp pkt ∧
      (tcpFrameOf env pkt).packet.key = kEmptyTcpKey ∧ ¬TurnedAway w env pkt := by
    rw [onTcp,aborts_bind,handleTcpPacket_aborts_iff h.tcp,headersOk_iff]
    constructor
    · rintro (haborts | ⟨a,_,hret⟩)
      · exact haborts
      · exact absurd hret (not_aborts_ok rfl)
    · exact Or.inl
  constructor
  · intro haborts
    unfold rxPacket at haborts
    split_ifs at haborts with haccept hudp htcp' hicmp
    · obtain ⟨_,_,hrun,_⟩ := onUdp_ok env h.udp hudp.2
      exact absurd haborts (not_aborts_ok hrun)
    · obtain ⟨hheader,hkey,hopen⟩ := htcp.mp haborts
      obtain ⟨hsaddr,hdaddr,hsource,hdest⟩ := (tcpFrameOf_key_iff env).mp hkey
      exact ⟨⟨haccept,htcp'.1,htcp'.2,hheader,hsaddr,hdaddr,hsource,hdest⟩,hopen⟩
    · exact absurd haborts (not_aborts_ok rfl)
    · exact absurd haborts (not_aborts_ok rfl)
    · exact absurd haborts (not_aborts_ok rfl)
  · rintro ⟨hzero,hopen⟩
    have hudp : ¬(isForThisHost pkt hostIps = true ∧ protocol pkt = ipprotoUdp) := by
      rw [hzero.protocol]
      exact fun hc => absurd hc.2 (by decide)
    rw [rxPacket,if_pos hzero.accepted,if_neg hudp,if_pos ⟨hzero.forThisHost,hzero.protocol⟩]
    exact htcp.mpr ⟨hzero.header,(tcpFrameOf_key_iff env).mpr
      ⟨hzero.saddr,hzero.daddr,hzero.source,hzero.dest⟩,hopen⟩

theorem workerStep_aborts_iff {cfg : Config} {hostIps : List (BitVec 32)} {w : Worker}
    (h : WorkerWf w) (ev : WorkerEvent) :
    ¬Aborts (workerStep cfg hostIps w ev) ↔ KeysSafely hostIps w ev := by
  cases ev with
  | packet env pkt len =>
    change ¬Aborts (rxPacket cfg env w pkt len hostIps) ↔
      (ZeroSegment pkt len hostIps → TurnedAway w env pkt)
    rw [rxPacket_aborts_iff h,not_and_not_right]
  | backend txBuffer events =>
    refine iff_of_true ?_ trivial
    rw [workerStep,aborts_bind]
    rintro (hdrain | ⟨a,_,hret⟩)
    · exact drainBackendEvents_not_aborts h.tcp events hdrain
    · exact not_aborts_ok rfl hret
  | completion addrs => exact iff_of_true (not_aborts_ok rfl) trivial

/-- With rules that the parser has accepted, neither loading the configuration nor scanning aborts,
and a call of the worker loop aborts only for a segment with the sentinel key. -/
theorem sentinel_safe_iff (hs : Hyperscan) (hdoc : hs.Documented) (rules : List AethonRule)
    (hrules : ∀ rule ∈ rules, ∃ line, parseRuleLine line = some rule) (cfg : Config)
    (hostIps : List (BitVec 32)) :
    (∃ b engine, compileRules hs rules = .ok (b,engine) ∧
        ∀ taken payload, ¬Aborts (engine.createWorker.scanStream hs taken payload)) ∧
      (∀ domain svc, ¬Aborts (cfg.registry.registerDomain domain svc)) ∧
      (∀ ip port svc, ¬Aborts (cfg.registry.registerIpPort ip port svc)) ∧
      ∀ w : Worker, w.Reached cfg hostIps → ∀ ev,
        ¬Aborts (workerStep cfg hostIps w ev) ↔ KeysSafely hostIps w ev := by
  have hsid : ∀ rule ∈ rules, rule.sid ≠ 0 := by
    intro rule hrule
    obtain ⟨line,hline⟩ := hrules rule hrule
    exact sid_ne_zero_of_parseRuleLine hline
  obtain ⟨b,engine,hcompile,hcompiled⟩ := compileRules_ok hs hsid
  refine ⟨⟨b,engine,hcompile,?_⟩,?_,?_,fun w hw ev => workerStep_aborts_iff hw.wf ev⟩
  · intro taken payload
    obtain ⟨r,hr⟩ := scanStream_ok hdoc hcompiled taken payload
    exact not_aborts_ok hr
  · intro domain svc
    obtain ⟨b,r,hr⟩ := cfg.registry.registerDomain_ok domain svc
    exact not_aborts_ok hr
  · intro ip port svc
    obtain ⟨b,r,hr⟩ := cfg.registry.registerIpPort_ok ip port svc
    exact not_aborts_ok hr

theorem sentinel_safe_syn :
    parseRuleLine offsetLine = some offsetRule ∧
      (∃ b engine, compileRules .reference [offsetRule] = .ok (b,engine) ∧
        ∀ taken payload, ¬Aborts (engine.createWorker.scanStream .reference taken payload)) ∧
      ¬Aborts (workerStep {} [] (.new []) (.packet {} (bufferOf synFrame) 54)) :=
  have hline : parseRuleLine offsetLine = some offsetRule := by decide +kernel
  have h := sentinel_safe_iff .reference Hyperscan.reference_documented [offsetRule]
    (fun rule hrule => ⟨offsetLine,(List.mem_singleton.mp hrule) ▸ hline⟩) {} []
  ⟨hline,h.1,(h.2.2.2 (.new []) ⟨[],[],[],rfl⟩ (.packet {} (bufferOf synFrame) 54)).mpr
    fun hzero => absurd hzero.saddr (by decide +kernel)⟩

/-- An ACK from 0.0.0.0:0 to 0.0.0.0:0. -/
def zeroFrame : List UInt8 :=
  [1,1,1,1,1,1,2,2,2,2,2,2,0x08,0x00,
    0x45,0,0,40,0,0,0,0,64,6,0x7a,0xd1,0,0,0,0,0,0,0,0,
    0,0,0,0,0,0,0,9,0,0,0,0,0x50,16,255,255,0,0,0,0]

theorem zeroFrame_segment : ZeroSegment (bufferOf zeroFrame) 54 [] :=
  ⟨by decide +kernel,by decide +kernel,by decide +kernel,by decide +kernel,by decide +kernel,
    by decide +kernel,by decide +kernel,by decide +kernel⟩

/-- With an empty host table the first packet may abort the process. -/
theorem zero_segment_aborts :
    acceptsIpv4 (bufferOf zeroFrame) 54 = true ∧ Worker.Reached {} [] (.new []) ∧
      Aborts (workerStep {} [] (.new []) (.packet {} (bufferOf zeroFrame) 54)) := by
  have hreached : Worker.Reached {} [] (.new []) := ⟨[],[],[],rfl⟩
  have hack : (tcpFrameOf {} (bufferOf zeroFrame)).call.packet.has thSyn = false := by
    decide +kernel
  exact ⟨zeroFrame_segment.accepted,hreached,(rxPacket_aborts_iff hreached.wf).mpr
    ⟨zeroFrame_segment,TcpAssemblerEngine.not_refused hack⟩⟩

end Aethon.Net
