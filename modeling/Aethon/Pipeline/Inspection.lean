import Aethon.Pipeline.Audit
import Aethon.Pipeline.Lifetimes

/-!
# Inspection before forwarding

On a session that stays without TLS, every delivered byte is scanned exactly once or still held
for a ClientHello, what is forwarded is what was scanned, and nothing is forwarded after an
attack or a block.
-/

namespace Aethon.Pipeline

open Framework

/-- The audit trail of the session at `p`. -/
def auditOf (p : Nat) (log : List (Nat × Action)) : List Action :=
  ofSession (fun a => if a.isAudit then [a] else []) p log

theorem auditOf_self (c : Conn) : auditOf c.addr c.tagged = c.audit := by
  rw [auditOf,ofSession_self,Conn.audit]
  induction c.log with
  | nil => rfl
  | cons a log ih =>
    rw [List.flatMap_cons,ih,List.filter_cons]
    split_ifs <;> rfl

/-- A reading of audited actions can be taken from the trail. -/
theorem ofSession_eq_auditOf {β : Type} {g : Action → List β}
    (hg : ∀ a, a.isAudit = false → g a = []) (p : Nat) (log : List (Nat × Action)) :
    ofSession g p log = (auditOf p log).flatMap g := by
  induction log with
  | nil => rfl
  | cons e log ih =>
    have hcons : ∀ {γ : Type} (g : Action → List γ), ofSession g p (e :: log) =
        (if e.1 = p then g e.2 else []) ++ ofSession g p log := fun _ => rfl
    rw [auditOf,hcons,hcons,List.flatMap_append,ih,auditOf]
    congr 1
    split_ifs with hp haudit
    · simp
    · simpa using hg e.2 (by simpa using haudit)
    · rfl

theorem mem_auditOf {p : Nat} {a : Action} {log : List (Nat × Action)} (ha : a.isAudit = true)
    (h : (p,a) ∈ log) : a ∈ auditOf p log := by
  rw [auditOf,ofSession,List.mem_flatMap]
  exact ⟨(p,a),h,by simp [ha]⟩

theorem of_mem_auditOf {p : Nat} {a : Action} {log : List (Nat × Action)}
    (h : a ∈ auditOf p log) : (p,a) ∈ log := by
  rw [auditOf,ofSession,List.mem_flatMap] at h
  obtain ⟨⟨q,b⟩,hmem,hin⟩ := h
  split_ifs at hin with hq hb
  · rw [List.mem_singleton] at hin
    rw [hin,← hq]
    exact hmem
  · cases hin
  · cases hin

/-- The readings of a log, taken from the trail. -/
theorem readings (p : Nat) (log : List (Nat × Action)) :
    ofSession Action.deliveredBytes p log = (auditOf p log).flatMap Action.deliveredBytes ∧
    ofSession Action.scannedBytes p log = (auditOf p log).flatMap Action.scannedBytes ∧
    ofSession Action.forwardedBytes p log = (auditOf p log).flatMap Action.forwardedBytes := by
  refine ⟨ofSession_eq_auditOf ?_ p log,ofSession_eq_auditOf ?_ p log,
    ofSession_eq_auditOf ?_ p log⟩
  all_goals
    intro a ha
    cases a <;> first | rfl | cases ha

/-- A stop is the last entry of a trail, and then the call ends with a reset. -/
def EndsAtStop (verdict : Verdict) (trail : List Action) : Prop :=
  (∀ a ∈ trail, a.stops = false) ∨ verdict = .reset ∧ ∀ a ∈ trail.dropLast, a.stops = false

/-- Unless the session ends or there is no target port, what was scanned was forwarded. -/
def ForwardsScanned (verdict : Verdict) (trail : List Action) : Prop :=
  verdict ≠ .reset → (∀ port, .target port ∈ trail → port ≠ 0) →
    trail.flatMap Action.forwardedBytes = trail.flatMap Action.scannedBytes

/-- What the trail of one call accounts for. -/
structure Accounted (s s' : TcpStreamSession) (verdict : Verdict) (trail : List Action) :
    Prop where
  ends : EndsAtStop verdict trail
  forwards : ForwardsScanned verdict trail
  scans : verdict ≠ .reset → s.tlsStatus = .idle → s'.tlsStatus = .idle →
    trail.flatMap Action.scannedBytes ++ s'.clientHelloBuf =
      s.clientHelloBuf ++ trail.flatMap Action.deliveredBytes

section Call

variable {cfg : Config} {f : TcpFrame} {c c' : Conn} {verdict : Verdict} {trail : List Action}
  {payload bytes : List UInt8}

theorem EndsAtStop.deliver (h : EndsAtStop verdict trail) :
    EndsAtStop verdict (.delivered payload :: trail) := by
  rcases h with hgo | ⟨hreset,hlast⟩
  · left
    simpa [Action.stops] using hgo
  · right
    refine ⟨hreset,?_⟩
    cases trail with
    | nil => simp
    | cons a trail =>
      rw [List.dropLast_cons_of_ne_nil (List.cons_ne_nil a trail)]
      simpa [Action.stops] using hlast

theorem EndsAtStop.after {before : List Action} (h : EndsAtStop verdict trail)
    (hbefore : ∀ a ∈ before, a.stops = false) :
    ∀ a ∈ (before ++ trail).dropLast, a.stops = false := by
  intro a ha
  cases trail with
  | nil =>
    rw [List.append_nil] at ha
    exact hbefore a (List.mem_of_mem_dropLast ha)
  | cons b trail =>
    rw [List.dropLast_append_of_ne_nil (List.cons_ne_nil b trail)] at ha
    rcases List.mem_append.mp ha with ha | ha
    · exact hbefore a ha
    · rcases h with hgo | ⟨_,hlast⟩
      · exact hgo a (List.mem_of_mem_dropLast ha)
      · exact hlast a ha

theorem ForwardsScanned.deliver (h : ForwardsScanned verdict trail) :
    ForwardsScanned verdict (.delivered payload :: trail) := by
  intro hopen htarget
  have hrest := h hopen fun port hport => htarget port (List.mem_cons_of_mem _ hport)
  simpa [Action.forwardedBytes,Action.scannedBytes] using hrest

theorem accounted_nil {s s' : TcpStreamSession} (hhello : s'.clientHelloBuf = s.clientHelloBuf) :
    Accounted s s' verdict [] := by
  refine ⟨Or.inl (by simp),fun _ _ => rfl,?_⟩
  intro _ _ _
  simpa using hhello

theorem Passage.ends (h : Passage bytes verdict trail) : EndsAtStop verdict trail := by
  cases h with
  | attack => exact Or.inr ⟨rfl,by simp⟩
  | unrouted => exact Or.inl (by simp [Action.stops])
  | forwarded port _ hport => exact Or.inl (by simp [Action.stops])

theorem Passage.forwards (h : Passage bytes verdict trail) : ForwardsScanned verdict trail := by
  intro hopen htarget
  cases h with
  | attack => exact absurd rfl hopen
  | unrouted => exact absurd rfl (htarget 0 (by simp))
  | forwarded port _ hport => simp [Action.forwardedBytes,Action.scannedBytes]

theorem Passage.scans (h : Passage bytes verdict trail) :
    trail.flatMap Action.scannedBytes = bytes ∧ trail.flatMap Action.deliveredBytes = [] := by
  cases h with
  | attack => simp [Action.scannedBytes,Action.deliveredBytes]
  | unrouted => simp [Action.scannedBytes,Action.deliveredBytes]
  | forwarded port _ hport => simp [Action.scannedBytes,Action.deliveredBytes]

/-- The trail of a call that was delivered `payload`. -/
theorem Handled.accounted (h : Handled c payload c' verdict trail) :
    Accounted c.session c'.session verdict (.delivered payload :: trail) := by
  cases h with
  | dropped =>
    exact ⟨Or.inl (by simp [Action.stops]),fun h => absurd rfl h,fun h => absurd rfl h⟩
  | held _ hhello =>
    refine ⟨Or.inl (by simp [Action.stops]),fun _ _ => rfl,?_⟩
    intro _ _ _
    simpa [Action.scannedBytes,Action.deliveredBytes] using hhello
  | blocked sni =>
    exact ⟨Or.inr ⟨rfl,by simp [Action.stops]⟩,fun h => absurd rfl h,fun h => absurd rfl h⟩
  | tls _ _ hstatus htrail =>
    have hquiet : EndsAtStop verdict trail ∧ ForwardsScanned verdict trail := by
      rcases htrail with rfl | ⟨bytes,hpassage⟩
      · exact ⟨Or.inl (by simp),fun _ _ => rfl⟩
      · exact ⟨hpassage.ends,hpassage.forwards⟩
    exact ⟨hquiet.1.deliver,hquiet.2.deliver,fun _ _ hidle => absurd hidle hstatus⟩
  | plain _ _ hello hhello hempty htrail =>
    refine ⟨htrail.ends.deliver,htrail.forwards.deliver,?_⟩
    intro _ hidle _
    obtain ⟨hscanned,hdelivered⟩ := htrail.scans
    rw [List.flatMap_cons,List.flatMap_cons,hscanned,hdelivered,hempty,hhello hidle]
    simp [Action.scannedBytes,Action.deliveredBytes]

/-- A result with bytes is handled as delivered bytes. -/
def Delivers (res : TcpAssemblyResult) : Prop :=
  res.isReady = true ∧ res.payload.length > 0 → res.isSyn = false ∧ res.needAck = false

theorem handleResult_accounted {res : TcpAssemblyResult} (hres : Delivers res)
    (h : handleResult cfg f c res = .ok (c',verdict)) :
    ∃ trail, c'.audit = c.audit ++ trail ∧ Accounted c.session c'.session verdict trail := by
  unfold handleResult at h
  dsimp only at h
  by_cases hready : res.isReady = true ∧ res.payload.length > 0
  · obtain ⟨hsyn,hack⟩ := hres hready
    simp only [Conn.noteDelivery,hready,and_self,if_true,hsyn,hack,Bool.false_eq_true,
      if_false] at h
    obtain ⟨trail,haudit,hhandled⟩ := handleReady_trail h
    rw [audit_emit c rfl,List.append_assoc] at haudit
    exact ⟨_,haudit,hhandled.accounted⟩
  · simp only [Conn.noteDelivery,hready,if_false] at h
    split_ifs at h
    · cases h
      refine ⟨[],?_,accounted_nil rfl⟩
      rw [List.append_nil]
      exact (Unnoted.emit { c.setMacs f with session := _ } rfl).hushed.audit
    · cases h
      exact ⟨[],by rw [List.append_nil]; exact (Unnoted.emitAck c).hushed.audit,accounted_nil rfl⟩
    · cases h
      exact ⟨[],(List.append_nil _).symm,accounted_nil rfl⟩

end Call

theorem auditOf_eq_trace (p : Nat) (log : List (Nat × Action)) :
    auditOf p log = (traceOf p log).filter Action.isAudit := by
  rw [auditOf,ofSession_eq_trace]
  induction traceOf p log with
  | nil => rfl
  | cons a acts ih =>
    rw [List.flatMap_cons,ih,List.filter_cons]
    split_ifs <;> rfl

/-- What holds of a session that has stayed without TLS, and of its trail: nothing has stopped
it, its delivered bytes were scanned or are held, and the scanned bytes were forwarded if there
was a target port each time. -/
structure Inspected (s : TcpStreamSession) (trail : List Action) : Prop where
  unstopped : ∀ a ∈ trail, a.stops = false
  idle : s.tlsStatus = .idle
  scans : trail.flatMap Action.scannedBytes ++ s.clientHelloBuf =
    trail.flatMap Action.deliveredBytes
  forwards : (∀ port, .target port ∈ trail → port ≠ 0) →
    trail.flatMap Action.forwardedBytes = trail.flatMap Action.scannedBytes

/-- Nothing comes after a stop. -/
def StopsLast (trail : List Action) : Prop := ∀ a ∈ trail.dropLast, a.stops = false

namespace Inspected

variable {s s' : TcpStreamSession} {before trail : List Action} {verdict : Verdict}

theorem stopsLast (h : Inspected s trail) : StopsLast trail :=
  fun a ha => h.unstopped a (List.mem_of_mem_dropLast ha)

theorem outer (h : Inspected s trail) (hsame : s.SameOuter s') : Inspected s' trail where
  unstopped := h.unstopped
  idle := hsame.tlsStatus.trans h.idle
  scans := by
    rw [hsame.clientHelloBuf]
    exact h.scans
  forwards := h.forwards

/-- The session is served and stays open. -/
theorem serve (h : Inspected s before) (hacc : Accounted s s' verdict trail)
    (hopen : verdict ≠ .reset) (hidle : s'.tlsStatus = .idle) :
    Inspected s' (before ++ trail) := by
  constructor
  · intro a ha
    rcases List.mem_append.mp ha with ha | ha
    · exact h.unstopped a ha
    · rcases hacc.ends with hgo | ⟨hreset,_⟩
      · exact hgo a ha
      · exact absurd hreset hopen
  · exact hidle
  · rw [List.flatMap_append,List.flatMap_append,List.append_assoc,
      hacc.scans hopen h.idle hidle,← List.append_assoc,h.scans]
  · intro htarget
    have hbefore := h.forwards fun port hport => htarget port (List.mem_append_left _ hport)
    have hcall := hacc.forwards hopen fun port hport =>
      htarget port (List.mem_append_right _ hport)
    rw [List.flatMap_append,List.flatMap_append,hbefore,hcall]

end Inspected

/-- The session at `p` is without TLS after it was served, unless it is closed. -/
def IdleResult (p : Nat) : PacketCondition := fun q _ _ res c verdict =>
  Delivers res ∧ (q = p → verdict.closes res = false → c.session.tlsStatus = .idle)

theorem Verdict.finalActions_audit (verdict : Verdict) (c : Conn) :
    (verdict.finalActions c).filter Action.isAudit = c.audit := by
  unfold Verdict.finalActions
  split_ifs
  · rw [List.filter_append]
    exact List.append_nil _
  · rfl

/-- A log that ends with a RST has the trail of the call. -/
theorem auditOf_finalLog (verdict : Verdict) (c : Conn) (p : Nat) :
    auditOf p (verdict.finalLog c) = auditOf p c.tagged := by
  rw [Verdict.finalLog_eq,auditOf_eq_trace,auditOf_eq_trace,Conn.tagged]
  by_cases hp : c.addr = p
  · subst hp
    rw [traceOf_self,traceOf_self]
    exact Verdict.finalActions_audit verdict c
  · rw [traceOf_other p _ hp,traceOf_other p _ hp]

/-- A session stays inspected from its SYN on. -/
theorem inspected_lifetime (cfg : Config) (p : Nat) :
    Lifetime cfg { packet := IdleResult p } p
      (fun s acts => Inspected s (acts.filter Action.isAudit))
      (fun acts => StopsLast (acts.filter Action.isAudit)) := by
  constructor
  case born =>
    intro w f c _ hrun
    cases hrun
    exact ⟨by simp [World.conn,World.openedResult,Conn.noteDelivery,Conn.setMacs,Conn.emit,
      TcpAssemblerEngine.portsOf,Action.isAudit],rfl,rfl,fun _ => rfl⟩
  case kept =>
    intro w s₀ s f res c verdict acts h htakes hrun hopen hc
    obtain ⟨trail,haudit,hacc⟩ := handleResult_accounted hc.1 hrun
    have hlog : c.log.filter Action.isAudit = trail := haudit
    rw [List.filter_append,hlog]
    exact (h.outer htakes.outer).serve hacc (Verdict.ne_reset hopen) (hc.2 rfl hopen)
  case closed =>
    intro w s₀ s f res c verdict acts h htakes hrun _ hc
    obtain ⟨trail,haudit,hacc⟩ := handleResult_accounted hc.1 hrun
    have hlog : c.audit = trail := haudit
    rw [List.filter_append,Verdict.finalActions_audit,hlog]
    exact hacc.ends.after h.unstopped
  case event =>
    intro w s fd ev c acts h hrun _
    have hhushed := (Unnoted.onBackendEvent (w.conn p s) fd ev).hushed
    rw [hrun] at hhushed
    have hlog : c.log.filter Action.isAudit = [] := hhushed.audit
    rw [List.filter_append,hlog]
    have hacc : Accounted s c.session .proceed [] := accounted_nil hhushed.hello
    exact h.serve hacc (by decide) (hhushed.status.trans h.idle)
  case hungUp =>
    intro w s fd ev c acts h hrun _
    have hhushed := (Unnoted.onBackendEvent (w.conn p s) fd ev).hushed
    rw [hrun] at hhushed
    have hlog : c.log.filter Action.isAudit = [] := hhushed.audit
    rw [List.filter_append,hlog,List.append_nil]
    exact h.stopsLast
  case freed =>
    intro s acts h
    exact h.stopsLast

/-- The session at `p` is without TLS after the call, if it is live then. -/
def StaysIdle (cfg : Config) (p : Nat) (st : State) (ev : Event) : Prop :=
  ∀ st' out s, step cfg st ev = .ok (st',out) → st'.engine.heap.mem p = some s →
    s.tlsStatus = .idle

theorem StaysIdle.eventMeets {cfg : Config} {p : Nat} {st : State} {ev : Event}
    (h : StaysIdle cfg p st ev) : EventMeets cfg { packet := IdleResult p } st ev := by
  apply EventMeets.packets
  intro f hev engine res q _ s c verdict hheaders _ _ hpacket hq hs hrun
  constructor
  · intro hready
    rcases processPacket_handsOver hpacket with hempty | ⟨hsyn,hack,_⟩
    · rw [hempty] at hready
      cases hready.2
    · exact ⟨hsyn,hack⟩
  · intro hqp hopen
    subst hqp hev
    obtain ⟨st',out,hstep,hmem⟩ := handleTcpPacket_stores hheaders hpacket hq hs hrun hopen
    exact h st' out c.session hstep hmem

/-- After a stop the trail has no further entry. -/
theorem not_mem_after_stop {p : Nat} {a b : Action} {before after log : List (Nat × Action)}
    (hends : ∀ x ∈ (auditOf p log).dropLast, x.stops = false)
    (hlog : log = before ++ (p,a) :: after) (ha : a.stops = true) (haudit : a.isAudit = true)
    (hb : b.isAudit = true) : (p,b) ∉ after := by
  intro hmem
  have hafter : auditOf p after ≠ [] := List.ne_nil_of_mem (mem_auditOf hb hmem)
  have hsplit : auditOf p log = auditOf p before ++ [a] ++ auditOf p after := by
    have hone : auditOf p [(p,a)] = [a] := by simp [auditOf,ofSession,haudit]
    rw [hlog,← List.singleton_append,auditOf,ofSession_append,ofSession_append,← auditOf,← auditOf,
      ← auditOf,hone,List.append_assoc]
  have hin : a ∈ (auditOf p log).dropLast := by
    rw [hsplit,List.dropLast_append_of_ne_nil hafter]
    simp
  rw [hends a hin] at ha
  cases ha

/-- While the session is open, the scanned bytes and the held ones are the delivered ones, and the
forwarded bytes are the scanned ones if there was a target port each time. After an attack or a
block nothing is forwarded. -/
def ScansBeforeForwarding (p : Nat) (st : State) (outs : List Output) : Prop :=
  (∀ s, st.engine.heap.mem p = some s →
    ofSession Action.scannedBytes p (actionsOf outs) ++ s.clientHelloBuf =
        ofSession Action.deliveredBytes p (actionsOf outs) ∧
      ((∀ port, (p,.target port) ∈ actionsOf outs → port ≠ 0) →
        ofSession Action.forwardedBytes p (actionsOf outs) =
          ofSession Action.scannedBytes p (actionsOf outs))) ∧
  ∀ before a after, actionsOf outs = before ++ (p,a) :: after → a.stops = true →
    ∀ port bytes, (p,.forward port bytes) ∉ after

/-- Sessions whose TLS status stays IDLE are scanned before they are forwarded. -/
theorem inspection_before_forwarding (cfg : Config) (txPool : List Nat) (events : List Event)
    (st : State) (outs : List Output) (p : Nat)
    (hidle : Along (StaysIdle cfg p) (step cfg) (State.new txPool) events)
    (hrun : runOut (step cfg) (State.new txPool) events = .ok (st,outs)) :
    ScansBeforeForwarding p st outs := by
  have hmeets := Along.mono (fun _ _ h => StaysIdle.eventMeets h) events _ hidle
  have hlived := (inspected_lifetime cfg p).run hmeets hrun
  obtain ⟨hdelivered,hscanned,hforwarded⟩ := readings p (actionsOf outs)
  constructor
  · intro s hs
    have hlive : Inspected s (auditOf p (actionsOf outs)) := by
      rw [auditOf_eq_trace]
      exact hlived.live s hs
    rw [hdelivered,hscanned,hforwarded]
    refine ⟨hlive.scans,?_⟩
    intro htarget
    apply hlive.forwards
    intro port hport
    exact htarget port (of_mem_auditOf hport)
  · intro before a after hlog hstop port bytes
    have hends := hlived.ended (inspected_lifetime cfg p).freed (by simp [StopsLast])
    rw [← auditOf_eq_trace] at hends
    exact not_mem_after_stop hends hlog hstop (Action.isAudit_of_stops hstop) rfl

section Sample

/-- A computed form of `StaysIdle`. -/
def staysIdleCheck (cfg : Config) (p : Nat) (st : State) (ev : Event) : Bool :=
  match step cfg st ev with
  | .ok (st',_) => (st'.engine.heap.mem p).all fun s => s.tlsStatus = .idle
  | .error _ => true

theorem staysIdle_of_check {cfg : Config} {p : Nat} {st : State} {ev : Event}
    (h : staysIdleCheck cfg p st ev = true) : StaysIdle cfg p st ev := by
  intro st' out s hstep hs
  simpa [staysIdleCheck,hstep,hs] using h

/-- A plain byte, and then the first bytes of a ClientHello. -/
def plainThenHello : List Event :=
  [.packet (emptyFrame thSyn 0),
    .packet { byteFrame thAck 1 0x47 with backend := { socket := some 7 } },
    .packet (sampleFrame thAck 2 [0x16,3,1,0,58,1] (by decide))]

theorem inspection_plainThenHello :
    ∃ st outs, runOut (step mixedConfig) (State.new []) plainThenHello = .ok (st,outs) ∧
      (st.engine.heap.mem 1).map TcpStreamSession.clientHelloBuf = some [0x16,3,1,0,58,1] ∧
      ofSession Action.forwardedBytes 1 (actionsOf outs) = [0x47] ∧
      ScansBeforeForwarding 1 st outs := by
  refine ⟨_,_,rfl,by decide +kernel,by decide +kernel,?_⟩
  apply inspection_before_forwarding mixedConfig [] plainThenHello
  · exact Along.of_check (fun _ _ h => staysIdle_of_check h) _ _ (by decide +kernel)
  · rfl

end Sample

end Aethon.Pipeline
