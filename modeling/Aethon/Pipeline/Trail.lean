import Aethon.Pipeline.ConnRule
import Aethon.Pipeline.Steps
import Aethon.Pipeline.PlainPath

/-!
# The trail of a call

Of what a call logs, the trail keeps the way of the client's bytes: delivered, blocked, given to
the TLS engine, scanned, routed and forwarded. Every way through `handle_tcp_packet` has a short
trail, and the TLS status afterwards follows from the answers of OpenSSL.
-/

namespace Aethon.Pipeline

open Framework Tls

def Action.isTrail : Action → Bool
  | .delivered _ => true
  | .policyBlock _ => true
  | .tlsInit => true
  | .feed _ => true
  | .scan _ _ => true
  | .target _ => true
  | .forward _ _ => true
  | _ => false

def Conn.trail (c : Conn) : List Action := c.log.filter Action.isTrail

/-- A reading of actions on the trail can be taken from the trail. -/
theorem flatMap_trail {β : Type} {g : Action → List β} (hg : ∀ a, a.isTrail = false → g a = [])
    (acts : List Action) : (acts.filter Action.isTrail).flatMap g = acts.flatMap g := by
  induction acts with
  | nil => rfl
  | cons a acts ih =>
    rw [List.filter_cons]
    split_ifs with ha
    · rw [List.flatMap_cons,List.flatMap_cons,ih]
    · rw [List.flatMap_cons,hg a (by simpa using ha),List.nil_append,ih]

theorem trail_emit (c : Conn) {a : Action} (h : a.isTrail = true) :
    (c.emit a).trail = c.trail ++ [a] := by
  simp [Conn.trail,Conn.emit,h]

/-- Nothing on the trail happens, and the hello buffer and the TLS status stay. -/
structure Unnoted (c c' : Conn) : Prop where
  trail : c'.trail = c.trail
  hello : c'.session.clientHelloBuf = c.session.clientHelloBuf
  status : c'.session.tlsStatus = c.session.tlsStatus

namespace Unnoted

theorem refl (c : Conn) : Unnoted c c := ⟨rfl,rfl,rfl⟩

theorem trans {a b c : Conn} (h : Unnoted a b) (h' : Unnoted b c) : Unnoted a c :=
  ⟨h'.trail.trans h.trail,h'.hello.trans h.hello,h'.status.trans h.status⟩

theorem of_log {c c' : Conn} {acts : List Action} (hlog : c'.log = c.log ++ acts)
    (hno : ∀ a ∈ acts, a.isTrail = false)
    (hhello : c'.session.clientHelloBuf = c.session.clientHelloBuf)
    (hstatus : c'.session.tlsStatus = c.session.tlsStatus) : Unnoted c c' := by
  refine ⟨?_,hhello,hstatus⟩
  have hnone : acts.filter Action.isTrail = [] := by
    rw [List.filter_eq_nil_iff]
    intro a ha
    rw [hno a ha]
    decide
  rw [Conn.trail,hlog,List.filter_append,hnone,List.append_nil,Conn.trail]

theorem emit (c : Conn) {a : Action} (h : a.isTrail = false) : Unnoted c (c.emit a) :=
  of_log rfl (by simpa using h) rfl rfl

theorem emitAck (c : Conn) : Unnoted c c.emitAck := emit c rfl

theorem backendOnly {c c' : Conn} (h : BackendOnly c c') : Unnoted c c' := by
  obtain ⟨_,_,_,_,acts,rfl,hacts⟩ := h
  refine of_log rfl ?_ rfl rfl
  intro a ha
  obtain ⟨_,_,rfl⟩ := Action.eq_write (hacts a ha)
  rfl

theorem sendTcpSegmentedData (c : Conn) (sent : Nat → Bool) (data : List UInt8) :
    Unnoted c (c.sendTcpSegmentedData sent data).2 := by
  unfold Conn.sendTcpSegmentedData
  split_ifs
  · exact refl c
  · refine of_log rfl ?_ rfl rfl
    intro a ha
    obtain ⟨_,_,rfl⟩ := Conn.sendSegments_log a ha
    rfl

theorem answerTls (f : TcpFrame) (c : Conn) : Unnoted c (answerTls f c) := by
  unfold Pipeline.answerTls
  split
  · exact (emit c rfl).trans (sendTcpSegmentedData _ _ _)
  · exact refl c

theorem announceWindow (c : Conn) (ev : BackendEvent) (oldWin newWin : Nat) :
    Unnoted c (c.announceWindow ev oldWin newWin) := by
  unfold Conn.announceWindow
  split
  · exact refl c
  · split_ifs
    · exact of_log rfl (by simp [Action.isTrail]) rfl rfl
    · exact refl c

theorem rule : EventRule Unnoted where
  refl := refl
  trans _ _ _ := trans
  epoll _ _ _ := ⟨rfl,rfl,rfl⟩
  flush c io := backendOnly (BackendOnly.flushBackendTx c io)
  update c ev oldWin := announceWindow c ev oldWin _
  read c _ := emit c rfl
  segments := sendTcpSegmentedData

theorem hangUp (c : Conn) (fd : Nat) (ev : BackendEvent) : Unnoted c (c.hangUp fd ev) := by
  unfold Conn.hangUp
  dsimp only
  split
  · exact ⟨rfl,rfl,rfl⟩
  · split_ifs
    · exact of_log rfl (by simp [Action.isTrail]) rfl rfl
    · exact ⟨rfl,rfl,rfl⟩

theorem onBackendEvent (c : Conn) (fd : Nat) (ev : BackendEvent) :
    Unnoted c (c.onBackendEvent fd ev).1 := by
  rw [onBackendEvent_eq]
  have hbefore := rule.beforeHangUp c fd ev
  split_ifs
  · exact hbefore.trans (hangUp _ fd ev)
  · exact hbefore

end Unnoted

/-- The trail of bytes that are scanned: an attack ends it, no target port ends it, or the same
bytes are forwarded to the target port. -/
inductive Passage (bytes : List UInt8) : Verdict → List Action → Prop where
  | attack : Passage bytes .reset [.scan bytes true]
  | unrouted : Passage bytes .proceed [.scan bytes false,.target 0]
  | forwarded (port : BitVec 16) (verdict : Verdict) (hport : port ≠ 0) :
      Passage bytes verdict [.scan bytes false,.target port,.forward port bytes]

/-- The plaintext that `SSL_read` returns. -/
def DecryptStep.plaintext : DecryptStep → Option (List UInt8)
  | .plain (b :: bytes) => some (b :: bytes)
  | _ => none

/-- The TLS status after `SSL_read`. -/
def DecryptStep.status : DecryptStep → TlsSessionStatus
  | .plain _ => .established
  | .wantIo => .established
  | .zeroReturn => .closed
  | .failed => .errorState

namespace TlsIo

/-- The plaintext that a call reads when it meets the TLS status. -/
def reads (io : TlsIo) : TlsSessionStatus → Option (List UInt8)
  | .handshake => match io.handshake with
    | .done => if io.pendingTx = [] then io.decrypt.plaintext else none
    | _ => none
  | .established => io.decrypt.plaintext
  | _ => none

/-- The TLS status that a call leaves. -/
def statusAfter (io : TlsIo) : TlsSessionStatus → TlsSessionStatus
  | .handshake => match io.handshake with
    | .done => if io.pendingTx = [] then io.decrypt.status else .established
    | .wantIo => .handshake
    | .failed => .errorState
  | .established => io.decrypt.status
  | status => status

/-- Outside the handshake and the established phase nothing is read. -/
theorem other (io : TlsIo) {status : TlsSessionStatus} (hshake : status ≠ .handshake)
    (hopen : status ≠ .established) :
    io.reads status = none ∧ io.statusAfter status = status := by
  cases status with
  | idle => exact ⟨rfl,rfl⟩
  | handshake => exact absurd rfl hshake
  | established => exact absurd rfl hopen
  | errorState => exact ⟨rfl,rfl⟩
  | closed => exact ⟨rfl,rfl⟩

theorem statusAfter_ne_idle {io : TlsIo} {status : TlsSessionStatus} (h : status ≠ .idle) :
    io.statusAfter status ≠ .idle := by
  have hdecrypt : io.decrypt.status ≠ .idle := by
    cases io.decrypt <;> exact TlsSessionStatus.noConfusion
  by_cases hshake : status = .handshake
  · subst hshake
    simp only [statusAfter]
    split
    · split
      · exact hdecrypt
      · decide
    · decide
    · decide
  · by_cases hopen : status = .established
    · subst hopen
      exact hdecrypt
    · rw [(io.other hshake hopen).2]
      exact h

end TlsIo

/-- The trail of what a call has read: nothing, or the passage of the plaintext. -/
def Course (verdict : Verdict) (trail : List Action) : Option (List UInt8) → Prop
  | none => trail = [] ∧ verdict ≠ .reset
  | some bytes => Passage bytes verdict trail

section Courses

variable {cfg : Config} {f : TcpFrame} {c c' : Conn} {verdict : Verdict}

theorem relay_course {bytes : List UInt8} (h : relay cfg f c bytes = .ok (c',verdict)) :
    ∃ port, targetPort cfg f c.session = .ok port ∧
      c'.trail = c.trail ++ .target port :: (if port = 0 then [] else [.forward port bytes]) ∧
      (port = 0 → verdict = .proceed) ∧ c'.session.clientHelloBuf = [] ∧
      c'.session.tlsStatus = c.session.tlsStatus := by
  unfold relay at h
  obtain ⟨port,hport,hrest⟩ := (bind_ok_iff ..).mp h
  have htarget := trail_emit c (a := .target port) rfl
  refine ⟨port,hport,?_⟩
  dsimp only at hrest
  split_ifs at hrest with hport
  · have hforward := trail_emit (c.emit (.target port)) (a := .forward port bytes) rfl
    have hbackend := Unnoted.backendOnly (BackendOnly.forwardToBackend
      ((c.emit (.target port)).emit (.forward port bytes)) f.backend bytes port)
    rw [htarget,List.append_assoc] at hforward
    rw [if_neg hport]
    split at hrest
    · rename_i d hd
      cases hrest
      rw [hd] at hbackend
      exact ⟨hbackend.trail.trans hforward,fun h => absurd h hport,rfl,hbackend.status⟩
    · rename_i d hd
      cases hrest
      rw [hd] at hbackend
      have hend := (Unnoted.rule.armEpoll d.clearHello cfg.epfd
        (c.emit (.target port)).session.backendFd).trans (Unnoted.emitAck _)
      exact ⟨hend.trail.trans (hbackend.trail.trans hforward),fun h => absurd h hport,
        hend.hello,hend.status.trans hbackend.status⟩
  · cases hrest
    have hzero : port = 0 := not_not.mp hport
    rw [if_pos hzero]
    exact ⟨htarget,fun _ => rfl,rfl,rfl⟩

theorem scanBytes_trail (c : Conn) (f : TcpFrame) (bytes : List UInt8) :
    (c.scanBytes f bytes).trail = c.trail ++ [.scan bytes f.attack] :=
  trail_emit { c with session := { c.session with hsStream := c.session.hsStream || f.openStream } }
    rfl

theorem inspect_course {bytes : List UInt8} (h : inspect cfg f c bytes = .ok (c',verdict)) :
    ∃ trail, Passage bytes verdict trail ∧ c'.trail = c.trail ++ trail ∧
      c'.session.clientHelloBuf = [] ∧ c'.session.tlsStatus = c.session.tlsStatus := by
  have hscan := scanBytes_trail c f bytes
  unfold inspect at h
  dsimp only at h
  split_ifs at h with hattack
  · cases h
    rw [hattack] at hscan
    exact ⟨_,Passage.attack,hscan,rfl,rfl⟩
  · obtain ⟨port,_,htrail,hverdict,hhello,hstatus⟩ := relay_course h
    have hclean : f.attack = false := by simpa using hattack
    rw [hscan,hclean,List.append_assoc] at htrail
    by_cases hport : port = 0
    · subst hport
      rw [hverdict rfl]
      exact ⟨_,Passage.unrouted,htrail,hhello,hstatus⟩
    · rw [if_neg hport] at htrail
      exact ⟨_,Passage.forwarded port verdict hport,htrail,hhello,hstatus⟩

/-- The answer to the client is not on the trail. -/
theorem answerTls_course {d : Conn} {status : TlsSessionStatus} (htrail : d.trail = c.trail)
    (hstatus : d.session.tlsStatus = status) :
    ∃ trail, Course .proceed trail none ∧ (answerTls f d).trail = c.trail ++ trail ∧
      (answerTls f d).session.tlsStatus = status := by
  have hanswer := Unnoted.answerTls f d
  refine ⟨[],⟨rfl,by decide⟩,?_,hanswer.status.trans hstatus⟩
  rw [hanswer.trail,htrail,List.append_nil]

theorem sendTcpSegmentedData_course {d : Conn} {sent : Nat → Bool} {data : List UInt8}
    {status : TlsSessionStatus} (htrail : d.trail = c.trail)
    (hstatus : d.session.tlsStatus = status) :
    ∃ trail, Course .silent trail none ∧
      (d.sendTcpSegmentedData sent data).2.trail = c.trail ++ trail ∧
      (d.sendTcpSegmentedData sent data).2.session.tlsStatus = status := by
  have hsend := Unnoted.sendTcpSegmentedData d sent data
  refine ⟨[],⟨rfl,by decide⟩,?_,hsend.status.trans hstatus⟩
  rw [hsend.trail,htrail,List.append_nil]

theorem tlsData_established (hstatus : c.session.tlsStatus = .established)
    (h : tlsData cfg f c = .ok (c',verdict)) :
    ∃ trail, Course verdict trail f.tls.decrypt.plaintext ∧ c'.trail = c.trail ++ trail ∧
      c'.session.tlsStatus = f.tls.decrypt.status := by
  unfold tlsData at h
  rw [if_pos hstatus] at h
  cases hdecrypt : f.tls.decrypt with
  | plain bytes =>
    rw [hdecrypt] at h
    cases bytes with
    | nil =>
      cases h
      exact answerTls_course rfl hstatus
    | cons b bytes =>
      obtain ⟨⟨d,v⟩,hd,hrest⟩ := (bind_ok_iff ..).mp h
      obtain ⟨trail,hpassage,htrail,_,hsame⟩ := inspect_course hd
      cases v with
      | proceed =>
        cases hrest
        have hanswer := Unnoted.answerTls f d
        exact ⟨trail,hpassage,hanswer.trail.trans htrail,
          hanswer.status.trans (hsame.trans hstatus)⟩
      | reply =>
        cases hrest
        exact ⟨trail,hpassage,htrail,hsame.trans hstatus⟩
      | reset =>
        cases hrest
        exact ⟨trail,hpassage,htrail,hsame.trans hstatus⟩
      | silent =>
        cases hrest
        exact ⟨trail,hpassage,htrail,hsame.trans hstatus⟩
  | wantIo =>
    rw [hdecrypt] at h
    cases h
    exact answerTls_course rfl hstatus
  | zeroReturn =>
    rw [hdecrypt] at h
    cases h
    exact answerTls_course rfl rfl
  | failed =>
    rw [hdecrypt] at h
    cases h
    exact answerTls_course rfl rfl

theorem tlsData_other (hstatus : c.session.tlsStatus ≠ .established)
    (h : tlsData cfg f c = .ok (c',verdict)) :
    ∃ trail, Course verdict trail none ∧ c'.trail = c.trail ++ trail ∧
      c'.session.tlsStatus = c.session.tlsStatus := by
  unfold tlsData at h
  rw [if_neg hstatus] at h
  cases h
  exact answerTls_course rfl rfl

/-- The TLS branch gives its bytes to the TLS engine and passes on what it reads. -/
theorem tlsPath_course {hello : List UInt8} (h : tlsPath cfg f c hello = .ok (c',verdict)) :
    ∃ trail, Course verdict trail (f.tls.reads c.session.tlsStatus) ∧
      c'.trail = c.trail ++ .feed hello :: trail ∧
      c'.session.tlsStatus = f.tls.statusAfter c.session.tlsStatus := by
  have hfeed : (c.emit (.feed hello)).clearHello.trail = c.trail ++ [.feed hello] :=
    trail_emit c rfl
  have hsplit (trail : List Action) : c.trail ++ .feed hello :: trail =
      (c.emit (.feed hello)).clearHello.trail ++ trail := by
    rw [hfeed,List.append_assoc]
    rfl
  unfold tlsPath at h
  dsimp only at h
  simp only [hsplit]
  have hsame : (c.emit (.feed hello)).clearHello.session.tlsStatus = c.session.tlsStatus := rfl
  generalize (c.emit (.feed hello)).clearHello = d at h hsame ⊢
  rw [← hsame]
  by_cases hshake : d.session.tlsStatus = .handshake
  · rw [if_pos hshake,Conn.stepHandshake] at h
    rw [hshake,TlsIo.reads,TlsIo.statusAfter]
    cases hstep : f.tls.handshake with
    | done =>
      rw [hstep] at h
      dsimp only at h ⊢
      by_cases htx : f.tls.pendingTx = []
      · rw [if_neg (not_not.mpr htx)] at h
        rw [if_pos htx,if_pos htx]
        exact tlsData_established (c := d.setStatus .established) rfl h
      · rw [if_pos htx] at h
        rw [if_neg htx,if_neg htx]
        cases h
        exact sendTcpSegmentedData_course (d := d.setStatus .established) rfl rfl
    | wantIo =>
      rw [hstep] at h
      dsimp only at h ⊢
      split at h
      · cases h
        exact sendTcpSegmentedData_course rfl hshake
      · rw [← hshake]
        exact tlsData_other (by rw [hshake]; decide) h
    | failed =>
      rw [hstep] at h
      dsimp only at h ⊢
      split at h
      · cases h
        exact sendTcpSegmentedData_course (d := d.setStatus .errorState) rfl rfl
      · exact tlsData_other (c := d.setStatus .errorState) TlsSessionStatus.noConfusion h
  · rw [if_neg hshake] at h
    by_cases hopen : d.session.tlsStatus = .established
    · rw [hopen]
      exact tlsData_established hopen h
    · obtain ⟨hreads,hafter⟩ := f.tls.other hshake hopen
      rw [hreads,hafter]
      exact tlsData_other hopen h

end Courses

/-- The policy blocks these bytes. -/
def blocksHello (cfg : Config) (hello : List UInt8) : Bool :=
  match parseClientHello hello with
  | .ok info => info.isClientHello &&
      (info.sni hello = [] || !cfg.blocklist.isAllowed (info.sni hello))
  | .error _ => false

/-- The policy routes these bytes to a TLS service. -/
def routesTls (cfg : Config) (f : TcpFrame) (hello : List UInt8) : Bool :=
  match policyService cfg f hello with
  | .ok (some svc) => svc.hasSslCtx
  | _ => false

/-- The TLS status of a new TLS engine. -/
def TlsIo.initStatus (io : TlsIo) : TlsSessionStatus := if io.sslNew then .handshake else .idle

/-- What the policy does with complete bytes: they are blocked, or handled by the TLS status,
which is that of a new TLS engine if they are routed to a TLS service. -/
inductive PolicyCase (cfg : Config) (f : TcpFrame) (c : Conn) (hello : List UInt8) :
    Conn → Verdict → Prop where
  | blocked (sni : List UInt8) (h : blocksHello cfg hello = true) :
      PolicyCase cfg f c hello (c.emit (.policyBlock sni)).clearHello .reset
  | passed (d c' : Conn) (verdict : Verdict) (hblock : blocksHello cfg hello = false)
      (hroute : routesTls cfg f hello = false) (hd : Unnoted c d)
      (h : dispatch cfg f d hello = .ok (c',verdict)) : PolicyCase cfg f c hello c' verdict
  | routed (d c' : Conn) (verdict : Verdict) (hblock : blocksHello cfg hello = false)
      (hroute : routesTls cfg f hello = true) (htrail : d.trail = c.trail ++ [.tlsInit])
      (hstatus : d.session.tlsStatus = f.tls.initStatus)
      (h : dispatch cfg f d hello = .ok (c',verdict)) : PolicyCase cfg f c hello c' verdict

section Policy

variable {cfg : Config} {f : TcpFrame} {c c' : Conn} {verdict : Verdict}

theorem applyPolicy_cases {hello : List UInt8}
    (h : applyPolicy cfg f c hello = .ok (c',verdict)) : PolicyCase cfg f c hello c' verdict := by
  unfold applyPolicy at h
  obtain ⟨info,hinfo,hrest⟩ := (bind_ok_iff ..).mp h
  by_cases hhello : info.isClientHello = true
  · simp only [hhello,if_true] at hrest
    by_cases hblock : info.sni hello = [] ∨ (!cfg.blocklist.isAllowed (info.sni hello)) = true
    · rw [if_pos hblock] at hrest
      cases hrest
      refine .blocked _ ?_
      simpa [blocksHello,hinfo,hhello] using hblock
    · rw [if_neg hblock] at hrest
      obtain ⟨svc,hsvc,hgo⟩ := (bind_ok_iff ..).mp hrest
      have hpass : blocksHello cfg hello = false := by
        simpa [blocksHello,hinfo,hhello] using hblock
      have hpolicy : policyService cfg f hello = .ok svc := by
        simp only [policyService,hinfo,bind,Except.bind,hhello,if_true,if_neg hblock,hsvc]
      cases svc with
      | none =>
        exact .passed (c.setMacs f) c' verdict hpass (by rw [routesTls,hpolicy]) ⟨rfl,rfl,rfl⟩ hgo
      | some svc =>
        have hroute : routesTls cfg f hello = svc.hasSslCtx := by rw [routesTls,hpolicy]
        cases hssl : svc.hasSslCtx with
        | false =>
          simp only [Conn.routeTls,hssl,Bool.false_eq_true,if_false] at hgo
          exact .passed (c.setMacs f) c' verdict hpass (hroute.trans hssl) ⟨rfl,rfl,rfl⟩ hgo
        | true =>
          refine .routed _ c' verdict hpass (hroute.trans hssl) ?_ ?_ hgo
          · simp only [Conn.routeTls,hssl,if_true]
            exact trail_emit _ rfl
          · simp only [Conn.routeTls,hssl,if_true]
            rfl
  · simp only [hhello] at hrest
    refine .passed c c' verdict ?_ ?_ (Unnoted.refl c) hrest
    · simp [blocksHello,hinfo,hhello]
    · simp [routesTls,policyService,hinfo,hhello,bind,Except.bind,pure,Except.pure]

/-- Bytes for a session with TLS are not held. -/
theorem handleReady_tls {payload : List UInt8} (hstatus : c.session.tlsStatus ≠ .idle)
    (h : handleReady cfg f c payload = .ok (c',verdict)) :
    PolicyCase cfg f c payload c' verdict := by
  have hhold : holdHello c.session payload = .pass c.session payload := by
    unfold holdHello
    rw [if_neg (fun hidle => hstatus hidle.1)]
  rw [handleReady,hhold] at h
  exact applyPolicy_cases h

/-- Bytes for a session without TLS are refused, held, or come to the policy. -/
theorem handleReady_idle {payload : List UInt8} (hstatus : c.session.tlsStatus = .idle)
    (h : handleReady cfg f c payload = .ok (c',verdict)) :
    c'.trail = c.trail ∧ c'.session.tlsStatus = .idle ∨
      ∃ d hello, d.trail = c.trail ∧ d.session.tlsStatus = .idle ∧
        holdHello c.session payload = .pass d.session hello ∧
        PolicyCase cfg f d hello c' verdict := by
  unfold handleReady at h
  split at h
  · cases h
    exact Or.inl ⟨rfl,hstatus⟩
  · rename_i t ht
    cases h
    have hack := Unnoted.emitAck { c with session := t }
    refine Or.inl ⟨hack.trail,hack.status.trans ?_⟩
    rw [holdHello_session (Or.inl ht)]
    exact hstatus
  · rename_i t hello ht
    refine Or.inr ⟨{ c with session := t },hello,rfl,?_,ht,applyPolicy_cases h⟩
    change t.tlsStatus = .idle
    rw [holdHello_session (Or.inr ⟨hello,ht⟩)]
    exact hstatus

/-- A call logs nothing on the trail, or it delivers bytes and handles them. -/
theorem handleResult_cases {s₀ s : TcpStreamSession} {p : Nat} {res : TcpAssemblyResult}
    (htakes : Takes s₀ f p s res) (h : handleResult cfg f c res = .ok (c',verdict)) :
    Unnoted c c' ∧ verdict ≠ .reset ∨ res.payload ≠ [] ∧
      handleReady cfg f (c.emit (.delivered res.payload)) res.payload = .ok (c',verdict) := by
  have hover := s₀.onPacket_handsOver f.packet f.call.nowNs f.call.garbage
  obtain ⟨r,hon,rfl⟩ := htakes
  rw [hon] at hover
  unfold handleResult at h
  dsimp only at h
  by_cases hready : (TcpAssemblerEngine.portsOf f.packet r (some p)).isReady = true ∧
      (TcpAssemblerEngine.portsOf f.packet r (some p)).payload.length > 0
  · have hne : (TcpAssemblerEngine.portsOf f.packet r (some p)).payload ≠ [] :=
      List.length_pos_iff.mp hready.2
    rcases hover with hempty | ⟨hsyn,hack,_⟩
    · exact absurd hempty hne
    · have hsyn' : (TcpAssemblerEngine.portsOf f.packet r (some p)).isSyn = false := hsyn
      have hack' : (TcpAssemblerEngine.portsOf f.packet r (some p)).needAck = false := hack
      simp only [Conn.noteDelivery,hready,and_self,if_true,hsyn',hack',Bool.false_eq_true,
        if_false] at h
      exact Or.inr ⟨hne,h⟩
  · simp only [Conn.noteDelivery,hready,if_false] at h
    refine Or.inl ?_
    split_ifs at h
    · cases h
      exact ⟨⟨(Unnoted.emit { c.setMacs f with session := _ } rfl).trail,rfl,rfl⟩,by decide⟩
    · cases h
      exact ⟨Unnoted.emitAck c,by decide⟩
    · cases h
      exact ⟨Unnoted.refl c,by decide⟩

end Policy

end Aethon.Pipeline
