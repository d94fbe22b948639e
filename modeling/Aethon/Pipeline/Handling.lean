import Aethon.Pipeline.Steps

/-!
# Invariants of the backend connection

Most of the handling of a packet leaves the backend connection and the kernel as they are. An
invariant of both therefore only has to be shown for routing to a service and for the relay.
-/

namespace Aethon.Pipeline

open Framework Tls

/-- The backend connection, its epoll flag and the kernel stay as they are. -/
structure Still (c c' : Conn) : Prop where
  addr : c'.addr = c.addr
  kernel : c'.kernel = c.kernel
  backendFd : c'.session.backendFd = c.session.backendFd
  backendPort : c'.session.backendPort = c.session.backendPort
  backendTxBuf : c'.session.backendTxBuf = c.session.backendTxBuf
  epolloutArmed : c'.session.epolloutArmed = c.session.epolloutArmed

namespace Still

theorem refl (c : Conn) : Still c c := ⟨rfl,rfl,rfl,rfl,rfl,rfl⟩

theorem trans {a b c : Conn} (h : Still a b) (h' : Still b c) : Still a c where
  addr := h'.addr.trans h.addr
  kernel := h'.kernel.trans h.kernel
  backendFd := h'.backendFd.trans h.backendFd
  backendPort := h'.backendPort.trans h.backendPort
  backendTxBuf := h'.backendTxBuf.trans h.backendTxBuf
  epolloutArmed := h'.epolloutArmed.trans h.epolloutArmed

theorem emit (c : Conn) (a : Action) : Still c (c.emit a) := ⟨rfl,rfl,rfl,rfl,rfl,rfl⟩

theorem clearHello (c : Conn) : Still c c.clearHello := ⟨rfl,rfl,rfl,rfl,rfl,rfl⟩

theorem setMacs (c : Conn) (f : TcpFrame) : Still c (c.setMacs f) := ⟨rfl,rfl,rfl,rfl,rfl,rfl⟩

theorem setStatus (c : Conn) (status : TlsSessionStatus) : Still c (c.setStatus status) :=
  ⟨rfl,rfl,rfl,rfl,rfl,rfl⟩

theorem scanBytes (c : Conn) (f : TcpFrame) (bytes : List UInt8) : Still c (c.scanBytes f bytes) :=
  ⟨rfl,rfl,rfl,rfl,rfl,rfl⟩

theorem stepHandshake (c : Conn) (io : TlsIo) : Still c (c.stepHandshake io) := by
  unfold Conn.stepHandshake
  split
  · exact setStatus c _
  · exact refl c
  · exact setStatus c _

theorem noteDelivery (c : Conn) (res : TcpAssemblyResult) : Still c (c.noteDelivery res) := by
  unfold Conn.noteDelivery
  split_ifs
  · exact emit c _
  · exact refl c

theorem sendTcpSegmentedData (c : Conn) (sent : Nat → Bool) (data : List UInt8) :
    Still c (c.sendTcpSegmentedData sent data).2 := by
  unfold Conn.sendTcpSegmentedData
  split_ifs
  · exact refl c
  · exact ⟨rfl,rfl,rfl,rfl,rfl,rfl⟩

theorem answerTls (f : TcpFrame) (c : Conn) : Still c (answerTls f c) := by
  unfold Pipeline.answerTls
  split
  · exact (emit c _).trans (sendTcpSegmentedData _ _ _)
  · exact refl c

theorem announceWindow (c : Conn) (ev : BackendEvent) (oldWin newWin : Nat) :
    Still c (c.announceWindow ev oldWin newWin) := by
  unfold Conn.announceWindow
  split
  · exact refl c
  · split_ifs
    · exact ⟨rfl,rfl,rfl,rfl,rfl,rfl⟩
    · exact refl c

theorem onReadable (c : Conn) (ev : BackendEvent) : Still c (c.onReadable ev).1 := by
  unfold Conn.onReadable
  split
  · exact refl c
  · exact refl c
  · dsimp only
    split_ifs <;> exact (emit c _).trans (sendTcpSegmentedData _ _ _)

theorem held (c : Conn) {t : TcpStreamSession}
    (h : t = { c.session with clientHelloBuf := t.clientHelloBuf }) :
    Still c { c with session := t } := by
  rw [h]
  exact ⟨rfl,rfl,rfl,rfl,rfl,rfl⟩

end Still

/-- The rules for an invariant `I` of the connection; `J` is what is left of it when the session is
about to be closed. -/
structure CallRule (cfg : Config) (f : TcpFrame) (I J : Conn → Prop) : Prop where
  still : ∀ c c', Still c c' → I c → I c'
  weaken : ∀ c, I c → J c
  route : ∀ c sni svc, I c → selectService cfg f sni = .ok (some svc) →
    I (c.routeTls f.tls (some svc))
  relay : ∀ c bytes c' verdict, I c → relay cfg f c bytes = .ok (c',verdict) →
    (verdict = .reset → J c') ∧ (verdict ≠ .reset → I c')

namespace CallRule

variable {cfg : Config} {f : TcpFrame} {I J : Conn → Prop} {c c' : Conn} {verdict : Verdict}

theorem ends (rule : CallRule cfg f I J) (hstill : Still c c') (h : I c) (verdict : Verdict) :
    (verdict = .reset → J c') ∧ (verdict ≠ .reset → I c') :=
  ⟨fun _ => rule.weaken c' (rule.still c c' hstill h),fun _ => rule.still c c' hstill h⟩

theorem inspect (rule : CallRule cfg f I J) {bytes : List UInt8} (h : I c)
    (hrun : inspect cfg f c bytes = .ok (c',verdict)) :
    (verdict = .reset → J c') ∧ (verdict ≠ .reset → I c') := by
  unfold Pipeline.inspect at hrun
  dsimp only at hrun
  split_ifs at hrun
  · cases hrun
    exact rule.ends ((Still.scanBytes c f bytes).trans (Still.clearHello _)) h _
  · exact rule.relay _ bytes c' verdict (rule.still _ _ (Still.scanBytes c f bytes) h) hrun

theorem tlsData (rule : CallRule cfg f I J) (h : I c)
    (hrun : tlsData cfg f c = .ok (c',verdict)) :
    (verdict = .reset → J c') ∧ (verdict ≠ .reset → I c') := by
  unfold Pipeline.tlsData at hrun
  split_ifs at hrun
  · split at hrun
    · obtain ⟨⟨d,v⟩,hd,hrest⟩ := (bind_ok_iff ..).mp hrun
      have hinspect := rule.inspect h hd
      cases v with
      | proceed =>
        cases hrest
        exact rule.ends (Still.answerTls f d) (hinspect.2 (by decide)) _
      | reply =>
        cases hrest
        exact hinspect
      | reset =>
        cases hrest
        exact hinspect
      | silent =>
        cases hrest
        exact hinspect
    · cases hrun
      exact rule.ends (Still.answerTls f c) h _
    · cases hrun
      exact rule.ends (Still.answerTls f c) h _
    · cases hrun
      exact rule.ends ((Still.setStatus c _).trans (Still.answerTls f _)) h _
    · cases hrun
      exact rule.ends ((Still.setStatus c _).trans (Still.answerTls f _)) h _
  · cases hrun
    exact rule.ends (Still.answerTls f c) h _

theorem tlsPath (rule : CallRule cfg f I J) {hello : List UInt8} (h : I c)
    (hrun : tlsPath cfg f c hello = .ok (c',verdict)) :
    (verdict = .reset → J c') ∧ (verdict ≠ .reset → I c') := by
  have hfeed := (Still.emit c (.feed hello)).trans (Still.clearHello _)
  unfold Pipeline.tlsPath at hrun
  dsimp only at hrun
  split at hrun
  · have hstep := hfeed.trans (Still.stepHandshake _ f.tls)
    split at hrun
    · cases hrun
      exact rule.ends (hstep.trans (Still.sendTcpSegmentedData _ _ _)) h _
    · exact rule.tlsData (rule.still _ _ hstep h) hrun
  · exact rule.tlsData (rule.still _ _ hfeed h) hrun

theorem dispatch (rule : CallRule cfg f I J) {hello : List UInt8} (h : I c)
    (hrun : dispatch cfg f c hello = .ok (c',verdict)) :
    (verdict = .reset → J c') ∧ (verdict ≠ .reset → I c') := by
  unfold Pipeline.dispatch at hrun
  split_ifs at hrun
  · exact rule.tlsPath h hrun
  · exact rule.inspect h hrun

theorem applyPolicy (rule : CallRule cfg f I J) {hello : List UInt8} (h : I c)
    (hrun : applyPolicy cfg f c hello = .ok (c',verdict)) :
    (verdict = .reset → J c') ∧ (verdict ≠ .reset → I c') := by
  unfold Pipeline.applyPolicy at hrun
  obtain ⟨info,_,hrest⟩ := (bind_ok_iff ..).mp hrun
  split at hrest
  · dsimp only at hrest
    split at hrest
    · cases hrest
      exact rule.ends ((Still.emit c _).trans (Still.clearHello _)) h _
    · obtain ⟨svc,hsvc,hgo⟩ := (bind_ok_iff ..).mp hrest
      refine rule.dispatch (rule.still _ _ (Still.setMacs _ f) ?_) hgo
      cases svc with
      | none => exact h
      | some svc => exact rule.route c _ svc h hsvc
  · exact rule.dispatch h hrest

theorem handleReady (rule : CallRule cfg f I J) {payload : List UInt8} (h : I c)
    (hrun : handleReady cfg f c payload = .ok (c',verdict)) :
    (verdict = .reset → J c') ∧ (verdict ≠ .reset → I c') := by
  unfold Pipeline.handleReady at hrun
  split at hrun
  · cases hrun
    exact rule.ends (Still.clearHello c) h _
  · rename_i t ht
    cases hrun
    exact rule.ends ((Still.held c (holdHello_session (Or.inl ht))).trans (Still.emit _ _)) h _
  · rename_i t hello ht
    exact rule.applyPolicy
      (rule.still _ _ (Still.held c (holdHello_session (Or.inr ⟨hello,ht⟩))) h) hrun

/-- The handling of a packet keeps the invariant. -/
theorem handleResult (rule : CallRule cfg f I J) {res : TcpAssemblyResult} (h : I c)
    (hrun : handleResult cfg f c res = .ok (c',verdict)) :
    (verdict = .reset → J c') ∧ (verdict ≠ .reset → I c') := by
  have hnote := Still.noteDelivery c res
  unfold Pipeline.handleResult at hrun
  dsimp only at hrun
  split_ifs at hrun
  · cases hrun
    refine rule.ends (c := c) ?_ h _
    exact hnote.trans ⟨rfl,rfl,rfl,rfl,rfl,rfl⟩
  · cases hrun
    exact rule.ends (hnote.trans (Still.emit _ _)) h _
  · exact rule.handleReady (rule.still _ _ hnote h) hrun
  · cases hrun
    exact rule.ends hnote h _

end CallRule

end Aethon.Pipeline
