import Aethon.Pipeline.Acts

/-!
# Relations along the handling of a connection

What the pipeline does to a connection is put together from a few updates. A relation between
the connection before and after that holds for each of them and can be chained holds for the
handling of delivered bytes and for a backend event up to a hang-up.
-/

namespace Aethon.Pipeline

open Framework Tls

/-- The sequence number of a segment that takes up numbers. -/
def Action.number : Action → Option (BitVec 32)
  | .data seq _ _ _ => some seq
  | .fin seq _ _ => some seq
  | _ => none

/-- The parts of an event before a hang-up, and whether the backend has closed. -/
def Conn.beforeHangUp (c : Conn) (fd : Nat) (ev : BackendEvent) : Conn × Bool :=
  let c := if ev.epollOut then c.onWritable fd ev else c
  if ev.epollIn then c.onReadable ev else (c,false)

theorem onBackendEvent_eq (c : Conn) (fd : Nat) (ev : BackendEvent) :
    c.onBackendEvent fd ev =
      if ev.hangup ∨ (c.beforeHangUp fd ev).2 then ((c.beforeHangUp fd ev).1.hangUp fd ev,true)
      else ((c.beforeHangUp fd ev).1,false) := rfl

/-- What makes a relation hold when a backend socket becomes writable. -/
structure WriteRule (R : Conn → Conn → Prop) : Prop where
  refl : ∀ c, R c c
  trans : ∀ a b c, R a b → R b c → R a c
  epoll : ∀ c kernel armed, R c { c with
    kernel := kernel
    session := { c.session with epolloutArmed := armed } }
  flush : ∀ c io, R c (c.flushBackendTx io)
  update : ∀ c ev oldWin, R c (c.announceWindow ev oldWin (recvWindow c.session))

namespace WriteRule

variable {R : Conn → Conn → Prop} (rule : WriteRule R)
include rule

theorem armEpoll (c : Conn) (epfd : Bool) (prevFd : Option Nat) :
    R c (c.armEpoll epfd prevFd) := by
  unfold Conn.armEpoll
  split
  · dsimp only
    split_ifs
    · exact rule.epoll c _ _
    · exact rule.epoll c _ _
    · exact rule.refl c
  · exact rule.refl c

theorem disarmEpoll (c : Conn) (fd : Nat) : R c (c.disarmEpoll fd) := by
  unfold Conn.disarmEpoll
  split_ifs
  · exact rule.epoll c _ _
  · exact rule.refl c

theorem onWritable (c : Conn) (fd : Nat) (ev : BackendEvent) : R c (c.onWritable fd ev) := by
  have hwindow : recvWindow (c.flushBackendTx ev.io).session =
      recvWindow ((c.flushBackendTx ev.io).disarmEpoll fd).session := by
    unfold Conn.disarmEpoll
    split_ifs <;> rfl
  have hupdate := rule.update ((c.flushBackendTx ev.io).disarmEpoll fd) ev (recvWindow c.session)
  rw [← hwindow] at hupdate
  exact rule.trans _ _ _ (rule.trans _ _ _ (rule.flush c ev.io) (rule.disarmEpoll _ fd)) hupdate

end WriteRule

/-- What makes a relation hold for a backend event up to a hang-up. -/
structure EventRule (R : Conn → Conn → Prop) : Prop extends WriteRule R where
  read : ∀ c bytes, R c (c.emit (.backendRead bytes))
  segments : ∀ c sent data, R c (c.sendTcpSegmentedData sent data).2

namespace EventRule

variable {R : Conn → Conn → Prop} (rule : EventRule R)
include rule

theorem onReadable (c : Conn) (ev : BackendEvent) : R c (c.onReadable ev).1 := by
  unfold Conn.onReadable
  split
  · exact rule.refl c
  · exact rule.refl c
  · dsimp only
    split_ifs <;> exact rule.trans _ _ _ (rule.read c _) (rule.segments _ _ _)

theorem beforeHangUp (c : Conn) (fd : Nat) (ev : BackendEvent) : R c (c.beforeHangUp fd ev).1 := by
  have hout : R c (if ev.epollOut then c.onWritable fd ev else c) := by
    split_ifs
    · exact rule.onWritable c fd ev
    · exact rule.refl c
  unfold Conn.beforeHangUp
  generalize (if ev.epollOut then c.onWritable fd ev else c) = b at hout ⊢
  dsimp only
  split_ifs
  · exact rule.trans _ _ _ hout (rule.onReadable b ev)
  · exact hout

end EventRule

/-- What makes a relation hold for the handling of delivered bytes and for a backend event. -/
structure ConnRule (R : Conn → Conn → Prop) : Prop where
  refl : ∀ c, R c c
  trans : ∀ a b c, R a b → R b c → R a c
  emit : ∀ c a, a.number = none → R c (c.emit a)
  session : ∀ c s, s.sendNxt = c.session.sendNxt → R c { c with session := s }
  backend : ∀ c c', BackendOnly c c' → R c c'
  epoll : ∀ c kernel armed, R c { c with
    kernel := kernel
    session := { c.session with epolloutArmed := armed } }
  segments : ∀ c sent data, R c (c.sendTcpSegmentedData sent data).2
  update : ∀ c ev oldWin newWin, R c (c.announceWindow ev oldWin newWin)

namespace ConnRule

variable {R : Conn → Conn → Prop} (rule : ConnRule R)
include rule

theorem event : EventRule R where
  refl := rule.refl
  trans := rule.trans
  epoll := rule.epoll
  flush c io := rule.backend _ _ (BackendOnly.flushBackendTx c io)
  update c ev oldWin := rule.update c ev oldWin _
  read c _ := rule.emit c _ rfl
  segments := rule.segments

theorem noteDelivery (c : Conn) (res : TcpAssemblyResult) : R c (c.noteDelivery res) := by
  unfold Conn.noteDelivery
  split_ifs
  · exact rule.emit c _ rfl
  · exact rule.refl c

theorem clearHello (c : Conn) : R c c.clearHello := rule.session c _ rfl

theorem setStatus (c : Conn) (status : TlsSessionStatus) : R c (c.setStatus status) :=
  rule.session c _ rfl

theorem scanBytes (c : Conn) (f : TcpFrame) (bytes : List UInt8) : R c (c.scanBytes f bytes) :=
  rule.trans _ _ _
    (rule.session c { c.session with hsStream := c.session.hsStream || f.openStream } rfl)
    (rule.emit _ _ rfl)

theorem stepHandshake (c : Conn) (io : TlsIo) : R c (c.stepHandshake io) := by
  unfold Conn.stepHandshake
  split
  · exact rule.setStatus c _
  · exact rule.refl c
  · exact rule.setStatus c _

theorem routeTls (c : Conn) (io : TlsIo) (svc : Option ServiceConfig) :
    R c (c.routeTls io svc) := by
  unfold Conn.routeTls
  split
  · rename_i svc
    split
    · exact rule.trans _ _ _ (rule.session c { c.session with
        tlsStatus := if io.sslNew then .handshake else .idle
        backendPort := svc.backendPort } rfl) (rule.emit _ _ rfl)
    · exact rule.refl c
  · exact rule.refl c

theorem answerTls (f : TcpFrame) (c : Conn) : R c (answerTls f c) := by
  unfold Pipeline.answerTls
  split
  · exact rule.trans _ _ _ (rule.emit c _ rfl) (rule.segments _ _ _)
  · exact rule.refl c

section Handling

variable {cfg : Config} {f : TcpFrame} {c c' : Conn} {verdict : Verdict}

theorem relay {bytes : List UInt8} (h : relay cfg f c bytes = .ok (c',verdict)) : R c c' := by
  unfold Pipeline.relay at h
  obtain ⟨port,_,hrest⟩ := (bind_ok_iff ..).mp h
  have htarget := rule.emit c (.target port) rfl
  dsimp only at hrest
  split_ifs at hrest
  · have hforward := rule.trans _ _ _
      (rule.trans _ _ _ htarget (rule.emit _ (.forward port bytes) rfl))
      (rule.backend _ _ (BackendOnly.forwardToBackend _ f.backend bytes port))
    split at hrest
    · rename_i d hd
      cases hrest
      rw [hd] at hforward
      exact rule.trans _ _ _ hforward (rule.clearHello d)
    · rename_i d hd
      cases hrest
      rw [hd] at hforward
      have harmed := rule.trans _ _ _ (rule.clearHello d)
        (rule.event.armEpoll d.clearHello cfg.epfd (c.emit (.target port)).session.backendFd)
      exact rule.trans _ _ _ (rule.trans _ _ _ hforward harmed) (rule.emit _ _ rfl)
  · cases hrest
    exact rule.trans _ _ _ htarget (rule.clearHello _)

theorem inspect {bytes : List UInt8} (h : inspect cfg f c bytes = .ok (c',verdict)) : R c c' := by
  have hscan := rule.scanBytes c f bytes
  unfold Pipeline.inspect at h
  dsimp only at h
  split_ifs at h
  · cases h
    exact rule.trans _ _ _ hscan (rule.clearHello _)
  · exact rule.trans _ _ _ hscan (rule.relay h)

theorem tlsData (h : tlsData cfg f c = .ok (c',verdict)) : R c c' := by
  unfold Pipeline.tlsData at h
  split_ifs at h
  · split at h
    · obtain ⟨⟨d,v⟩,hd,hrest⟩ := (bind_ok_iff ..).mp h
      have hinspect := rule.inspect hd
      cases v with
      | proceed =>
        cases hrest
        exact rule.trans _ _ _ hinspect (rule.answerTls f d)
      | reply =>
        cases hrest
        exact hinspect
      | reset =>
        cases hrest
        exact hinspect
      | silent =>
        cases hrest
        exact hinspect
    · cases h
      exact rule.answerTls f c
    · cases h
      exact rule.answerTls f c
    · cases h
      exact rule.trans _ _ _ (rule.setStatus c _) (rule.answerTls f _)
    · cases h
      exact rule.trans _ _ _ (rule.setStatus c _) (rule.answerTls f _)
  · cases h
    exact rule.answerTls f c

theorem tlsPath {hello : List UInt8} (h : tlsPath cfg f c hello = .ok (c',verdict)) : R c c' := by
  have hfeed := rule.trans _ _ _ (rule.emit c (.feed hello) rfl) (rule.clearHello _)
  unfold Pipeline.tlsPath at h
  dsimp only at h
  split at h
  · have hstep := rule.trans _ _ _ hfeed (rule.stepHandshake _ f.tls)
    split at h
    · cases h
      exact rule.trans _ _ _ hstep (rule.segments _ f.txSent f.tls.pendingTx)
    · exact rule.trans _ _ _ hstep (rule.tlsData h)
  · exact rule.trans _ _ _ hfeed (rule.tlsData h)

theorem dispatch {hello : List UInt8} (h : dispatch cfg f c hello = .ok (c',verdict)) :
    R c c' := by
  unfold Pipeline.dispatch at h
  split_ifs at h
  · exact rule.tlsPath h
  · exact rule.inspect h

theorem applyPolicy {hello : List UInt8} (h : applyPolicy cfg f c hello = .ok (c',verdict)) :
    R c c' := by
  unfold Pipeline.applyPolicy at h
  obtain ⟨info,_,hrest⟩ := (bind_ok_iff ..).mp h
  split at hrest
  · dsimp only at hrest
    split at hrest
    · cases hrest
      exact rule.trans _ _ _ (rule.emit c _ rfl) (rule.clearHello _)
    · obtain ⟨svc,_,hgo⟩ := (bind_ok_iff ..).mp hrest
      have hmacs : R (c.routeTls f.tls svc) ((c.routeTls f.tls svc).setMacs f) :=
        rule.session _ _ rfl
      exact rule.trans _ _ _ (rule.trans _ _ _ (rule.routeTls c f.tls svc) hmacs)
        (rule.dispatch hgo)
  · exact rule.dispatch hrest

/-- The handling of delivered bytes. -/
theorem handleReady {payload : List UInt8} (h : handleReady cfg f c payload = .ok (c',verdict)) :
    R c c' := by
  unfold Pipeline.handleReady at h
  split at h
  · cases h
    exact rule.clearHello c
  · rename_i t ht
    cases h
    exact rule.trans _ _ _ (rule.session c t (by rw [holdHello_session (Or.inl ht)]))
      (rule.emit _ _ rfl)
  · rename_i t hello ht
    exact rule.trans _ _ _ (rule.session c t (by rw [holdHello_session (Or.inr ⟨hello,ht⟩)]))
      (rule.applyPolicy h)

end Handling

end ConnRule

end Aethon.Pipeline
