import Aethon.Pipeline.TcpPipeline

/-!
# What handling does to a connection

Every way through `handle_tcp_packet` and through the handling of a backend event is a
sequence of five acts. Only four of them touch the backend connection: forwarding, routing to
a TLS service, flushing, and hanging up. The others are calm.
-/

namespace Aethon.Pipeline

open Framework Tls

/-- The action belongs to the relay from the client to the backend. -/
def Action.isRelay : Action → Bool
  | .forward _ _ => true
  | .write _ _ => true
  | _ => false

/-- The loop logs data segments only. -/
theorem Conn.sendSegments_log {sent : Nat → Bool} {window : Nat} {ackNo : BitVec 32}
    {txPool : List Nat} {i : Nat} {sendNxt : BitVec 32} {data : List UInt8} :
    ∀ a ∈ (Conn.sendSegments sent window ackNo txPool i sendNxt data).2.2.2,
      ∃ seq chunk, a = .data seq ackNo chunk window := by
  induction txPool generalizing i sendNxt data with
  | nil =>
    cases data with
    | nil => simp [Conn.sendSegments]
    | cons b data => simp [Conn.sendSegments]
  | cons frame txPool ih =>
    cases data with
    | nil => simp [Conn.sendSegments]
    | cons b data =>
      rw [Conn.sendSegments]
      split_ifs
      · intro a ha
        rcases List.mem_cons.mp ha with rfl | ha
        · exact ⟨_,_,rfl⟩
        · exact ih a ha
      · simp

def Action.isWrite : Action → Bool
  | .write _ _ => true
  | _ => false

theorem Action.eq_write {a : Action} (h : a.isWrite = true) :
    ∃ target bytes, a = .write target bytes := by
  cases a <;> first | exact ⟨_,_,rfl⟩ | cases h

/-- Only the connection to the backend changes, and only writes to it are logged. -/
def BackendOnly (c c' : Conn) : Prop :=
  ∃ fd port buf kernel acts,
    c' = { c with
      session := { c.session with backendFd := fd, backendPort := port, backendTxBuf := buf }
      kernel := kernel
      log := c.log ++ acts } ∧ ∀ a ∈ acts, a.isWrite = true

namespace BackendOnly

theorem silent (c : Conn) (fd : Option Nat) (port : BitVec 16) (buf : List UInt8)
    (kernel : Kernel) : BackendOnly c { c with
      session := { c.session with backendFd := fd, backendPort := port, backendTxBuf := buf }
      kernel := kernel } :=
  ⟨fd,port,buf,kernel,[],by rw [List.append_nil],by simp⟩

theorem refl (c : Conn) : BackendOnly c c := silent c _ _ _ _

theorem wrote (c : Conn) (fd : Nat) (data : List UInt8) (n : Nat) (buf : List UInt8) :
    BackendOnly c ((c.wrote fd data n).setTxBuf buf) :=
  ⟨_,_,_,_,_,rfl,by simp [Action.isWrite]⟩

theorem trans {a b c : Conn} (h : BackendOnly a b) (h' : BackendOnly b c) : BackendOnly a c := by
  obtain ⟨_,_,_,_,acts,rfl,hacts⟩ := h
  obtain ⟨fd,port,buf,kernel,acts',rfl,hacts'⟩ := h'
  refine ⟨fd,port,buf,kernel,acts ++ acts',by rw [List.append_assoc],?_⟩
  intro x hx
  rcases List.mem_append.mp hx with hx | hx
  · exact hacts x hx
  · exact hacts' x hx

theorem flushBackendTx (c : Conn) (io : BackendIo) : BackendOnly c (c.flushBackendTx io) := by
  unfold Conn.flushBackendTx
  split
  · exact refl c
  · split_ifs
    · exact refl c
    · split
      · split_ifs
        · exact wrote c _ _ _ _
        · exact refl c
      · exact refl c
      · exact refl c

theorem reconnect (c : Conn) (io : BackendIo) (data : List UInt8) (port : BitVec 16) :
    BackendOnly c (c.reconnect io data port).2 := by
  unfold Conn.reconnect
  dsimp only
  split
  · exact silent c _ _ _ _
  · split_ifs <;> exact silent c _ _ _ _

theorem reuse (c : Conn) (io : BackendIo) (fd : Nat) (data : List UInt8) :
    BackendOnly c (c.reuse io fd data).2 := by
  unfold Conn.reuse
  split
  · split
    · exact refl c
    · exact (silent c _ _ _ _).trans (flushBackendTx _ io)
  · split
    · exact refl c
    · split
      · exact refl c
      · exact silent c _ _ _ _
    · dsimp only
      split_ifs
      · exact wrote c _ _ _ c.session.backendTxBuf
      · exact wrote c _ _ _ _
      · exact wrote c _ _ _ c.session.backendTxBuf

theorem forwardToBackend (c : Conn) (io : BackendIo) (data : List UInt8) (port : BitVec 16) :
    BackendOnly c (c.forwardToBackend io data port).2 := by
  unfold Conn.forwardToBackend
  split
  · exact refl c
  · split
    · exact reconnect c io data port
    · split
      · exact reconnect c io data port
      · exact reuse c io _ data

end BackendOnly

/-- The backend connection and its buffer stay as they are, and nothing is relayed. -/
structure Calm (c c' : Conn) : Prop where
  addr : c'.addr = c.addr
  backendFd : c'.session.backendFd = c.session.backendFd
  backendPort : c'.session.backendPort = c.session.backendPort
  backendTxBuf : c'.session.backendTxBuf = c.session.backendTxBuf
  sockets : c'.kernel.sockets = c.kernel.sockets
  log : ∃ acts, c'.log = c.log ++ acts ∧ ∀ a ∈ acts, a.isRelay = false

namespace Calm

theorem refl (c : Conn) : Calm c c := ⟨rfl,rfl,rfl,rfl,rfl,[],by simp,by simp⟩

theorem trans {a b c : Conn} (h : Calm a b) (h' : Calm b c) : Calm a c where
  addr := h'.addr.trans h.addr
  backendFd := h'.backendFd.trans h.backendFd
  backendPort := h'.backendPort.trans h.backendPort
  backendTxBuf := h'.backendTxBuf.trans h.backendTxBuf
  sockets := h'.sockets.trans h.sockets
  log := by
    obtain ⟨acts,hacts,hno⟩ := h.log
    obtain ⟨acts',hacts',hno'⟩ := h'.log
    refine ⟨acts ++ acts',by rw [hacts',hacts,List.append_assoc],?_⟩
    intro x hx
    rcases List.mem_append.mp hx with hx | hx
    · exact hno x hx
    · exact hno' x hx

theorem emit (c : Conn) {a : Action} (h : a.isRelay = false) : Calm c (c.emit a) :=
  ⟨rfl,rfl,rfl,rfl,rfl,[a],rfl,by simpa using h⟩

/-- A change of other fields of the session. -/
theorem session (c : Conn) (s : TcpStreamSession) (hfd : s.backendFd = c.session.backendFd)
    (hport : s.backendPort = c.session.backendPort)
    (hbuf : s.backendTxBuf = c.session.backendTxBuf) : Calm c { c with session := s } :=
  ⟨rfl,hfd,hport,hbuf,rfl,[],by simp,by simp⟩

theorem clearHello (c : Conn) : Calm c c.clearHello := session c _ rfl rfl rfl

theorem setStatus (c : Conn) (status : TlsSessionStatus) : Calm c (c.setStatus status) :=
  session c _ rfl rfl rfl

theorem setMacs (c : Conn) (f : TcpFrame) : Calm c (c.setMacs f) := session c _ rfl rfl rfl

theorem emitAck (c : Conn) : Calm c c.emitAck := emit c rfl

theorem scanBytes (c : Conn) (f : TcpFrame) (bytes : List UInt8) : Calm c (c.scanBytes f bytes) :=
  (session c { c.session with hsStream := c.session.hsStream || f.openStream } rfl rfl rfl).trans
    (emit _ rfl)

theorem stepHandshake (c : Conn) (io : TlsIo) : Calm c (c.stepHandshake io) := by
  unfold Conn.stepHandshake
  split
  · exact setStatus c _
  · exact refl c
  · exact setStatus c _

theorem noteDelivery (c : Conn) (res : TcpAssemblyResult) : Calm c (c.noteDelivery res) := by
  unfold Conn.noteDelivery
  split_ifs
  · exact emit c rfl
  · exact refl c

theorem epollAdd_sockets (k : Kernel) (fd : Nat) (entry : EpollEntry) :
    (k.epollAdd fd entry).sockets = k.sockets := by
  unfold Kernel.epollAdd
  split_ifs <;> rfl

theorem epollMod_sockets (k : Kernel) (fd : Nat) (entry : EpollEntry) :
    (k.epollMod fd entry).sockets = k.sockets := by
  unfold Kernel.epollMod
  split_ifs <;> rfl

theorem armEpoll (c : Conn) (epfd : Bool) (prevFd : Option Nat) :
    Calm c (c.armEpoll epfd prevFd) := by
  unfold Conn.armEpoll
  split
  · dsimp only
    split_ifs
    · exact ⟨rfl,rfl,rfl,rfl,epollAdd_sockets _ _ _,[],by simp,by simp⟩
    · exact ⟨rfl,rfl,rfl,rfl,epollMod_sockets _ _ _,[],by simp,by simp⟩
    · exact refl c
  · exact refl c

theorem disarmEpoll (c : Conn) (fd : Nat) : Calm c (c.disarmEpoll fd) := by
  unfold Conn.disarmEpoll
  split_ifs
  · exact ⟨rfl,rfl,rfl,rfl,epollMod_sockets _ _ _,[],by simp,by simp⟩
  · exact refl c

theorem announceWindow (c : Conn) (ev : BackendEvent) (oldWin newWin : Nat) :
    Calm c (c.announceWindow ev oldWin newWin) := by
  unfold Conn.announceWindow
  split
  · exact refl c
  · split_ifs
    · exact ⟨rfl,rfl,rfl,rfl,rfl,_,rfl,by simp [Action.isRelay]⟩
    · exact refl c

theorem sendTcpSegmentedData (c : Conn) (sent : Nat → Bool) (data : List UInt8) :
    Calm c (c.sendTcpSegmentedData sent data).2 := by
  unfold Conn.sendTcpSegmentedData
  split_ifs
  · exact refl c
  · refine ⟨rfl,rfl,rfl,rfl,rfl,_,rfl,?_⟩
    intro a ha
    obtain ⟨_,_,rfl⟩ := Conn.sendSegments_log a ha
    rfl

end Calm

namespace Conn

theorem noteDelivery_session (c : Conn) (res : TcpAssemblyResult) :
    (c.noteDelivery res).session = c.session := by
  unfold noteDelivery
  split_ifs <;> rfl

theorem flushBackendTx_frame (c : Conn) (io : BackendIo) :
    (c.flushBackendTx io).addr = c.addr ∧ (c.flushBackendTx io).kernel = c.kernel ∧
      (c.flushBackendTx io).session.backendFd = c.session.backendFd ∧
      (c.flushBackendTx io).session.backendPort = c.session.backendPort := by
  unfold flushBackendTx
  split
  · exact ⟨rfl,rfl,rfl,rfl⟩
  · split_ifs
    · exact ⟨rfl,rfl,rfl,rfl⟩
    · split
      · split_ifs <;> exact ⟨rfl,rfl,rfl,rfl⟩
      · exact ⟨rfl,rfl,rfl,rfl⟩
      · exact ⟨rfl,rfl,rfl,rfl⟩

theorem reconnect_addr (c : Conn) (io : BackendIo) (data : List UInt8) (port : BitVec 16) :
    (c.reconnect io data port).2.addr = c.addr := by
  unfold reconnect
  dsimp only
  split
  · rfl
  · split_ifs <;> rfl

/-- On an open connection only the buffer and the log change. -/
theorem reuse_frame (c : Conn) (io : BackendIo) (fd : Nat) (data : List UInt8) :
    (c.reuse io fd data).2.addr = c.addr ∧ (c.reuse io fd data).2.kernel = c.kernel ∧
      (c.reuse io fd data).2.session.backendFd = c.session.backendFd ∧
      (c.reuse io fd data).2.session.backendPort = c.session.backendPort := by
  unfold reuse
  split
  · split
    · exact ⟨rfl,rfl,rfl,rfl⟩
    · exact flushBackendTx_frame _ io
  · split
    · exact ⟨rfl,rfl,rfl,rfl⟩
    · split <;> exact ⟨rfl,rfl,rfl,rfl⟩
    · dsimp only
      split_ifs <;> exact ⟨rfl,rfl,rfl,rfl⟩

theorem forwardToBackend_addr (c : Conn) (io : BackendIo) (data : List UInt8)
    (port : BitVec 16) : (c.forwardToBackend io data port).2.addr = c.addr := by
  unfold forwardToBackend
  split
  · rfl
  · split
    · exact reconnect_addr c io data port
    · split
      · exact reconnect_addr c io data port
      · exact (reuse_frame c io _ data).1

end Conn

/-- The descriptor is taken out of the epoll set and closed. -/
def Conn.dropBackend (c : Conn) (fd : Nat) : Conn :=
  { c with
    kernel := (c.kernel.epollDel fd).close fd
    session := { c.session with backendFd := none } }

/-- One act; `R` is what is known of a session and a TLS service that it is routed to. -/
inductive Act (R : TcpStreamSession → ServiceConfig → Prop) : Conn → Conn → Prop where
  | calm {c c' : Conn} (h : Calm c c') : Act R c c'
  | forward (c : Conn) (io : BackendIo) (bytes : List UInt8) (port : BitVec 16) :
      Act R c ((c.emit (.forward port bytes)).forwardToBackend io bytes port).2
  | route (c : Conn) (io : TlsIo) (svc : ServiceConfig) (hssl : svc.hasSslCtx = true)
      (hr : R c.session svc) : Act R c (c.routeTls io (some svc))
  | flush (c : Conn) (io : BackendIo) : Act R c (c.flushBackendTx io)
  | drop (c : Conn) (fd : Nat) (hfd : c.session.backendFd = some fd) : Act R c (c.dropBackend fd)

/-- A sequence of acts. -/
inductive Acts (R : TcpStreamSession → ServiceConfig → Prop) : Conn → Conn → Prop where
  | refl (c : Conn) : Acts R c c
  | step {a b c : Conn} (h : Acts R a b) (h' : Act R b c) : Acts R a c

section Handling

variable {R : TcpStreamSession → ServiceConfig → Prop}

theorem Acts.then_calm {a b c : Conn} (h : Acts R a b) (h' : Calm b c) : Acts R a c :=
  h.step (Act.calm h')

theorem Acts.invariant {I : Conn → Prop} (hact : ∀ c c', I c → Act R c c' → I c') {c c' : Conn}
    (h : Acts R c c') (hi : I c) : I c' := by
  induction h with
  | refl => exact hi
  | step _ hs ih => exact hact _ _ ih hs

variable {cfg : Config} {f : TcpFrame} {c₀ c c' : Conn} {verdict : Verdict}

theorem relay_acts {bytes : List UInt8} (h : Acts R c₀ c)
    (hrun : relay cfg f c bytes = .ok (c',verdict)) : Acts R c₀ c' := by
  unfold relay at hrun
  obtain ⟨port,_,hrest⟩ := (bind_ok_iff ..).mp hrun
  have htarget := h.then_calm (Calm.emit c (a := .target port) rfl)
  dsimp only at hrest
  split_ifs at hrest
  · have hforward := htarget.step (Act.forward _ f.backend bytes port)
    split at hrest
    · rename_i d hd
      cases hrest
      rw [hd] at hforward
      exact hforward.then_calm (Calm.clearHello d)
    · rename_i d hd
      cases hrest
      rw [hd] at hforward
      exact ((hforward.then_calm (Calm.clearHello d)).then_calm (Calm.armEpoll _ _ _)).then_calm
        (Calm.emitAck _)
  · cases hrest
    exact htarget.then_calm (Calm.clearHello _)

theorem inspect_acts {bytes : List UInt8} (h : Acts R c₀ c)
    (hrun : inspect cfg f c bytes = .ok (c',verdict)) : Acts R c₀ c' := by
  have hscan := h.then_calm (Calm.scanBytes c f bytes)
  unfold inspect at hrun
  dsimp only at hrun
  split_ifs at hrun
  · cases hrun
    exact hscan.then_calm (Calm.clearHello _)
  · exact relay_acts hscan hrun

theorem answerTls_calm (f : TcpFrame) (c : Conn) : Calm c (answerTls f c) := by
  unfold answerTls
  split
  · exact (Calm.emit c rfl).trans (Calm.sendTcpSegmentedData _ _ _)
  · exact Calm.refl c

theorem tlsData_acts (h : Acts R c₀ c) (hrun : tlsData cfg f c = .ok (c',verdict)) :
    Acts R c₀ c' := by
  unfold tlsData at hrun
  split_ifs at hrun
  · split at hrun
    · obtain ⟨⟨d,v⟩,hd,hrest⟩ := (bind_ok_iff ..).mp hrun
      have hinspect := inspect_acts h hd
      cases v with
      | proceed =>
        cases hrest
        exact hinspect.then_calm (answerTls_calm f d)
      | reply =>
        cases hrest
        exact hinspect
      | reset =>
        cases hrest
        exact hinspect
      | silent =>
        cases hrest
        exact hinspect
    · cases hrun
      exact h.then_calm (answerTls_calm f c)
    · cases hrun
      exact h.then_calm (answerTls_calm f c)
    · cases hrun
      exact (h.then_calm (Calm.setStatus c _)).then_calm (answerTls_calm f _)
    · cases hrun
      exact (h.then_calm (Calm.setStatus c _)).then_calm (answerTls_calm f _)
  · cases hrun
    exact h.then_calm (answerTls_calm f c)

theorem tlsPath_acts {hello : List UInt8} (h : Acts R c₀ c)
    (hrun : tlsPath cfg f c hello = .ok (c',verdict)) : Acts R c₀ c' := by
  have hfeed := (h.then_calm (Calm.emit c (a := .feed hello) rfl)).then_calm (Calm.clearHello _)
  unfold tlsPath at hrun
  dsimp only at hrun
  split at hrun
  · have hstep := hfeed.then_calm (Calm.stepHandshake _ f.tls)
    split at hrun
    · cases hrun
      exact hstep.then_calm (Calm.sendTcpSegmentedData _ _ _)
    · exact tlsData_acts hstep hrun
  · exact tlsData_acts hfeed hrun

theorem dispatch_acts {hello : List UInt8} (h : Acts R c₀ c)
    (hrun : dispatch cfg f c hello = .ok (c',verdict)) : Acts R c₀ c' := by
  unfold dispatch at hrun
  split_ifs at hrun
  · exact tlsPath_acts h hrun
  · exact inspect_acts h hrun

theorem routeTls_acts {svc : Option ServiceConfig} {io : TlsIo} (h : Acts R c₀ c)
    (hroute : ∀ t, svc = some t → t.hasSslCtx = true → R c.session t) :
    Acts R c₀ (c.routeTls io svc) := by
  cases svc with
  | none => exact h
  | some t =>
    cases hssl : t.hasSslCtx with
    | false =>
      rw [Conn.routeTls,hssl]
      exact h
    | true => exact h.step (Act.route c io t hssl (hroute t rfl hssl))

/-- The service that the policy routes a complete hello to. -/
def policyService (cfg : Config) (f : TcpFrame) (hello : List UInt8) :
    Checked (Option ServiceConfig) := do
  let info ← parseClientHello hello
  if info.isClientHello then
    let sni := info.sni hello
    if sni = [] ∨ !cfg.blocklist.isAllowed sni then return none
    else selectService cfg f sni
  else return none

theorem applyPolicy_acts {hello : List UInt8} (h : Acts R c₀ c)
    (hroute : ∀ svc, policyService cfg f hello = .ok (some svc) → svc.hasSslCtx = true →
      R c.session svc)
    (hrun : applyPolicy cfg f c hello = .ok (c',verdict)) : Acts R c₀ c' := by
  unfold applyPolicy at hrun
  obtain ⟨info,hinfo,hrest⟩ := (bind_ok_iff ..).mp hrun
  simp only [policyService,hinfo,bind,Except.bind] at hroute
  split at hrest
  · rename_i hhello
    simp only [hhello,if_true] at hroute
    dsimp only at hrest
    split at hrest
    · cases hrest
      exact (h.then_calm (Calm.emit c rfl)).then_calm (Calm.clearHello _)
    · rename_i hok
      obtain ⟨svc,hsvc,hgo⟩ := (bind_ok_iff ..).mp hrest
      rw [if_neg hok] at hroute
      apply dispatch_acts _ hgo
      apply Acts.then_calm _ (Calm.setMacs _ f)
      exact routeTls_acts h (fun t ht => hroute t (by rw [hsvc,ht]))
  · exact dispatch_acts h hrest

/-- Holding a hello changes nothing but the hello buffer. -/
theorem holdHello_session {s t : TcpStreamSession} {payload : List UInt8}
    (h : holdHello s payload = .wait t ∨ ∃ hello, holdHello s payload = .pass t hello) :
    t = { s with clientHelloBuf := t.clientHelloBuf } := by
  unfold holdHello at h
  dsimp only at h
  rcases h with h | ⟨hello,h⟩
  · split_ifs at h
    cases h
    rfl
  · split_ifs at h
    · cases h
      rfl
    · cases h
      rfl
    · cases h
      rfl

theorem calm_held (c : Conn) {t : TcpStreamSession}
    (h : t = { c.session with clientHelloBuf := t.clientHelloBuf }) :
    Calm c { c with session := t } := by
  apply Calm.session
  · rw [h]
  · rw [h]
  · rw [h]

theorem handleReady_acts {payload : List UInt8} (h : Acts R c₀ c)
    (hroute : ∀ t hello svc, holdHello c.session payload = .pass t hello →
      policyService cfg f hello = .ok (some svc) → svc.hasSslCtx = true → R t svc)
    (hrun : handleReady cfg f c payload = .ok (c',verdict)) : Acts R c₀ c' := by
  unfold handleReady at hrun
  split at hrun
  · cases hrun
    exact h.then_calm (Calm.clearHello _)
  · rename_i t ht
    cases hrun
    exact (h.then_calm (calm_held _ (holdHello_session (Or.inl ht)))).then_calm
      (Calm.emitAck _)
  · rename_i t hello ht
    apply applyPolicy_acts _ _ hrun
    · exact h.then_calm (calm_held _ (holdHello_session (Or.inr ⟨hello,ht⟩)))
    · intro svc hsvc hssl
      exact hroute t hello svc ht hsvc hssl

/-- Handling the result of a packet is a sequence of acts. -/
theorem handleResult_acts {res : TcpAssemblyResult}
    (hroute : res.isSyn = false → ∀ t hello svc, holdHello c.session res.payload = .pass t hello →
      policyService cfg f hello = .ok (some svc) → svc.hasSslCtx = true → R t svc)
    (hrun : handleResult cfg f c res = .ok (c',verdict)) : Acts R c c' := by
  have hnote := (Acts.refl (R := R) c).then_calm (Calm.noteDelivery c res)
  rw [← Conn.noteDelivery_session c res] at hroute
  unfold handleResult at hrun
  dsimp only at hrun
  split_ifs at hrun with hsyn
  · cases hrun
    have hmacs := hnote.then_calm (Calm.setMacs (c.noteDelivery res) f)
    have hnxt := hmacs.then_calm (Calm.session _
      { ((c.noteDelivery res).setMacs f).session with sendNxt := initialServerIsn + 1 } rfl rfl rfl)
    exact hnxt.then_calm (Calm.emit _ rfl)
  · cases hrun
    exact hnote.then_calm (Calm.emitAck _)
  · exact handleReady_acts hnote (hroute (by simpa using hsyn)) hrun
  · cases hrun
    exact hnote

theorem onWritable_acts {fd : Nat} (ev : BackendEvent) (h : Acts R c₀ c) :
    Acts R c₀ (c.onWritable fd ev) :=
  ((h.step (Act.flush c ev.io)).then_calm (Calm.disarmEpoll _ fd)).then_calm
    (Calm.announceWindow _ ev _ _)

theorem onReadable_calm (c : Conn) (ev : BackendEvent) : Calm c (c.onReadable ev).1 := by
  unfold Conn.onReadable
  split
  · exact Calm.refl c
  · exact Calm.refl c
  · dsimp only
    split_ifs
    · exact (Calm.emit c rfl).trans (Calm.sendTcpSegmentedData _ _ _)
    · exact (Calm.emit c rfl).trans (Calm.sendTcpSegmentedData _ _ _)

theorem hangUp_acts {fd : Nat} (ev : BackendEvent) (hfd : c.session.backendFd = some fd)
    (h : Acts R c₀ c) : Acts R c₀ (c.hangUp fd ev) := by
  have hdrop := h.step (Act.drop c fd hfd)
  unfold Conn.hangUp
  dsimp only
  split
  · exact hdrop
  · split_ifs
    · exact hdrop.then_calm ⟨rfl,rfl,rfl,rfl,rfl,_,rfl,by simp [Action.isRelay]⟩
    · exact hdrop

/-- No part of a backend event but the last changes the descriptor. -/
theorem onWritable_backendFd {fd : Nat} (c : Conn) (ev : BackendEvent) :
    (c.onWritable fd ev).session.backendFd = c.session.backendFd := by
  obtain ⟨_,_,hflush,_⟩ := c.flushBackendTx_frame ev.io
  have hcalm := (Calm.disarmEpoll (c.flushBackendTx ev.io) fd).trans
    (Calm.announceWindow _ ev (recvWindow c.session)
      (recvWindow (c.flushBackendTx ev.io).session))
  exact hcalm.backendFd.trans hflush

/-- The handling of a backend event is a sequence of acts. -/
theorem onBackendEvent_acts {fd : Nat} (ev : BackendEvent)
    (hfd : c.session.backendFd = some fd) : Acts R c (c.onBackendEvent fd ev).1 := by
  have hout : Acts R c (if ev.epollOut then c.onWritable fd ev else c) ∧
      (if ev.epollOut then c.onWritable fd ev else c).session.backendFd = some fd := by
    split_ifs
    · exact ⟨onWritable_acts ev (Acts.refl c),(onWritable_backendFd c ev).trans hfd⟩
    · exact ⟨Acts.refl c,hfd⟩
  unfold Conn.onBackendEvent
  generalize (if ev.epollOut then c.onWritable fd ev else c) = d at hout ⊢
  have hin : Acts R c (if ev.epollIn then d.onReadable ev else (d,false)).1 ∧
      (if ev.epollIn then d.onReadable ev else (d,false)).1.session.backendFd = some fd := by
    split_ifs
    · exact ⟨hout.1.then_calm (onReadable_calm d ev),
        (onReadable_calm d ev).backendFd.trans hout.2⟩
    · exact hout
  dsimp only
  generalize (if ev.epollIn then d.onReadable ev else (d,false)) = r at hin ⊢
  split
  · exact hangUp_acts ev hin.2 hin.1
  · exact hin.1

end Handling

end Aethon.Pipeline
