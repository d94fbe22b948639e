import Aethon.Framework.Handles
import Aethon.Pipeline.Steps

/-!
# Sessions and their backend connections

A session remembers the port of its backend connection next to the descriptor. The two agree,
and no byte goes to another port than the one it was forwarded to, as long as no ClientHello
is routed to a TLS service on another port while the session has a connection.
-/

namespace Aethon

open Framework

/-- The backend connection of a session as it remembers it. -/
def TcpStreamSession.backend (s : TcpStreamSession) : Option (Nat × BitVec 16) :=
  s.backendFd.map fun fd => (fd,s.backendPort)

namespace Pipeline

/-- Bytes with the port they are for. -/
def toPort (port : Option (BitVec 16)) (bytes : List UInt8) : List (Option (BitVec 16) × UInt8) :=
  bytes.map fun b => (port,b)

/-- The bytes of a call of `forward_to_backend`, with its target port. -/
def Action.forwarded : Action → List (Option (BitVec 16) × UInt8)
  | .forward port bytes => toPort (some port) bytes
  | _ => []

/-- The bytes that the kernel takes, with the port that the socket is connected to. -/
def Action.written : Action → List (Option (BitVec 16) × UInt8)
  | .write port bytes => toPort port bytes
  | _ => []

/-- The bytes that wait for the backend connection. -/
def pending (s : TcpStreamSession) : List (Option (BitVec 16) × UInt8) :=
  match s.backend with
  | some (_,port) => toPort (some port) s.backendTxBuf
  | none => []

theorem pending_none {s : TcpStreamSession} (h : s.backend = none) : pending s = [] := by
  rw [pending,h]

theorem pending_some {s : TcpStreamSession} {fd : Nat} {port : BitVec 16}
    (h : s.backend = some (fd,port)) : pending s = toPort (some port) s.backendTxBuf := by
  rw [pending,h]

theorem backend_eq_some {s : TcpStreamSession} {fd : Nat} (h : s.backendFd = some fd) :
    s.backend = some (fd,s.backendPort) := by
  rw [TcpStreamSession.backend,h]
  rfl

theorem toPort_take_drop (port : Option (BitVec 16)) (bytes : List UInt8) (n : Nat) :
    toPort port (bytes.take n) ++ toPort port (bytes.drop n) = toPort port bytes := by
  rw [toPort,toPort,← List.map_append,List.take_append_drop,toPort]

theorem toPort_append (port : Option (BitVec 16)) (bytes bytes' : List UInt8) :
    toPort port (bytes ++ bytes') = toPort port bytes ++ toPort port bytes' :=
  List.map_append

/-- The connection of the session is as it remembers it, next to the connections in `frame`, and
what was written and what is pending was forwarded, in this order and to the same ports. -/
structure ConnBound (frame : Nat → BitVec 16 → Prop)
    (written forwarded : List (Option (BitVec 16) × UInt8)) (c : Conn) : Prop where
  focus : Focus frame c.session.backend c.kernel.sockets
  relay : (written ++ c.log.flatMap Action.written ++ pending c.session).Sublist
    (forwarded ++ c.log.flatMap Action.forwarded)

/-- A session may be routed to the service: it has no connection to another port. -/
def RouteSafe (s : TcpStreamSession) (svc : Tls.ServiceConfig) : Prop :=
  s.backendFd = none ∨ s.backendPort = svc.backendPort

namespace ConnBound

variable {frame : Nat → BitVec 16 → Prop}
  {written forwarded : List (Option (BitVec 16) × UInt8)} {c c' : Conn}

theorem calm (h : ConnBound frame written forwarded c) (hcalm : Calm c c') :
    ConnBound frame written forwarded c' := by
  obtain ⟨acts,hlog,hno⟩ := hcalm.log
  have hbackend : c'.session.backend = c.session.backend := by
    simp only [TcpStreamSession.backend,hcalm.backendFd,hcalm.backendPort]
  have hpending : pending c'.session = pending c.session := by
    simp only [pending,hbackend,hcalm.backendTxBuf]
  have hwritten : acts.flatMap Action.written = [] := by
    rw [List.flatMap_eq_nil_iff]
    intro a ha
    have := hno a ha
    cases a <;> first | rfl | cases this
  have hforwarded : acts.flatMap Action.forwarded = [] := by
    rw [List.flatMap_eq_nil_iff]
    intro a ha
    have := hno a ha
    cases a <;> first | rfl | cases this
  constructor
  · rw [hbackend,hcalm.sockets]
    exact h.focus
  · rw [hlog,List.flatMap_append,List.flatMap_append,hwritten,hforwarded,hpending]
    simpa using h.relay

/-- Pending bytes may be given up. -/
theorem drop_pending (h : ConnBound frame written forwarded c) :
    (written ++ c.log.flatMap Action.written).Sublist
      (forwarded ++ c.log.flatMap Action.forwarded) :=
  (List.sublist_append_left _ _).trans h.relay

/-- Write the first `n` pending bytes. -/
theorem write_pending (h : ConnBound frame written forwarded c) {fd : Nat}
    (hfd : c.session.backendFd = some fd) (n : Nat) :
    ConnBound frame written forwarded
      ((c.wrote fd c.session.backendTxBuf n).setTxBuf (c.session.backendTxBuf.drop n)) := by
  have hbackend := backend_eq_some hfd
  have hsocket := h.focus.own_bound fd _ hbackend
  have hrelay := h.relay
  rw [pending_some hbackend,← toPort_take_drop _ _ n] at hrelay
  constructor
  · exact h.focus
  · have hrest : pending ((c.wrote fd c.session.backendTxBuf n).setTxBuf
        (c.session.backendTxBuf.drop n)).session =
        toPort (some c.session.backendPort) (c.session.backendTxBuf.drop n) :=
      pending_some hbackend
    rw [hrest]
    simpa [Conn.wrote,Conn.setTxBuf,Conn.emit,Action.written,Action.forwarded,hsocket]
      using hrelay

theorem flush (h : ConnBound frame written forwarded c) (io : BackendIo) :
    ConnBound frame written forwarded (c.flushBackendTx io) := by
  unfold Conn.flushBackendTx
  split
  · exact h
  · rename_i fd hfd
    split
    · exact h
    · split
      · split
        · exact h.write_pending hfd _
        · exact h
      · exact h
      · exact h

end ConnBound

/-- Closing the descriptor of a session, if it has one, leaves the others' alone. -/
theorem closeIfOpen_focus {frame : Nat → BitVec 16 → Prop} {s : TcpStreamSession} {k : Kernel}
    (h : Focus frame s.backend k.sockets) :
    Focus frame none (k.closeIfOpen s.backendFd).sockets := by
  cases hfd : s.backendFd with
  | none => exact Focus.of_frame h.frame_bound
  | some fd =>
    rw [backend_eq_some hfd] at h
    exact h.close

/-- The call of `forward_to_backend` is logged and its bytes are not yet dealt with. -/
structure Offered (frame : Nat → BitVec 16 → Prop)
    (written forwarded : List (Option (BitVec 16) × UInt8)) (port : BitVec 16)
    (bytes : List UInt8) (c : Conn) : Prop where
  focus : Focus frame c.session.backend c.kernel.sockets
  relay : (written ++ c.log.flatMap Action.written ++ pending c.session ++
    toPort (some port) bytes).Sublist (forwarded ++ c.log.flatMap Action.forwarded)

namespace Offered

variable {frame : Nat → BitVec 16 → Prop}
  {written forwarded : List (Option (BitVec 16) × UInt8)} {port : BitVec 16}
  {bytes : List UInt8} {c : Conn}

theorem refuse (h : Offered frame written forwarded port bytes c) :
    ConnBound frame written forwarded c :=
  ⟨h.focus,(List.sublist_append_left _ _).trans h.relay⟩

/-- Give up what was pending. -/
theorem replace (h : Offered frame written forwarded port bytes c) :
    (written ++ c.log.flatMap Action.written ++ toPort (some port) bytes).Sublist
      (forwarded ++ c.log.flatMap Action.forwarded) := by
  apply List.Sublist.trans _ h.relay
  exact (List.sublist_append_left _ _).append (List.Sublist.refl _)

/-- Keep the bytes behind what is pending on the open connection. -/
theorem keep (h : Offered frame written forwarded port bytes c) {fd : Nat}
    (hfd : c.session.backendFd = some fd) (hport : c.session.backendPort = port) :
    ConnBound frame written forwarded (c.setTxBuf (c.session.backendTxBuf ++ bytes)) := by
  have hbackend := backend_eq_some hfd
  constructor
  · exact h.focus
  · have hpending : pending (c.setTxBuf (c.session.backendTxBuf ++ bytes)).session =
        pending c.session ++ toPort (some port) bytes := by
      rw [pending_some hbackend,← hport,← toPort_append]
      exact pending_some hbackend
    rw [hpending,← List.append_assoc]
    exact h.relay

theorem reconnect (h : Offered frame written forwarded port bytes c) (io : BackendIo) :
    ConnBound frame written forwarded (c.reconnect io bytes port).2 := by
  have hclosed := closeIfOpen_focus h.focus
  have hdropped : (written ++ c.log.flatMap Action.written).Sublist
      (forwarded ++ c.log.flatMap Action.forwarded) :=
    (List.sublist_append_left _ _).trans h.replace
  unfold Conn.reconnect
  dsimp only
  split
  · constructor
    · exact hclosed
    · simpa [pending,TcpStreamSession.backend] using hdropped
  · rename_i fd hsocket
    have hfree : (c.kernel.closeIfOpen c.session.backendFd).sockets fd = none := by
      unfold Kernel.socket at hsocket
      split at hsocket
      · cases hsocket
      · split_ifs at hsocket with hnone
        cases hsocket
        exact hnone
    have hopened := hclosed.open_fresh hfree port
    split_ifs
    · constructor
      · exact hopened
      · simpa [pending,TcpStreamSession.backend,toPort] using hdropped
    · constructor
      · exact hopened
      · exact h.replace

theorem reuse (h : Offered frame written forwarded port bytes c) (io : BackendIo) {fd : Nat}
    (hfd : c.session.backendFd = some fd) (hport : c.session.backendPort = port) :
    ConnBound frame written forwarded (c.reuse io fd bytes).2 := by
  have hkeep := h.keep hfd hport
  unfold Conn.reuse
  split
  · split
    · exact h.refuse
    · exact hkeep.flush io
  · rename_i hempty
    have hbuf : c.session.backendTxBuf = [] := not_not.mp hempty
    rw [hbuf,List.nil_append] at hkeep
    have hwrote : ∀ n, ConnBound frame written forwarded
        ((c.wrote fd bytes n).setTxBuf (bytes.drop n)) :=
      fun n => hkeep.write_pending (c := c.setTxBuf bytes) hfd n
    have hgone : ∀ n, ConnBound frame written forwarded (c.wrote fd bytes n) := by
      intro n
      have hnothing : pending (c.wrote fd bytes n).session = [] := by
        have hpending : pending c.session = toPort (some c.session.backendPort) [] := by
          rw [pending_some (backend_eq_some hfd),hbuf]
        exact hpending
      refine ⟨h.focus,?_⟩
      rw [hnothing,List.append_nil]
      exact (hwrote n).drop_pending
    split
    · exact h.refuse
    · split
      · exact h.refuse
      · exact hkeep
    · rename_i n _
      dsimp only
      split_ifs
      · exact hgone n
      · exact hwrote n
      · exact hgone n

/-- `forward_to_backend` takes the bytes to the target port or nowhere. -/
theorem forward (h : Offered frame written forwarded port bytes c) (io : BackendIo) :
    ConnBound frame written forwarded (c.forwardToBackend io bytes port).2 := by
  unfold Conn.forwardToBackend
  split
  · exact h.refuse
  · split
    · exact h.reconnect io
    · rename_i fd hfd
      split
      · exact h.reconnect io
      · rename_i hport
        exact h.reuse io hfd (not_not.mp hport)

end Offered

namespace ConnBound

variable {frame : Nat → BitVec 16 → Prop}
  {written forwarded : List (Option (BitVec 16) × UInt8)} {c c' : Conn}

theorem offer (h : ConnBound frame written forwarded c) (port : BitVec 16) (bytes : List UInt8) :
    Offered frame written forwarded port bytes (c.emit (.forward port bytes)) := by
  constructor
  · exact h.focus
  · have hrelay := h.relay.append (List.Sublist.refl (toPort (some port) bytes))
    simpa [Conn.emit,Action.written,Action.forwarded] using hrelay

theorem route (h : ConnBound frame written forwarded c) (io : TlsIo) {svc : Tls.ServiceConfig}
    (hssl : svc.hasSslCtx = true) (hsafe : RouteSafe c.session svc) :
    ConnBound frame written forwarded (c.routeTls io (some svc)) := by
  have hbackend : (c.routeTls io (some svc)).session.backend = c.session.backend := by
    simp only [Conn.routeTls,hssl,if_true,Conn.emit,TcpStreamSession.backend]
    rcases hsafe with hnone | hport
    · rw [hnone]
      rfl
    · rw [hport]
  have hrest : (c.routeTls io (some svc)).session.backendTxBuf = c.session.backendTxBuf ∧
      (c.routeTls io (some svc)).kernel = c.kernel ∧
      (c.routeTls io (some svc)).log = c.log ++ [.tlsInit] := by
    simp only [Conn.routeTls,hssl,if_true]
    exact ⟨rfl,rfl,rfl⟩
  obtain ⟨hbuf,hkernel,hlog⟩ := hrest
  constructor
  · rw [hbackend,hkernel]
    exact h.focus
  · have hpending : pending (c.routeTls io (some svc)).session = pending c.session := by
      rw [pending,hbackend,hbuf,pending]
    rw [hlog,hpending]
    simpa [Action.written,Action.forwarded] using h.relay

theorem drop (h : ConnBound frame written forwarded c) {fd : Nat}
    (hfd : c.session.backendFd = some fd) :
    ConnBound frame written forwarded (c.dropBackend fd) := by
  have hfocus := h.focus
  rw [backend_eq_some hfd] at hfocus
  constructor
  · exact hfocus.close
  · have hpending : pending (c.dropBackend fd).session = [] := pending_none rfl
    rw [hpending,List.append_nil]
    exact h.drop_pending

/-- Every act keeps the connection bound. -/
theorem act (h : ConnBound frame written forwarded c) (hact : Act RouteSafe c c') :
    ConnBound frame written forwarded c' := by
  cases hact with
  | calm hcalm => exact h.calm hcalm
  | forward io bytes port => exact (h.offer port bytes).forward io
  | route io svc hssl hsafe => exact h.route io hssl hsafe
  | flush io => exact h.flush io
  | drop fd hfd => exact h.drop hfd

theorem acts (h : ConnBound frame written forwarded c) (hacts : Acts RouteSafe c c') :
    ConnBound frame written forwarded c' :=
  hacts.invariant (fun _ _ hd ha => hd.act ha) h

end ConnBound

/-- What waits for the backend in the session at `p`, if it is live. -/
def pendingAt (w : World) (p : Nat) : List (Option (BitVec 16) × UInt8) :=
  match w.heap.mem p with
  | some s => pending s
  | none => []

/-- Every live session's connection is as it remembers it, and what was written for a session
and what is pending was forwarded for it, in this order and to the same ports. -/
structure WorldBound (w : World) (log : List (Nat × Action)) : Prop where
  handles : Handles TcpStreamSession.backend w.heap w.kernel.sockets
  relay : ∀ p, (ofSession Action.written p log ++ pendingAt w p).Sublist
    (ofSession Action.forwarded p log)

namespace WorldBound

variable {w : World} {log : List (Nat × Action)} {p : Nat} {s : TcpStreamSession}

/-- The part of the session at `p`. -/
theorem conn (h : WorldBound w log) (hs : w.heap.mem p = some s) :
    ConnBound (heldByOthers TcpStreamSession.backend w.heap p) (ofSession Action.written p log)
      (ofSession Action.forwarded p log) (w.conn p s) := by
  constructor
  · exact h.handles.focus hs
  · have hrelay := h.relay p
    rw [pendingAt,hs] at hrelay
    simpa [World.conn] using hrelay

/-- A change at `p` alone. -/
theorem change (h : WorldBound w log) {w' : World} {acts : List (Nat × Action)}
    (hhandles : Handles TcpStreamSession.backend w'.heap w'.kernel.sockets)
    (hsame : ∀ q, q ≠ p → w'.heap.mem q = w.heap.mem q)
    (hquiet : ∀ q, q ≠ p → ofSession Action.written q acts = [])
    (hrelay : (ofSession Action.written p log ++ ofSession Action.written p acts ++
      pendingAt w' p).Sublist (ofSession Action.forwarded p log ++
        ofSession Action.forwarded p acts)) : WorldBound w' (log ++ acts) := by
  refine ⟨hhandles,?_⟩
  intro q
  rw [ofSession_append,ofSession_append]
  by_cases hqp : q = p
  · subst hqp
    exact hrelay
  · have hpending : pendingAt w' q = pendingAt w q := by rw [pendingAt,hsame q hqp,pendingAt]
    rw [hquiet q hqp,hpending,List.append_nil]
    exact (h.relay q).trans (List.sublist_append_left _ _)

theorem put (h : WorldBound w log) (hs : w.heap.mem p = some s) {c : Conn} (haddr : c.addr = p)
    (hc : ConnBound (heldByOthers TcpStreamSession.backend w.heap p)
      (ofSession Action.written p log) (ofSession Action.forwarded p log) c) :
    WorldBound (w.put c) (log ++ c.tagged) := by
  subst haddr
  apply h.change (p := c.addr)
  · exact h.handles.set hs hc.focus
  · intro q hq
    exact Heap.set_mem_of_ne w.heap c.session hq
  · intro q hq
    exact ofSession_other _ _ (Ne.symm hq)
  · have hpending : pendingAt (w.put c) c.addr = pending c.session := by
      have hself : (w.put c).heap.mem c.addr = some c.session := Heap.set_mem_self w.heap _ hs
      rw [pendingAt,hself]
    rw [ofSession_self,ofSession_self,hpending]
    exact hc.relay

theorem free (h : WorldBound w log) (hs : w.heap.mem p = some s) :
    WorldBound (w.free p s) log := by
  have hfree : WorldBound (w.free p s) (log ++ []) := by
    apply h.change (p := p)
    · exact h.handles.free (closeIfOpen_focus (h.handles.focus hs))
    · intro q hq
      exact Heap.free_mem_of_ne w.heap hq
    · intro q _
      rfl
    · have hgone : pendingAt (w.free p s) p = [] := by
        have hnone : (w.free p s).heap.mem p = none := Heap.free_mem_self w.heap p
        rw [pendingAt,hnone]
      rw [hgone]
      simpa using (List.sublist_append_left _ _).trans (h.relay p)
  simpa using hfree

end WorldBound

/-- The condition under which a handled result keeps sessions bound. -/
def SafeResult (cfg : Config) : PacketCondition := fun _ f s res _ _ =>
  res.isSyn = false → ∀ t hello svc, holdHello s res.payload = .pass t hello →
    policyService cfg f hello = .ok (some svc) → svc.hasSslCtx = true → RouteSafe s svc

/-- The assembler leaves the backend connection alone. -/
theorem Takes.calm {s₀ s : TcpStreamSession} {f : TcpFrame} {p : Nat} {res : TcpAssemblyResult}
    (h : Takes s₀ f p s res) (w : World) : Calm (w.conn p s₀) (w.conn p s) :=
  Calm.session (w.conn p s₀) s h.outer.backendFd h.outer.backendPort h.outer.backendTxBuf

/-- The RST at the end of a log is no relay. -/
theorem finalLog_calm (verdict : Verdict) (c : Conn) :
    ∃ log, verdict.finalLog c = ({ c with log := log } : Conn).tagged ∧
      Calm c { c with log := log } := by
  unfold Verdict.finalLog
  split_ifs
  · exact ⟨c.log ++ [.rst],rfl,Calm.emit c rfl⟩
  · exact ⟨c.log,rfl,Calm.refl c⟩

section Moves

variable {cfg : Config} {w w' : World} {log acts : List (Nat × Action)}

theorem safeResult_acts {p : Nat} {s : TcpStreamSession} {f : TcpFrame}
    {res : TcpAssemblyResult} {c : Conn} {verdict : Verdict}
    (hrun : handleResult cfg f (w.conn p s) res = .ok (c,verdict))
    (hsafe : SafeResult cfg p f s res c verdict) : Acts RouteSafe (w.conn p s) c := by
  apply handleResult_acts _ hrun
  intro hsyn t hello svc hhold hsvc hssl
  have hroute := hsafe hsyn t hello svc hhold hsvc hssl
  rw [RouteSafe,holdHello_session (Or.inr ⟨hello,hhold⟩)]
  exact hroute

/-- A session that has just been opened is bound. -/
theorem WorldBound.opened (h : WorldBound w log) (f : TcpFrame) : WorldBound (w.opened f) log := by
  have hall : WorldBound (w.opened f) (log ++ []) := by
    apply h.change (p := w.heap.next)
    · exact h.handles.alloc rfl
    · intro q hq
      exact Heap.alloc_mem_of_ne w.heap _ hq
    · intro q _
      rfl
    · have hfresh : (w.heap.alloc (TcpStreamSession.opened f.packet f.call.nowNs)).2.mem
          w.heap.next = some (.opened f.packet f.call.nowNs) := Heap.alloc_mem_self w.heap _
      have hnone : pending (TcpStreamSession.opened f.packet f.call.nowNs) = [] := rfl
      have hrelay := h.relay w.heap.next
      rw [pendingAt,w.heap.fresh _ (le_refl _)] at hrelay
      rw [pendingAt,World.opened]
      simpa [hfresh,hnone] using hrelay
  rwa [List.append_nil] at hall

/-- Every move keeps all sessions bound. -/
theorem WorldBound.move (h : WorldBound w log) (hmove : Move cfg { packet := SafeResult cfg } w acts w') :
    WorldBound w' (log ++ acts) := by
  cases hmove with
  | free p s hs =>
    rw [List.append_nil]
    exact h.free hs
  | born f c hrun =>
    have hopened := h.opened f
    have hs : (w.opened f).heap.mem w.heap.next = some (.opened f.packet f.call.nowNs) :=
      Heap.alloc_mem_self w.heap _
    have hsafe : SafeResult cfg w.heap.next f (.opened f.packet f.call.nowNs) (w.openedResult f)
        c .reply := fun hsyn => by cases hsyn
    exact hopened.put hs (handleResult_addr hrun)
      ((hopened.conn hs).acts (safeResult_acts hrun hsafe))
  | kept p s₀ s f res c verdict hs htakes hrun hopen hc =>
    exact h.put hs (handleResult_addr hrun)
      (((h.conn hs).calm (htakes.calm w)).acts (safeResult_acts hrun hc))
  | closed p s₀ s f res c verdict hs htakes hrun hclose hc =>
    have haddr : c.addr = p := handleResult_addr hrun
    obtain ⟨entries,hlog,hcalm⟩ := finalLog_calm verdict c
    have hbound := (((h.conn hs).calm (htakes.calm w)).acts (safeResult_acts hrun hc)).calm hcalm
    have hmem : (w.put c).heap.mem p = some c.session := by
      rw [← haddr] at hs ⊢
      exact Heap.set_mem_self w.heap c.session hs
    rw [hlog]
    exact (h.put (c := { c with log := entries }) hs haddr hbound).free hmem
  | event p s fd ev c hs hfd hrun _ =>
    have hacts := onBackendEvent_acts (R := RouteSafe) (c := w.conn p s) ev hfd
    rw [hrun] at hacts
    exact h.put hs hacts.addr ((h.conn hs).acts hacts)
  | hungUp p s fd ev c hs hfd hrun _ =>
    have hacts := onBackendEvent_acts (R := RouteSafe) (c := w.conn p s) ev hfd
    rw [hrun] at hacts
    have haddr : c.addr = p := hacts.addr
    have hmem : (w.put c).heap.mem p = some c.session := by
      rw [← haddr] at hs ⊢
      exact Heap.set_mem_self w.heap c.session hs
    exact (h.put hs haddr ((h.conn hs).acts hacts)).free hmem
  | completion frames =>
    rw [List.append_nil]
    exact ⟨h.handles,h.relay⟩

end Moves

/-- No ClientHello is routed to a TLS service while the session that the packet meets has a
connection to another port. -/
def RoutesSafely (cfg : Config) (st : State) (ev : Event) : Prop :=
  ∀ f s t hello svc, ev = .packet f → st.engine.Meets f.call s →
    holdHello s (s.onPacket f.packet f.call.nowNs f.call.garbage).2.payload = .pass t hello →
    policyService cfg f hello = .ok (some svc) → svc.hasSslCtx = true → RouteSafe s svc

theorem RoutesSafely.eventMeets {cfg : Config} {st : State} {ev : Event}
    (h : RoutesSafely cfg st ev) : EventMeets cfg { packet := SafeResult cfg } st ev := by
  apply EventMeets.packets
  intro f hev engine res p s s' c verdict _ hmeets htakes _ _ _ _ _ t' hello svc hhold hsvc hssl
  have hsame := htakes.outer
  rw [htakes.payload] at hhold
  obtain ⟨t,hpass⟩ := holdHello_outer hsame hhold
  have hsafe := h f s t hello svc hev hmeets hpass hsvc hssl
  rw [RouteSafe,hsame.backendFd,hsame.backendPort]
  exact hsafe

theorem worldBound_new (txPool : List Nat) : WorldBound (State.new txPool).world [] := by
  constructor
  · exact Handles.empty
  · intro p
    exact List.Sublist.refl _

/-- Each open backend descriptor is connected to the port that its session has stored, and what
was written for a session are bytes forwarded for it, in order, each to the port it was
forwarded to. -/
def BackendBound (st : State) (outs : List Output) : Prop :=
  (∀ p s fd, st.engine.heap.mem p = some s → s.backendFd = some fd →
    st.engine.kernel.sockets fd = some s.backendPort) ∧
  ∀ p, (ofSession Action.written p (actionsOf outs)).Sublist
    (ofSession Action.forwarded p (actionsOf outs))

/-- Sessions stay bound in every run in which no ClientHello moves a connected session to
another port. -/
theorem backend_binding (cfg : Config) (txPool : List Nat) (events : List Event) (st : State)
    (outs : List Output)
    (hsafe : Along (RoutesSafely cfg) (step cfg) (State.new txPool) events)
    (hrun : runOut (step cfg) (State.new txPool) events = .ok (st,outs)) :
    BackendBound st outs := by
  have hmeets := Along.mono (fun _ _ h => RoutesSafely.eventMeets h) events _ hsafe
  have hbound : WorldBound st.world ([] ++ actionsOf outs) :=
    (run_moves TcpAssemblerEngine.new_located hmeets hrun).invariant (fun _ _ _ _ h hmove => h.move hmove)
      (worldBound_new txPool)
  rw [List.nil_append] at hbound
  constructor
  · intro p s fd hs hfd
    exact hbound.handles.bound p s fd s.backendPort hs (backend_eq_some hfd)
  · intro p
    exact (List.sublist_append_left _ _).trans (hbound.relay p)

section Sample

open Tls

/-- A computed form of `RoutesSafely`. -/
def routesSafelyCheck (cfg : Config) (st : State) : Event → Bool
  | .backend _ => true
  | .completion _ => true
  | .packet f =>
      match st.engine.cleanup f.call.nowNs with
      | .error _ => true
      | .ok e =>
          match e.sessions.find f.packet.key with
          | .ok (some p) =>
              match e.heap.mem p with
              | none => true
              | some s =>
                  match holdHello s (s.onPacket f.packet f.call.nowNs f.call.garbage).2.payload with
                  | .pass _ hello =>
                      match policyService cfg f hello with
                      | .ok (some svc) =>
                          !svc.hasSslCtx || s.backendFd = none || s.backendPort = svc.backendPort
                      | _ => true
                  | _ => true
          | _ => true

theorem routesSafely_of_check {cfg : Config} {st : State} {ev : Event}
    (h : routesSafelyCheck cfg st ev = true) : RoutesSafely cfg st ev := by
  intro f s t hello svc hev hmeets hhold hsvc hssl
  obtain ⟨e,p,he,hp,hs⟩ := hmeets
  subst hev
  change e.sessions.find f.packet.key = _ at hp
  simp only [routesSafelyCheck,he,hp,hs,hhold,hsvc,hssl] at h
  simpa [RouteSafe] using h

/-- The client opens the connection and sends the ClientHello first; the request comes with the
end of the handshake. -/
def helloFirst : List Event :=
  [.packet (emptyFrame thSyn 0),
    .packet (sampleFrame thAck 1 sampleHello sampleHello_length_lt),
    .packet { byteFrame thAck 64 0x14 with
      tls := { handshake := .done, decrypt := .plain [0x50] }
      backend := { socket := some 7 } }]

theorem backend_binding_helloFirst :
    ∃ st outs, runOut (step mixedConfig) (State.new []) helloFirst = .ok (st,outs) ∧
      (st.engine.heap.mem 1).map TcpStreamSession.backend = some (some (7,9000)) ∧
      BackendBound st outs := by
  refine ⟨_,_,rfl,by decide +kernel,?_⟩
  apply backend_binding mixedConfig [] helloFirst
  · exact Along.of_check (fun _ _ h => routesSafely_of_check h) _ _ (by decide +kernel)
  · rfl

/-- The client sends a plain byte first, which connects the session to port 8000. -/
def plainFirst : List Event :=
  [.packet (emptyFrame thSyn 0),
    .packet { byteFrame thAck 1 0x47 with backend := { socket := some 7 } },
    .packet (sampleFrame thAck 2 sampleHello sampleHello_length_lt),
    .packet { byteFrame thAck 65 0x14 with
      tls := { handshake := .done, decrypt := .plain [0x50] }
      backend := { send := .accepted 2 } }]

/-- The ClientHello then moves the session to port 9000 with its old connection, and the request
that is forwarded to port 9000 is written to port 8000. -/
theorem writes_to_other_port :
    ∃ st outs, runOut (step mixedConfig) (State.new []) plainFirst = .ok (st,outs) ∧
      (st.engine.heap.mem 1).map TcpStreamSession.backend = some (some (7,9000)) ∧
      st.engine.kernel.sockets 7 = some 8000 ∧
      ofSession Action.forwarded 1 (actionsOf outs) = [(some 8000,0x47),(some 9000,0x50)] ∧
      ofSession Action.written 1 (actionsOf outs) = [(some 8000,0x47),(some 8000,0x50)] ∧
      ¬ BackendBound st outs := by
  refine ⟨_,_,rfl,by decide +kernel,by decide +kernel,by decide +kernel,by decide +kernel,?_⟩
  intro h
  have hrelay := h.2 1
  revert hrelay
  decide +kernel

end Sample

end Pipeline

end Aethon
