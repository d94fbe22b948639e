import Aethon.Pipeline.Stalled
import Aethon.Pipeline.Window

/-!
# Clients that use their windows

A client that keeps to the windows it was offered is not reset for lack of room, as long as its
packets leave room. A stalled backend shows why the last condition is there: the bytes of a held
hello are acknowledged with a window that does not count them.
-/

namespace Aethon.Pipeline

open Framework

/-- Outside TLS, the handling of the frame calls `forward_to_backend` for the session at `p`. -/
def ForwardCall (cfg : Config) (st : State) (f : TcpFrame) (p : Nat) (d : Conn)
    (bytes : List UInt8) (port : BitVec 16) : Prop :=
  ∃ engine res s c, f.headersOk = true ∧ st.engine.processPacket f.call = .ok (engine,res) ∧
    res.session = some p ∧ engine.heap.mem p = some s ∧ 0 < res.payload.length ∧
    plainHello cfg f (Conn.noteDelivery ⟨p,s,engine.kernel,st.txPool,[]⟩ res) res.payload =
      .ok (some (c,bytes)) ∧ f.attack = false ∧ targetPort cfg f c.session = .ok port ∧ port ≠ 0 ∧
    d = ((c.scanBytes f bytes).emit (.target port)).emit (.forward port bytes)

/-- A packet that hands bytes out is taken in by a session that was there. -/
theorem takes_of_processPacket {st : State} {f : TcpFrame} {engine : TcpAssemblerEngine}
    {res : TcpAssemblyResult} {p : Nat} {s : TcpStreamSession}
    (h : st.engine.processPacket f.call = .ok (engine,res)) (hp : res.session = some p)
    (hs : engine.heap.mem p = some s) (hpos : 0 < res.payload.length) :
    ∃ s₀, st.engine.Meets f.call s₀ ∧ Takes s₀ f p s res := by
  obtain ⟨t,hclean,hcase⟩ := TcpAssemblerEngine.processPacket_cases h
  cases hcase with
  | ignored => cases hp
  | opened => cases hpos
  | removed => cases hp
  | kept q s₀ s' r hfind hs₀ hon =>
    cases hp
    have hset : (t.heap.set p s').mem p = some s := hs
    rw [Heap.set_mem_self t.heap s' hs₀] at hset
    cases hset
    exact ⟨s₀,⟨t,p,hclean,hfind,hs₀⟩,r,hon,rfl⟩

/-- `forward_to_backend` does not return false for lack of room. -/
def HasRoom (cfg : Config) (p : Nat) (st : State) (_ : List Output) (ev : Event) : Prop :=
  ∀ f d bytes port, ev = .packet f → ForwardCall cfg st f p d bytes port →
    d.lacksRoom f.backend bytes port = false ∧
    ((d.forwardToBackend f.backend bytes port).1 = false → f.backend.send = .failed ∨
      (d.kernel.closeIfOpen d.session.backendFd).socket f.backend.socket = none)

/-- The session at `p` has not come to the TLS engine. -/
def StaysPlain (p : Nat) (_ : State) (outs : List Output) (_ : Event) : Prop :=
  Plain (traceOf p (actionsOf outs))

/-- The client of the session at `p` keeps to the windows that it was offered. -/
def ClientWithin (p : Nat) : State → List Output → Event → Prop :=
  Guard (fun _ acts f => SendsWithin acts f.packet) p

/-- The packets of the session at `p` leave room. -/
def PacketsLeaveRoom (p : Nat) : State → List Output → Event → Prop :=
  Guard (fun s _ f => LeavesRoom s f.packet) p

instance (p : Nat) (st : State) (outs : List Output) (ev : Event) :
    Decidable (StaysPlain p st outs ev) := inferInstanceAs (Decidable (Plain _))

instance (p : Nat) (st : State) (outs : List Output) (ev : Event) :
    Decidable (ClientWithin p st outs ev) := inferInstanceAs (Decidable (Guard _ p st outs ev))

instance (p : Nat) (st : State) (outs : List Output) (ev : Event) :
    Decidable (PacketsLeaveRoom p st outs ev) := inferInstanceAs (Decidable (Guard _ p st outs ev))

theorem ForwardCall.hasRoom {cfg : Config} {st : State} {f : TcpFrame} {p : Nat} {d : Conn}
    {bytes : List UInt8} {port : BitVec 16} {acts : List Action} (hlocated : st.engine.Located)
    (hlive : ∀ s, st.engine.heap.mem p = some s → Honoured s acts) (hplain : Plain acts)
    (hguard : ∀ s, st.engine.heap.mem p = some s → s.key = f.packet.key → windowGuard s acts f)
    (h : ForwardCall cfg st f p d bytes port) :
    bytes ≠ [] ∧ port ≠ 0 ∧ d.session.backendTxBuf.length + bytes.length ≤ maxBackendBuf := by
  obtain ⟨engine,res,s,c,_,hpacket,hp,hs,hpos,hhello,_,_,hport,rfl⟩ := h
  obtain ⟨s₀,hmeets,htakes⟩ := takes_of_processPacket hpacket hp hs hpos
  obtain ⟨hs₀,hkey⟩ := meets_session hlocated hmeets hpacket hp
  have hdata := Honoured.takesData htakes hpos
  have hopen : s₀.state ≠ .closing := by
    intro hclosing
    simp [TcpStreamSession.takesData,hclosing] at hdata
  obtain ⟨o,_,hreceived⟩ := (hlive s₀ hs₀).takes (hguard s₀ hs₀ hkey) htakes hplain hopen
  have hroom := hreceived.room hpos
  obtain ⟨t,_,_,_,_,hpass,hc,_⟩ := plainHello_frame hhello
  have hsession : (Conn.noteDelivery ⟨p,s,engine.kernel,st.txPool,[]⟩ res).session = s := by
    unfold Conn.noteDelivery
    split_ifs <;> rfl
  rw [hsession] at hpass hc
  have hbytes := holdHello_pass (htakes.outer.tlsStatus.trans (hlive s₀ hs₀ hplain).1) hpass
  refine ⟨?_,hport,?_⟩
  · rw [hbytes]
    exact List.append_ne_nil_of_right_ne_nil _ (List.ne_nil_of_length_pos hpos)
  · have hbuf : c.session.backendTxBuf = s.backendTxBuf := by rw [hc]
    change c.session.backendTxBuf.length + bytes.length ≤ maxBackendBuf
    rw [hbuf,hbytes,List.length_append]
    omega

/-- A forward of a session without TLS has room in every run in which the client keeps to its
windows and the packets leave room. -/
theorem window_honoured (cfg : Config) (txPool : List Nat) (events : List Event) (p : Nat)
    (hplain : During (StaysPlain p) (step cfg) (State.new txPool) events)
    (hclient : During (ClientWithin p) (step cfg) (State.new txPool) events)
    (hroom : During (PacketsLeaveRoom p) (step cfg) (State.new txPool) events) :
    During (HasRoom cfg p) (step cfg) (State.new txPool) events := by
  have hguard : During (Guard windowGuard p) (step cfg) (State.new txPool) events :=
    fun before ev after st outs heq hrun f s hev hs hkey =>
      ⟨hclient before ev after st outs heq hrun f s hev hs hkey,
        hroom before ev after st outs heq hrun f s hev hs hkey⟩
  intro before ev after st outs heq hrun f d bytes port hev hcall
  have htrace := hplain before ev after st outs heq hrun
  have hhere := hguard before ev after st outs heq hrun
  rw [heq] at hguard
  have hlived := (honoured_guarded cfg p).run hguard.left hrun
  obtain ⟨hne,hport,hfits⟩ := hcall.hasRoom (run_located TcpAssemblerEngine.new_located hrun)
    hlived.live htrace (fun s hs hkey => hhere f s hev hs hkey)
  have hlacks : d.lacksRoom f.backend bytes port = false := not_lacksRoom hfits
  refine ⟨hlacks,?_⟩
  intro hfalse
  rcases forwardToBackend_false hfalse with hempty | hroom | hother
  · rcases hempty with hnil | hzero
    · exact absurd (List.eq_nil_of_length_eq_zero hnil) hne
    · exact absurd hzero hport
  · rw [hlacks] at hroom
    cases hroom
  · exact hother

/-- The first byte for a backend that takes nothing. -/
def stallingFrame : TcpFrame :=
  { sampleFrame thAck 1 [0] (by decide) with backend := { socket := some 7 } }

def stallingEvents : List Event := openingEvents ++ [.packet stallingFrame]

def stalledRun : State × List Output :=
  match runOut (step mixedConfig) (State.new []) stallingEvents with
  | .ok result => result
  | .error _ => (.new [],[])

theorem window_honoured_stalling :
    (1,.forward 8000 [0]) ∈ actionsOf stalledRun.2 ∧
      During (HasRoom mixedConfig 1) (step mixedConfig) (State.new []) stallingEvents :=
  ⟨by decide +kernel,window_honoured mixedConfig [] stallingEvents 1
    (During.of_check (by decide +kernel)) (During.of_check (by decide +kernel))
    (During.of_check (by decide +kernel))⟩

section Overrun

open Tls TcpAssemblerEngine

/-- The session at `p` stays plain, and its client keeps to the windows. -/
def KeepsPlain (p : Nat) (st : State) (outs : List Output) (ev : Event) : Prop :=
  StaysPlain p st outs ev ∧ ClientWithin p st outs ev

instance (p : Nat) (st : State) (outs : List Output) (ev : Event) :
    Decidable (KeepsPlain p st outs ev) :=
  inferInstanceAs (Decidable (StaysPlain p st outs ev ∧ ClientWithin p st outs ev))

theorem plainHello_plain {cfg : Config} {f : TcpFrame} {c : Conn} {b : UInt8}
    {rest : List UInt8} (hempty : c.session.clientHelloBuf = [])
    (hidle : c.session.tlsStatus = .idle) (hb : b ≠ 0x16) :
    plainHello cfg f c (b :: rest) = .ok (some (c,b :: rest)) := by
  obtain ⟨info,hparse,hinfo⟩ := parseClientHello_plain rest hb
  simp only [plainHello,holdHello_plain hempty hb,hparse,bind,Except.bind,hinfo,Bool.false_eq_true,
    if_false,hidle,if_true]
  rfl

/-- A run of the sample connection whose backend takes nothing. -/
structure Backlog (st : State) (outs : List Output) (s : TcpStreamSession) (o : Offer)
    (held : List UInt8) : Prop where
  arrives : Arrives (KeepsPlain 1) (step mixedConfig) (State.new []) st outs
  stalled : Stalled ⟨1,2,3,4⟩ 1 st s held
  steady : Steady st
  told : Told (traceOf 1 (actionsOf outs)) s o

namespace Backlog

variable {st st' : State} {outs : List Output} {s s' : TcpStreamSession} {o : Offer}
  {held held' segment : List UInt8} {out : Output}

theorem keepsPlain (h : Backlog st outs s o held) (hlen : segment.length < 65536)
    (hend : (o.received + segment.length : Int) ≤ o.edge) :
    KeepsPlain 1 st outs (.packet (segmentFrame s.rcvNxt segment)) := by
  refine ⟨h.told.plain,?_⟩
  intro f t hf _ _
  cases hf
  have hdata : DataFrame ⟨1,2,3,4⟩ s.rcvNxt segment (segmentFrame s.rcvNxt segment) :=
    segmentFrame_data hlen
  exact h.told.sendsWithin hdata.seq (by rwa [hdata.payload])

theorem next (h : Backlog st outs s o held) (hlen : segment.length < 65536)
    (hend : (o.received + segment.length : Int) ≤ o.edge)
    (hstep : handleTcpPacket mixedConfig st (segmentFrame s.rcvNxt segment) = .ok (st',out))
    (hgoes : Goes ⟨1,2,3,4⟩ 1 st s (segmentFrame s.rcvNxt segment) segment held' st' s' out) :
    ∃ o', Backlog st' (outs ++ [out]) s' o' held' ∧
      o'.received = o.received + segment.length ∧ o.edge ≤ o'.edge := by
  obtain ⟨o',htold,hreceived,hedge⟩ := h.told.answered hgoes.next hgoes.answered
  refine ⟨o',⟨h.arrives.step (h.keepsPlain hlen hend) hstep,hgoes.stalled,
    h.steady.next hgoes.table,?_⟩,hreceived,hedge⟩
  rw [actionsOf,List.flatMap_append,List.flatMap_singleton,traceOf_append]
  exact htold

/-- A plain segment for which there is room goes to the backend buffer. -/
theorem queue (h : Backlog st outs s o []) (b : UInt8) (rest : List UInt8) (hb : b ≠ 0x16)
    (hlen : (b :: rest).length < 65536)
    (hroom : s.backendTxBuf.length + (b :: rest).length ≤ maxBackendBuf) :
    ∃ st' outs' s' o', Backlog st' outs' s' o' [] ∧
      s'.backendTxBuf.length = s.backendTxBuf.length + (b :: rest).length ∧
      o'.received = o.received + (b :: rest).length ∧ o.edge ≤ o'.edge := by
  obtain ⟨info,hparse,hinfo⟩ := parseClientHello_plain rest hb
  obtain ⟨st',out,s',hstep,hgoes,hbuf⟩ := h.stalled.queue mixedConfig (segmentFrame_data hlen)
    (List.cons_ne_nil b rest) (h.steady.found s.rcvNxt hlen h.stalled.serving.mem)
    (segmentFrame_attack hlen) (segmentFrame_again hlen)
    (holdHello_plain h.stalled.clientHelloBuf hb) (List.cons_ne_nil b rest) hparse hinfo hroom
  obtain ⟨o',hback,hreceived,hedge⟩ := h.next hlen (h.told.room hlen hroom) hstep hgoes
  exact ⟨st',_,s',o',hback,by rw [hbuf,List.length_append],hreceived,hedge⟩

/-- Segments of the same length fill the buffer one after the other. -/
theorem fill (h : Backlog st outs s o []) (n : Nat) (hlen : n + 1 < 65536) (k : Nat)
    (hroom : s.backendTxBuf.length + k * (n + 1) ≤ maxBackendBuf) :
    ∃ st' outs' s' o', Backlog st' outs' s' o' [] ∧
      s'.backendTxBuf.length = s.backendTxBuf.length + k * (n + 1) ∧
      o'.received = o.received + k * (n + 1) ∧ o.edge ≤ o'.edge := by
  induction k with
  | zero => exact ⟨st,outs,s,o,h,by simp,by simp,le_rfl⟩
  | succ k ih =>
    rw [Nat.succ_mul] at hroom ⊢
    obtain ⟨st₁,outs₁,s₁,o₁,hback,hbuf,hreceived,hedge⟩ := ih (by omega)
    have hsize : (0 :: List.replicate n (0 : UInt8)).length = n + 1 := by simp
    obtain ⟨st₂,outs₂,s₂,o₂,hback₂,hbuf₂,hreceived₂,hedge₂⟩ := hback.queue 0
      (List.replicate n 0) (by decide) (by omega) (by omega)
    exact ⟨st₂,outs₂,s₂,o₂,hback₂,by omega,by omega,hedge.trans hedge₂⟩

/-- The first bytes of a record that is no ClientHello, although its message has the type of one. -/
def heldStart : List UInt8 := [0x16,0,0,0,16,1]

def heldRest : List UInt8 := [0,0,0,0,0,0,0,0,0,0,0,0,0,0,0]

theorem heldRecord : HelloRecord (heldStart ++ heldRest) := by
  constructor <;> decide

/-- A part of a hello is held, and the client may send as many bytes more. -/
theorem hold (h : Backlog st outs s o [])
    (hroom : s.backendTxBuf.length + 6 ≤ maxBackendBuf) :
    ∃ st' outs' s' o', Backlog st' outs' s' o' heldStart ∧
      s'.backendTxBuf.length = s.backendTxBuf.length ∧ o'.received = o.received + 6 := by
  have hlen : heldStart.length < 65536 := by decide
  have hwait : holdHello (afterSegment s (segmentFrame s.rcvNxt heldStart) heldStart) heldStart =
      _ := holdHello_segment heldRecord h.stalled.tlsStatus h.stalled.clientHelloBuf
    (List.prefix_append heldStart heldRest) (Or.inr ⟨rfl,by decide⟩)
  rw [if_pos (by decide)] at hwait
  obtain ⟨st',out,s',hstep,hgoes,hbuf⟩ := h.stalled.hold mixedConfig (segmentFrame_data hlen)
    (by decide) (h.steady.found s.rcvNxt hlen h.stalled.serving.mem) hwait
  obtain ⟨o',hback,hreceived,_⟩ := h.next hlen (h.told.room hlen hroom) hstep hgoes
  exact ⟨st',_,s',o',hback,by rw [hbuf],hreceived⟩

/-- The rest of the record lets it go to the backend buffer. -/
theorem release (h : Backlog st outs s o heldStart)
    (hroom : s.backendTxBuf.length + 21 ≤ maxBackendBuf) :
    ∃ st' outs' s' o', Backlog st' outs' s' o' [] ∧
      s'.backendTxBuf.length = s.backendTxBuf.length + 21 ∧
      o'.received = o.received + 15 ∧ o.edge ≤ o'.edge := by
  have hlen : heldRest.length < 65536 := by decide
  have hpass : holdHello (afterSegment s (segmentFrame s.rcvNxt heldRest) heldRest) heldRest =
      _ := holdHello_segment heldRecord h.stalled.tlsStatus h.stalled.clientHelloBuf
    (List.prefix_refl (heldStart ++ heldRest)) (Or.inl (by decide))
  rw [if_neg (by decide)] at hpass
  have hparse : parseClientHello (heldStart ++ heldRest) = .ok { isTls := true } := by
    decide +kernel
  obtain ⟨st',out,s',hstep,hgoes,hbuf⟩ := h.stalled.queue mixedConfig (segmentFrame_data hlen)
    (by decide) (h.steady.found s.rcvNxt hlen h.stalled.serving.mem) (segmentFrame_attack hlen)
    (segmentFrame_again hlen) hpass (by decide) hparse rfl hroom
  have hsize : heldRest.length = 15 := rfl
  obtain ⟨o',hback,hreceived,hedge⟩ := h.next hlen (h.told.room hlen (by omega)) hstep hgoes
  exact ⟨st',_,s',o',hback,by rw [hbuf,List.length_append]; rfl,hreceived,hedge⟩

/-- A plain segment within the window for which there is no room. -/
theorem overruns (h : Backlog st outs s o []) (b : UInt8) (rest : List UInt8) (hb : b ≠ 0x16)
    (hlen : (b :: rest).length < 65536)
    (hend : (o.received + (b :: rest).length : Int) ≤ o.edge)
    (hfull : maxBackendBuf < s.backendTxBuf.length + (b :: rest).length) :
    ∃ events, During (KeepsPlain 1) (step mixedConfig) (State.new []) events ∧
      ¬ During (HasRoom mixedConfig 1) (step mixedConfig) (State.new []) events := by
  obtain ⟨events,hrun,hkeeps⟩ := h.arrives
  refine ⟨events ++ [.packet (segmentFrame s.rcvNxt (b :: rest))],
    hkeeps.snoc hrun (h.keepsPlain hlen hend),?_⟩
  intro hroom
  have hdata : DataFrame ⟨1,2,3,4⟩ s.rcvNxt (b :: rest) (segmentFrame s.rcvNxt (b :: rest)) :=
    segmentFrame_data hlen
  obtain ⟨t,_,_,hpacket,hserving⟩ := h.stalled.process hdata (List.cons_ne_nil b rest)
    (h.steady.found s.rcvNxt hlen h.stalled.serving.mem)
  have hcall : ForwardCall mixedConfig st (segmentFrame s.rcvNxt (b :: rest)) 1 _ (b :: rest)
      s.backendPort :=
    ⟨_,_,_,_,hdata.headers,hpacket,rfl,hserving.mem,Nat.succ_pos _,
      plainHello_plain h.stalled.clientHelloBuf h.stalled.tlsStatus hb,
      segmentFrame_attack hlen,if_neg h.stalled.routed,h.stalled.routed,rfl⟩
  have hlacks := (hroom events _ [] st outs rfl hrun _ _ _ _ rfl hcall).1
  rw [lacksRoom_full (List.cons_ne_nil b rest) h.stalled.routed h.stalled.connected rfl
    h.stalled.waits hfull] at hlacks
  cases hlacks

end Backlog

/-- The session to which the first byte belongs. -/
def stalledSession : TcpStreamSession :=
  (stalledRun.1.engine.heap.mem 1).getD TcpAssemblerEngine.sampleStart

theorem stalledRun_backlog :
    Backlog stalledRun.1 stalledRun.2 stalledSession ⟨0,1,65536⟩ [] := by
  have hrun : runOut (step mixedConfig) (State.new []) stallingEvents = .ok stalledRun := rfl
  have hwf := (show Reached mixedConfig stalledRun.1 from ⟨[],stallingEvents,_,hrun⟩).engineWf
  have hfind : stalledRun.1.engine.sessions.find ⟨1,2,3,4⟩ = .ok (some 1) := rfl
  refine ⟨⟨stallingEvents,hrun,During.of_check (by decide +kernel)⟩,
    ⟨⟨⟨hwf,hwf.owns.wf.find_stored hfind,rfl⟩,rfl,rfl,rfl,rfl⟩,?_,?_,?_⟩,⟨rfl,hfind⟩,
    ⟨by decide +kernel,rfl,rfl,?_⟩⟩
  · decide +kernel
  · decide +kernel
  · decide +kernel
  · decide +kernel

/-- A client that keeps to its windows is reset: 197101 bytes wait for the backend when six bytes
of a hello are held, which the window does not count. -/
theorem window_overrun :
    ¬ ∀ (cfg : Config) (txPool : List Nat) (events : List Event) (p : Nat),
      During (StaysPlain p) (step cfg) (State.new txPool) events →
      During (ClientWithin p) (step cfg) (State.new txPool) events →
      During (HasRoom cfg p) (step cfg) (State.new txPool) events := by
  intro hall
  have hmax : maxBackendBuf = 262144 := rfl
  have hone : stalledSession.backendTxBuf.length = 1 := rfl
  obtain ⟨_,_,s₁,o₁,h₁,hbuf₁,hreceived₁,_⟩ := stalledRun_backlog.fill 1459 (by decide) 135
    (by rw [hone]; decide)
  obtain ⟨_,_,s₂,o₂,h₂,hbuf₂,hreceived₂⟩ := h₁.hold (by omega)
  obtain ⟨_,_,s₃,o₃,h₃,hbuf₃,hreceived₃,hedge₃⟩ := h₂.release (by omega)
  obtain ⟨_,_,s₄,o₄,h₄,hbuf₄,hreceived₄,hedge₄⟩ := h₃.fill 1459 (by decide) 44 (by omega)
  have hwindow : recvWindow s₂ = 65043 := by
    rw [recvWindow,hbuf₂,hbuf₁,hone]
    decide
  have htold := h₂.told.window
  have hsize : ∀ n, ((0 : UInt8) :: List.replicate n 0).length = n + 1 := by simp
  have hlast := hsize 787
  obtain ⟨events,hkeeps,hnot⟩ := h₄.overruns 0 (List.replicate 787 0) (by decide) (by omega)
    (by omega) (by omega)
  exact hnot (hall mixedConfig [] events 1
    (fun before ev after st outs heq hrun => (hkeeps before ev after st outs heq hrun).1)
    (fun before ev after st outs heq hrun => (hkeeps before ev after st outs heq hrun).2))

end Overrun

end Aethon.Pipeline
