import Aethon.Pipeline.Located

/-!
# Moves of the pipeline

What the pipeline can do to the sessions on the heap, to the kernel and to the log, said once.
A call is a sequence of moves: a session is freed with its socket, opened and answered, served
for a packet, served and closed, or served for a backend event, and a session whose backend
hangs up is closed. Frames come back to the transmit pool.
-/

namespace Aethon

open Framework

namespace Pipeline

/-- What the sessions share. -/
structure World where
  heap : Heap TcpStreamSession
  kernel : Kernel
  txPool : List Nat

namespace World

/-- Delete the session `s` at `p`. -/
def free (w : World) (p : Nat) (s : TcpStreamSession) : World :=
  { w with heap := w.heap.free p, kernel := w.kernel.closeIfOpen s.backendFd }

/-- Open a session for a SYN. -/
def opened (w : World) (f : TcpFrame) : World :=
  { w with heap := (w.heap.alloc (.opened f.packet f.call.nowNs)).2 }

/-- The result of `process_packet` for a SYN that opens a session. -/
def openedResult (w : World) (f : TcpFrame) : TcpAssemblyResult :=
  TcpAssemblerEngine.portsOf f.packet { isSyn := true } (some w.heap.next)

/-- Write back what a call did to a session. -/
def put (w : World) (c : Conn) : World := ⟨w.heap.set c.addr c.session,c.kernel,c.txPool⟩

def conn (w : World) (p : Nat) (s : TcpStreamSession) : Conn := ⟨p,s,w.kernel,w.txPool,[]⟩

end World

/-- The session `s₀` takes a packet in: it becomes `s`, with the result `res`. -/
def Takes (s₀ : TcpStreamSession) (f : TcpFrame) (p : Nat) (s : TcpStreamSession)
    (res : TcpAssemblyResult) : Prop :=
  ∃ r, s₀.onPacket f.packet f.call.nowNs f.call.garbage = (some s,r) ∧
    res = TcpAssemblerEngine.portsOf f.packet r (some p)

section Takes

variable {s₀ s : TcpStreamSession} {f : TcpFrame} {p : Nat} {res : TcpAssemblyResult}

theorem Takes.outer (h : Takes s₀ f p s res) : s₀.SameOuter s := by
  obtain ⟨r,hon,_⟩ := h
  exact TcpStreamSession.onPacket_outer hon

theorem Takes.payload (h : Takes s₀ f p s res) :
    res.payload = (s₀.onPacket f.packet f.call.nowNs f.call.garbage).2.payload := by
  obtain ⟨r,hon,rfl⟩ := h
  rw [hon]
  rfl

theorem Takes.isSyn (h : Takes s₀ f p s res) (hsyn : res.isSyn = true) :
    f.packet.has thSyn = true ∧ f.packet.has thRst = false := by
  obtain ⟨r,hon,rfl⟩ := h
  apply TcpAssemblerEngine.onPacket_isSyn (s := s₀) (c := f.call)
  change (s₀.onPacket f.packet f.call.nowNs f.call.garbage).2.isSyn = true
  rw [hon]
  exact hsyn

end Takes

/-- A condition on the handling of one packet: the address of the session, the frame, the
session, the result of the assembler, and how the handling ends. -/
abbrev PacketCondition := Nat → TcpFrame → TcpStreamSession → TcpAssemblyResult → Conn → Verdict →
  Prop

/-- What is asked of the calls: of the handling of packets, and of backend events with the
session and the transmit pool that they meet. -/
structure CallCondition where
  packet : PacketCondition := fun _ _ _ _ _ _ => True
  event : Conn → BackendEvent → Prop := fun _ _ => True

/-- The session is closed after its handling. -/
def Verdict.closes (verdict : Verdict) (res : TcpAssemblyResult) : Bool :=
  verdict = .reset || verdict = .proceed && res.isClosed

theorem Verdict.ne_reset {verdict : Verdict} {res : TcpAssemblyResult}
    (h : verdict.closes res = false) : verdict ≠ .reset := by
  intro hreset
  rw [hreset] at h
  cases h

/-- The log of a call, with the RST that a reset ends it with. -/
def Verdict.finalLog (verdict : Verdict) (c : Conn) : List (Nat × Action) :=
  if verdict = .reset then (c.emit .rst).tagged else c.tagged

/-- What the actions of the session at `p` amount to. -/
def ofSession {β : Type} (g : Action → List β) (p : Nat) (log : List (Nat × Action)) : List β :=
  log.flatMap fun e => if e.1 = p then g e.2 else []

section OfSession

variable {β : Type} (g : Action → List β) (p : Nat)

@[simp] theorem ofSession_nil : ofSession g p [] = [] := rfl

@[simp] theorem ofSession_append (log log' : List (Nat × Action)) :
    ofSession g p (log ++ log') = ofSession g p log ++ ofSession g p log' :=
  List.flatMap_append

theorem ofSession_self (c : Conn) : ofSession g c.addr c.tagged = c.log.flatMap g := by
  simp [ofSession,Conn.tagged,List.flatMap_map]

theorem ofSession_other {c : Conn} (h : c.addr ≠ p) : ofSession g p c.tagged = [] := by
  simp [ofSession,Conn.tagged,List.flatMap_map,h]

end OfSession

variable (cfg : Config) (C : CallCondition)

inductive Move : World → List (Nat × Action) → World → Prop where
  | free (w : World) (p : Nat) (s : TcpStreamSession) (hs : w.heap.mem p = some s) :
      Move w [] (w.free p s)
  | born (w : World) (f : TcpFrame) (c : Conn)
      (hrun : handleResult cfg f ((w.opened f).conn w.heap.next (.opened f.packet f.call.nowNs))
        (w.openedResult f) = .ok (c,.reply)) : Move w c.tagged ((w.opened f).put c)
  | kept (w : World) (p : Nat) (s₀ s : TcpStreamSession) (f : TcpFrame) (res : TcpAssemblyResult)
      (c : Conn) (verdict : Verdict) (hs : w.heap.mem p = some s₀) (htakes : Takes s₀ f p s res)
      (hrun : handleResult cfg f (w.conn p s) res = .ok (c,verdict))
      (hopen : verdict.closes res = false) (hc : C.packet p f s res c verdict) :
      Move w c.tagged (w.put c)
  | closed (w : World) (p : Nat) (s₀ s : TcpStreamSession) (f : TcpFrame)
      (res : TcpAssemblyResult) (c : Conn) (verdict : Verdict) (hs : w.heap.mem p = some s₀)
      (htakes : Takes s₀ f p s res)
      (hrun : handleResult cfg f (w.conn p s) res = .ok (c,verdict))
      (hclose : verdict.closes res = true) (hc : C.packet p f s res c verdict) :
      Move w (verdict.finalLog c) ((w.put c).free p c.session)
  | event (w : World) (p : Nat) (s : TcpStreamSession) (fd : Nat) (ev : BackendEvent) (c : Conn)
      (hs : w.heap.mem p = some s) (hfd : s.backendFd = some fd)
      (hrun : (w.conn p s).onBackendEvent fd ev = (c,false)) (hc : C.event (w.conn p s) ev) :
      Move w c.tagged (w.put c)
  | hungUp (w : World) (p : Nat) (s : TcpStreamSession) (fd : Nat) (ev : BackendEvent) (c : Conn)
      (hs : w.heap.mem p = some s) (hfd : s.backendFd = some fd)
      (hrun : (w.conn p s).onBackendEvent fd ev = (c,true)) (hc : C.event (w.conn p s) ev) :
      Move w c.tagged ((w.put c).free p c.session)
  | completion (w : World) (frames : List Nat) :
      Move w [] { w with txPool := frames ++ w.txPool }

/-- A sequence of moves with the actions they log. -/
inductive Moves : World → List (Nat × Action) → World → Prop where
  | refl (w : World) : Moves w [] w
  | step {w v u : World} {acts acts' : List (Nat × Action)} (h : Moves w acts v)
      (h' : Move cfg C v acts' u) : Moves w (acts ++ acts') u

variable {cfg C}

theorem Moves.one {w u : World} {acts : List (Nat × Action)} (h : Move cfg C w acts u) :
    Moves cfg C w acts u := by
  simpa using Moves.step (Moves.refl w) h

theorem Moves.trans {w v u : World} {acts acts' : List (Nat × Action)} (h : Moves cfg C w acts v)
    (h' : Moves cfg C v acts' u) : Moves cfg C w (acts ++ acts') u := by
  induction h' with
  | refl => simpa using h
  | step _ hmove ih => simpa using Moves.step ih hmove

/-- An invariant of the world and of the log so far that every move keeps. -/
theorem Moves.invariant {I : World → List (Nat × Action) → Prop}
    (hmove : ∀ w acts u log, I w log → Move cfg C w acts u → I u (log ++ acts))
    {w u : World} {acts log : List (Nat × Action)} (h : Moves cfg C w acts u) (hi : I w log) :
    I u (log ++ acts) := by
  induction h with
  | refl => simpa using hi
  | step _ hm ih =>
    rw [← List.append_assoc]
    exact hmove _ _ _ _ ih hm

/-- An invariant of the world that every move keeps. -/
theorem Moves.preserves {I : World → Prop}
    (hmove : ∀ w acts u, I w → Move cfg C w acts u → I u) {w u : World}
    {acts : List (Nat × Action)} (h : Moves cfg C w acts u) (hi : I w) : I u := by
  induction h with
  | refl => exact hi
  | step _ hm ih => exact hmove _ _ _ ih hm

/-- Sessions are freed. -/
inductive Frees : World → World → Prop where
  | refl (w : World) : Frees w w
  | step {w v : World} {p : Nat} {s : TcpStreamSession} (h : Frees w v)
      (hs : v.heap.mem p = some s) : Frees w (v.free p s)

theorem Frees.trans {w v u : World} (h : Frees w v) (h' : Frees v u) : Frees w u := by
  induction h' with
  | refl => exact h
  | step _ hs ih => exact ih.step hs

theorem Frees.moves {w u : World} (h : Frees w u) : Moves cfg C w [] u := by
  induction h with
  | refl => exact Moves.refl _
  | step _ hs ih => exact ih.step (Move.free _ _ _ hs)

section Engine

variable {e u : TcpAssemblerEngine} {txPool : List Nat}

def worldOf (e : TcpAssemblerEngine) (txPool : List Nat) : World := ⟨e.heap,e.kernel,txPool⟩

theorem deleteSession_world {key : TcpKey} {p : Nat} {s : TcpStreamSession}
    (h : e.deleteSession key p s = .ok u) : worldOf u txPool = (worldOf e txPool).free p s := by
  obtain ⟨⟨_,sessions⟩,_,hret⟩ := (bind_ok_iff ..).mp h
  cases hret
  rfl

theorem deleteSession_frees {key : TcpKey} {p : Nat} {s : TcpStreamSession}
    (hs : e.heap.mem p = some s) (h : e.deleteSession key p s = .ok u) :
    Frees (worldOf e txPool) (worldOf u txPool) := by
  rw [deleteSession_world h]
  exact (Frees.refl _).step hs

theorem cleanup_frees {nowNs : BitVec 64} (h : e.cleanup nowNs = .ok u) :
    Frees (worldOf e txPool) (worldOf u txPool) := by
  apply TcpAssemblerEngine.cleanup_preserves
    (P := fun v => Frees (worldOf e txPool) (worldOf v txPool)) _ (fun _ hm => hm)
    (Frees.refl _) h
  intro v key p s v' hm hs _ hdel
  exact hm.trans (deleteSession_frees hs hdel)

theorem closeSession_frees {key : TcpKey} (h : e.closeSession key = .ok u) :
    Frees (worldOf e txPool) (worldOf u txPool) := by
  unfold TcpAssemblerEngine.closeSession at h
  obtain ⟨slot,_,hrest⟩ := (bind_ok_iff ..).mp h
  cases slot with
  | none =>
    cases hrest
    exact Frees.refl _
  | some p =>
    dsimp only at hrest
    split_ifs at hrest
    · cases hrest
      exact Frees.refl _
    · split at hrest
      · cases hrest
      · rename_i s hs
        exact deleteSession_frees hs hrest

/-- Closing the session that the lookup of its key finds. -/
theorem closeSession_found (txPool : List Nat) {key : TcpKey} {p : Nat} {s : TcpStreamSession}
    (hfind : e.sessions.find key = .ok (some p)) (hs : e.heap.mem p = some s)
    (h : e.closeSession key = .ok u) : worldOf u txPool = (worldOf e txPool).free p s := by
  have hp : p ≠ 0 := by
    intro hzero
    rw [hzero,e.heap.null] at hs
    cases hs
  unfold TcpAssemblerEngine.closeSession at h
  obtain ⟨slot,hslot,hrest⟩ := (bind_ok_iff ..).mp h
  rw [hfind] at hslot
  cases hslot
  simp only [hp,if_false,hs] at hrest
  exact deleteSession_world hrest

/-- Bytes that `process_packet` delivers always reach the handling of delivered bytes. -/
theorem processPacket_handsOver {c : PacketCall} {res : TcpAssemblyResult}
    (h : e.processPacket c = .ok (u,res)) :
    res.payload = [] ∨ res.isSyn = false ∧ res.needAck = false ∧ res.session.isSome = true := by
  obtain ⟨t,_,hcase⟩ := TcpAssemblerEngine.processPacket_cases h
  cases hcase with
  | ignored => exact Or.inl rfl
  | opened m b => exact Or.inl rfl
  | kept p s s' r hfind hs hon =>
    have hover := s.onPacket_handsOver c.packet c.nowNs c.garbage
    rw [hon] at hover
    exact hover
  | removed p s r v hfind hs hon hdel =>
    have hover := s.onPacket_handsOver c.packet c.nowNs c.garbage
    rw [hon] at hover
    exact hover

end Engine

section Handle

/-- The condition `C` on the handling of the frame in this state, if it meets a session. -/
def FrameMeets (cfg : Config) (C : CallCondition) (st : State) (f : TcpFrame) : Prop :=
  ∀ engine res p s₀ s c verdict, f.headersOk = true → st.engine.Meets f.call s₀ →
    Takes s₀ f p s res → st.engine.processPacket f.call = .ok (engine,res) →
    res.session = some p → engine.heap.mem p = some s →
    handleResult cfg f ⟨p,s,engine.kernel,st.txPool,[]⟩ res = .ok (c,verdict) →
    C.packet p f s res c verdict

def State.world (st : State) : World := worldOf st.engine st.txPool

theorem State.store_world (st : State) (c : Conn) : (st.store c).world = st.world.put c := rfl

theorem State.closeSession_frees {st st' : State} {key : TcpKey}
    (h : st.closeSession key = .ok st') : Frees st.world st'.world := by
  obtain ⟨engine,hclose,hret⟩ := (bind_ok_iff ..).mp h
  cases hret
  exact Pipeline.closeSession_frees hclose

section Served

variable (st : State) {st' : State} {f : TcpFrame} {res : TcpAssemblyResult} {p : Nat}
  {c : Conn} {verdict : Verdict}

/-- A session that was found and served is kept or closed. -/
theorem served_move {out : Output} {t : TcpAssemblerEngine} {s₀ s : TcpStreamSession}
    (hengine : st.engine = { t with heap := t.heap.set p s }) (hs : t.heap.mem p = some s₀)
    (hfind : t.sessions.find f.packet.key = .ok (some p)) (htakes : Takes s₀ f p s res)
    (hrun : handleResult cfg f ((worldOf t st.txPool).conn p s) res = .ok (c,verdict))
    (hc : C.packet p f s res c verdict) (h : finish f res st c verdict = .ok (st',out)) :
    Move cfg C (worldOf t st.txPool) out.actions st'.world := by
  have haddr : c.addr = p := handleResult_addr hrun
  have hput : (st.store c).world = (worldOf t st.txPool).put c := by
    rw [State.store_world,State.world,hengine,World.put,World.put,haddr]
    simp only [worldOf,Heap.set_set]
  have hclosed : verdict.closes res = true → ∀ u, (st.store c).closeSession f.packet.key = .ok u →
      Move cfg C (worldOf t st.txPool) (verdict.finalLog c) u.world := by
    intro hclose u hu
    obtain ⟨engine,hgone,hret⟩ := (bind_ok_iff ..).mp hu
    cases hret
    have hmem : (st.store c).world.heap.mem p = some c.session := by
      rw [hput]
      change (t.heap.set c.addr c.session).mem p = some c.session
      rw [haddr]
      exact Heap.set_mem_self _ _ hs
    have hstored : (st.store c).engine.sessions.find f.packet.key = .ok (some p) := by
      change st.engine.sessions.find f.packet.key = _
      rw [hengine]
      exact hfind
    have hworld : worldOf engine c.txPool = (st.store c).world.free p c.session :=
      closeSession_found c.txPool (e := (st.store c).engine) hstored hmem hgone
    change Move cfg C (worldOf t st.txPool) (verdict.finalLog c) (worldOf engine c.txPool)
    rw [hworld,hput]
    exact Move.closed _ p s₀ s f res c verdict hs htakes hrun hclose hc
  have hkept : verdict.closes res = false →
      Move cfg C (worldOf t st.txPool) c.tagged (st.store c).world := by
    intro hopen
    rw [hput]
    exact Move.kept _ p s₀ s f res c verdict hs htakes hrun hopen hc
  cases verdict with
  | reply =>
    cases h
    exact hkept rfl
  | silent =>
    cases h
    exact hkept rfl
  | reset =>
    obtain ⟨u,hu,hret⟩ := (bind_ok_iff ..).mp h
    cases hret
    exact hclosed rfl _ hu
  | proceed =>
    rw [finish] at h
    split_ifs at h with hend
    · obtain ⟨u,hu,hret⟩ := (bind_ok_iff ..).mp h
      cases hret
      exact hclosed (by simp [Verdict.closes,hend]) _ hu
    · cases h
      exact hkept (by simp [Verdict.closes,hend])

/-- A SYN that opens a session is answered in the same call. -/
theorem born_move {f : TcpFrame} {out : Output} {t : TcpAssemblerEngine} {s : TcpStreamSession}
    (hheap : st.engine.heap = (t.heap.alloc (.opened f.packet f.call.nowNs)).2)
    (hkernel : st.engine.kernel = t.kernel) (hs : st.engine.heap.mem t.heap.next = some s)
    (hrun : handleResult cfg f (st.world.conn t.heap.next s)
      ((worldOf t st.txPool).openedResult f) = .ok (c,verdict))
    (h : finish f ((worldOf t st.txPool).openedResult f) st c verdict = .ok (st',out)) :
    Move cfg C (worldOf t st.txPool) out.actions st'.world := by
  have hworld : st.world = (worldOf t st.txPool).opened f := by
    simp only [State.world,worldOf,World.opened,hheap,hkernel]
  have hnew : s = .opened f.packet f.call.nowNs := by
    rw [hheap] at hs
    exact Option.some.inj (hs.symm.trans (Heap.alloc_mem_self t.heap _))
  subst hnew
  have hreply := handleResult_syn rfl hrun
  subst hreply
  cases h
  rw [hworld] at hrun
  change Move cfg C (worldOf t st.txPool) c.tagged (st.world.put c)
  rw [hworld]
  exact Move.born _ f c hrun

end Served

/-- Sessions are freed, and then the packet makes one move at most. -/
theorem handleTcpPacket_move {st st' : State} {f : TcpFrame} {out : Output}
    (hc : FrameMeets cfg C st f) (h : handleTcpPacket cfg st f = .ok (st',out)) :
    ∃ w, Frees st.world w ∧
      (out.actions = [] ∧ st'.world = w ∨ Move cfg C w out.actions st'.world) := by
  unfold handleTcpPacket at h
  split_ifs at h with hheaders
  · cases h
    exact ⟨_,Frees.refl _,Or.inl ⟨rfl,rfl⟩⟩
  · obtain ⟨⟨engine,res⟩,hpacket,hrest⟩ := (bind_ok_iff ..).mp h
    obtain ⟨t,hclean,hcase⟩ := TcpAssemblerEngine.processPacket_cases hpacket
    have hbefore : Frees st.world (worldOf t st.txPool) := cleanup_frees hclean
    dsimp only at hrest
    cases hcase with
    | ignored =>
      cases hrest
      exact ⟨_,hbefore,Or.inl ⟨rfl,rfl⟩⟩
    | opened m b =>
      have hnew : (t.heap.alloc (.opened f.call.packet f.call.nowNs)).2.mem t.heap.next =
          some (.opened f.packet f.call.nowNs) := Heap.alloc_mem_self t.heap _
      simp only [TcpAssemblerEngine.portsOf,Heap.alloc_fst,hnew] at hrest
      obtain ⟨⟨c,verdict⟩,hrun,hfinish⟩ := (bind_ok_iff ..).mp hrest
      exact ⟨_,hbefore,Or.inr (born_move { st with engine := { t with
        sessions := m, heap := (t.heap.alloc (.opened f.call.packet f.call.nowNs)).2 } }
        rfl rfl hnew hrun hfinish)⟩
    | kept p s₀ s r hfind hs hon =>
      have hnew : (t.heap.set p s).mem p = some s := Heap.set_mem_self t.heap s hs
      have htakes : Takes s₀ f p s (TcpAssemblerEngine.portsOf f.packet r (some p)) :=
        ⟨r,hon,rfl⟩
      simp only [TcpAssemblerEngine.portsOf,hnew] at hrest
      obtain ⟨⟨c,verdict⟩,hrun,hfinish⟩ := (bind_ok_iff ..).mp hrest
      have hmeets := hc _ _ p s₀ s c verdict (by simpa using hheaders) ⟨t,p,hclean,hfind,hs⟩
        htakes hpacket rfl hnew hrun
      exact ⟨_,hbefore,Or.inr (served_move
        { st with engine := { t with heap := t.heap.set p s } }
        rfl hs hfind htakes hrun hmeets hfinish)⟩
    | removed p s r v hfind hs hon hdel =>
      have hgone : Frees st.world (worldOf engine st.txPool) :=
        hbefore.trans (deleteSession_frees hs hdel)
      generalize hres : TcpAssemblerEngine.portsOf f.call.packet r none = res at hrest
      have hnone : res.session = none := by
        rw [← hres]
        rfl
      rw [hnone] at hrest
      dsimp only at hrest
      split_ifs at hrest
      · obtain ⟨u,hu,hret⟩ := (bind_ok_iff ..).mp hrest
        cases hret
        exact ⟨_,hgone.trans (State.closeSession_frees hu),Or.inl ⟨rfl,rfl⟩⟩
      · cases hrest
        exact ⟨_,hgone,Or.inl ⟨rfl,rfl⟩⟩

theorem handleTcpPacket_moves {st st' : State} {f : TcpFrame} {out : Output}
    (hc : FrameMeets cfg C st f) (h : handleTcpPacket cfg st f = .ok (st',out)) :
    Moves cfg C st.world out.actions st'.world := by
  obtain ⟨w,hfrees,hmove⟩ := handleTcpPacket_move hc h
  rcases hmove with ⟨hnil,hsame⟩ | hmove
  · rw [hnil,hsame]
    exact hfrees.moves
  · exact hfrees.moves.step hmove

/-- A session that is not closed is stored as its handling leaves it. -/
theorem handleTcpPacket_stores {st : State} {f : TcpFrame} {engine : TcpAssemblerEngine}
    {res : TcpAssemblyResult} {p : Nat} {s : TcpStreamSession} {c : Conn} {verdict : Verdict}
    (hheaders : f.headersOk = true) (hpacket : st.engine.processPacket f.call = .ok (engine,res))
    (hp : res.session = some p) (hs : engine.heap.mem p = some s)
    (hrun : handleResult cfg f ⟨p,s,engine.kernel,st.txPool,[]⟩ res = .ok (c,verdict))
    (hopen : verdict.closes res = false) :
    ∃ st' out, handleTcpPacket cfg st f = .ok (st',out) ∧
      st'.engine.heap.mem p = some c.session := by
  have haddr : c.addr = p := handleResult_addr hrun
  have hmem : (engine.heap.set c.addr c.session).mem p = some c.session := by
    rw [haddr]
    exact Heap.set_mem_self engine.heap c.session hs
  simp only [handleTcpPacket,hheaders,hpacket,hp,hs,hrun,bind,Except.bind,Bool.not_true,
    Bool.false_eq_true,if_false]
  cases verdict with
  | reply => exact ⟨_,_,rfl,hmem⟩
  | silent => exact ⟨_,_,rfl,hmem⟩
  | reset => cases hopen
  | proceed =>
    have hclosed : res.isClosed = false := by simpa [Verdict.closes] using hopen
    simp only [finish,hclosed,Bool.false_eq_true,if_false]
    exact ⟨_,_,rfl,hmem⟩

/-- The condition `C` on the handling of a backend event in this state. -/
def DrainMeets (C : CallCondition) (st : State) (pe : Nat × BackendEvent) : Prop :=
  ∀ s, st.engine.heap.mem pe.1 = some s → C.event (st.world.conn pe.1 s) pe.2

theorem drainOne_moves {st st' : State} {pe : Nat × BackendEvent} {log : List (Nat × Action)}
    (hlocated : st.engine.Located) (hc : DrainMeets C st pe) (h : drainOne st pe = .ok (st',log)) :
    Moves cfg C st.world log st'.world := by
  unfold drainOne at h
  split at h
  · cases h
  · rename_i s hs
    split at h
    · cases h
      exact Moves.refl _
    · rename_i fd hfd
      have haddr := (onBackendEvent_acts (R := fun _ _ => True) (c := st.world.conn pe.1 s) pe.2
        hfd).addr
      dsimp only at h
      cases hrun : Conn.onBackendEvent ⟨pe.1,s,st.engine.kernel,st.txPool,[]⟩ fd pe.2 with
      | mk c closed =>
        have hconn : (st.world.conn pe.1 s).onBackendEvent fd pe.2 = (c,closed) := hrun
        rw [hconn] at haddr
        rw [hrun] at h
        cases closed with
        | false =>
          cases h
          exact Moves.one (Move.event st.world pe.1 s fd pe.2 c hs hfd hconn (hc s hs))
        | true =>
          obtain ⟨u,hu,hret⟩ := (bind_ok_iff ..).mp h
          cases hret
          obtain ⟨engine,hclose,hret⟩ := (bind_ok_iff ..).mp hu
          cases hret
          have hmem : (st.store c).engine.heap.mem pe.1 = some c.session := by
            change (st.engine.heap.set c.addr c.session).mem pe.1 = some c.session
            rw [haddr]
            exact Heap.set_mem_self _ _ hs
          have hfind := hlocated.backed pe.1 s hs (by rw [hfd]; exact Option.some_ne_none fd)
          have hworld : worldOf engine c.txPool = (st.world.put c).free pe.1 c.session :=
            closeSession_found c.txPool (e := (st.store c).engine) hfind hmem hclose
          change Moves cfg C st.world c.tagged (worldOf engine c.txPool)
          rw [hworld]
          exact Moves.one (Move.hungUp st.world pe.1 s fd pe.2 c hs hfd hconn (hc s hs))

theorem drain_moves {st st' : State} {events : List (Nat × BackendEvent)}
    {logs : List (List (Nat × Action))} (hlocated : st.engine.Located)
    (hc : Along (DrainMeets C) drainOne st events)
    (h : runOut drainOne st events = .ok (st',logs)) :
    Moves cfg C st.world logs.flatten st'.world := by
  induction events generalizing st logs with
  | nil =>
    cases h
    exact Moves.refl _
  | cons pe events ih =>
    obtain ⟨t,log,logs',hone,hrest,rfl⟩ := (runOut_cons ..).mp h
    exact (drainOne_moves hlocated hc.1 hone).trans
      (ih (drainOne_located hlocated hone) (hc.2 t log hone) hrest)

/-- The condition `C` on what the worker loop does next. -/
structure EventMeets (cfg : Config) (C : CallCondition) (st : State) (ev : Event) : Prop where
  frame : ∀ f, ev = .packet f → FrameMeets cfg C st f
  drain : ∀ events, ev = .backend events →
    Along (DrainMeets C) drainOne st (readyEvents st events)

/-- A condition on packets only. -/
theorem EventMeets.packets {P : PacketCondition} {st : State} {ev : Event}
    (h : ∀ f, ev = .packet f → FrameMeets cfg { packet := P } st f) :
    EventMeets cfg { packet := P } st ev :=
  ⟨h,fun _ _ => Along.of_always (fun _ _ _ _ => trivial) _ _⟩

/-- A call of the worker loop is a sequence of moves. -/
theorem step_moves {st st' : State} {ev : Event} {out : Output}
    (hlocated : st.engine.Located) (hc : EventMeets cfg C st ev)
    (h : step cfg st ev = .ok (st',out)) : Moves cfg C st.world out.actions st'.world := by
  cases ev with
  | packet f => exact handleTcpPacket_moves (hc.frame f rfl) h
  | backend events =>
    change drainBackendEvents cfg st events = .ok (st',out) at h
    unfold drainBackendEvents at h
    split_ifs at h
    · obtain ⟨⟨u,logs⟩,hrun,hret⟩ := (bind_ok_iff ..).mp h
      cases hret
      exact drain_moves hlocated (hc.drain events rfl) hrun
    · cases h
      exact Moves.refl _
  | completion addrs =>
    cases h
    exact Moves.one (Move.completion st.world _)

/-- The log of a run. -/
def actionsOf (outs : List Output) : List (Nat × Action) := outs.flatMap Output.actions

/-- A run of the pipeline is a sequence of moves. -/
theorem run_located {st st' : State} {events : List Event} {outs : List Output}
    (hlocated : st.engine.Located) (h : runOut (step cfg) st events = .ok (st',outs)) :
    st'.engine.Located :=
  runOut_invariant (C := fun _ _ => True) (I := fun st _ => st.engine.Located)
    (fun _ _ _ _ _ hi _ hstep => step_located hi hstep) events st st' [] outs hlocated
    (Along.of_always (fun _ _ => trivial) events st) h

theorem run_moves {st st' : State} {events : List Event} {outs : List Output}
    (hlocated : st.engine.Located)
    (hc : Along (EventMeets cfg C) (step cfg) st events)
    (h : runOut (step cfg) st events = .ok (st',outs)) :
    Moves cfg C st.world (actionsOf outs) st'.world := by
  induction events generalizing st outs with
  | nil =>
    cases h
    exact Moves.refl _
  | cons ev events ih =>
    obtain ⟨t,out,outs',hone,hrest,rfl⟩ := (runOut_cons ..).mp h
    exact (step_moves hlocated hc.1 hone).trans
      (ih (step_located hlocated hone) (hc.2 t out hone) hrest)

end Handle

end Pipeline

end Aethon
