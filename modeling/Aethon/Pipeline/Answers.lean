import Aethon.Framework.Relay
import Aethon.Pipeline.Numbering
import Aethon.Pipeline.PlainPath

/-!
# From the backend to the client

What the backend of a session without TLS sends is read in blocks and goes to the client in
segments. A block that does not find enough frames or room in the transmit ring is cut off, and
the rest of it is never sent, while later blocks are.
-/

namespace Aethon.Pipeline

open Framework

def Action.readBytes : Action → List UInt8
  | .backendRead bytes => bytes
  | _ => []

/-- At every point, what was sent to the client is an initial part of what was read. -/
def RelaysInOrder (acts : List Action) : Prop := Trails Action.sentBytes Action.readBytes acts

def RelaysAll (acts : List Action) : Prop := CaughtUp Action.sentBytes Action.readBytes acts

def Action.isFeed : Action → Bool
  | .feed _ => true
  | _ => false

/-- Nothing has come to the TLS engine. -/
def Plain (acts : List Action) : Prop := ∀ a ∈ acts, a.isFeed = false

instance (acts : List Action) : Decidable (Plain acts) :=
  inferInstanceAs (Decidable (∀ a ∈ acts, a.isFeed = false))

theorem Plain.left {acts acts' : List Action} (h : Plain (acts ++ acts')) : Plain acts :=
  fun a ha => h a (List.mem_append_left _ ha)

theorem Plain.not_fed {acts acts' : List Action} {bytes : List UInt8} (h : Plain (acts ++ acts')) :
    .feed bytes ∉ acts' := by
  intro hmem
  cases h _ (List.mem_append_right _ hmem)

/-- Nothing is read from the backend or sent to the client, and the TLS status stays. -/
structure Quiet (c c' : Conn) : Prop where
  log : ∃ acts, c'.log = c.log ++ acts ∧ ∀ a ∈ acts, a.sentBytes = [] ∧ a.readBytes = []
  status : c'.session.tlsStatus = c.session.tlsStatus

namespace Quiet

theorem same {c c' : Conn} (hlog : c'.log = c.log)
    (hstatus : c'.session.tlsStatus = c.session.tlsStatus) : Quiet c c' :=
  ⟨⟨[],by rw [hlog,List.append_nil],by simp⟩,hstatus⟩

theorem refl (c : Conn) : Quiet c c := same rfl rfl

theorem trans {a b c : Conn} (h : Quiet a b) (h' : Quiet b c) : Quiet a c := by
  obtain ⟨acts,hlog,hacts⟩ := h.log
  obtain ⟨acts',hlog',hacts'⟩ := h'.log
  refine ⟨⟨acts ++ acts',by rw [hlog',hlog,List.append_assoc],?_⟩,h'.status.trans h.status⟩
  intro x hx
  rcases List.mem_append.mp hx with hx | hx
  · exact hacts x hx
  · exact hacts' x hx

theorem emit (c : Conn) {a : Action} (hsent : a.sentBytes = []) (hread : a.readBytes = []) :
    Quiet c (c.emit a) :=
  ⟨⟨[a],rfl,by simp [hsent,hread]⟩,rfl⟩

theorem emitAck (c : Conn) : Quiet c c.emitAck := emit c rfl rfl

theorem noteDelivery (c : Conn) (res : TcpAssemblyResult) : Quiet c (c.noteDelivery res) := by
  unfold Conn.noteDelivery
  split_ifs
  · exact emit c rfl rfl
  · exact refl c

theorem backendOnly {c c' : Conn} (h : BackendOnly c c') : Quiet c c' := by
  obtain ⟨_,_,_,_,acts,rfl,hacts⟩ := h
  refine ⟨⟨acts,rfl,?_⟩,rfl⟩
  intro a ha
  obtain ⟨_,_,rfl⟩ := Action.eq_write (hacts a ha)
  exact ⟨rfl,rfl⟩

/-- A window update carries no bytes. -/
theorem announceWindow (c : Conn) (ev : BackendEvent) (oldWin newWin : Nat) :
    Quiet c (c.announceWindow ev oldWin newWin) := by
  unfold Conn.announceWindow
  split
  · exact refl c
  · split_ifs
    · exact ⟨⟨_,rfl,by simp [Action.sentBytes,Action.readBytes]⟩,rfl⟩
    · exact refl c

theorem rule : WriteRule Quiet where
  refl := refl
  trans _ _ _ := trans
  epoll _ _ _ := same rfl rfl
  flush c io := backendOnly (BackendOnly.flushBackendTx c io)
  update c ev oldWin := announceWindow c ev oldWin _

theorem hangUp (c : Conn) (fd : Nat) (ev : BackendEvent) : Quiet c (c.hangUp fd ev) := by
  unfold Conn.hangUp
  dsimp only
  split
  · exact same rfl rfl
  · split_ifs
    · exact ⟨⟨_,rfl,by simp [Action.sentBytes,Action.readBytes]⟩,rfl⟩
    · exact same rfl rfl

variable {cfg : Config} {f : TcpFrame} {c c' : Conn} {verdict : Verdict}

theorem inspectCase {bytes : List UInt8} (h : InspectCase cfg f c bytes c' verdict) :
    Quiet c c' := by
  have hscan : Quiet c (c.scanBytes f bytes) :=
    ⟨⟨_,rfl,by simp [Action.sentBytes,Action.readBytes]⟩,rfl⟩
  have hforward : ∀ port b d, (((c.scanBytes f bytes).emit (.target port)).emit
      (.forward port bytes)).forwardToBackend f.backend bytes port = (b,d) → Quiet c d := by
    intro port b d hd
    have honly := BackendOnly.forwardToBackend
      (((c.scanBytes f bytes).emit (.target port)).emit (.forward port bytes)) f.backend bytes port
    rw [hd] at honly
    exact ((hscan.trans (emit _ rfl rfl)).trans (emit _ rfl rfl)).trans (backendOnly honly)
  cases h with
  | attack => exact hscan.trans (same rfl rfl)
  | unrouted => exact (hscan.trans (emit _ rfl rfl)).trans (same rfl rfl)
  | refused port d _ hd => exact (hforward port _ d hd).trans (same rfl rfl)
  | forwarded port d _ hd =>
    have hcleared : Quiet c d.clearHello := (hforward port _ d hd).trans (same rfl rfl)
    exact (hcleared.trans (rule.armEpoll d.clearHello cfg.epfd _)).trans (emitAck _)

end Quiet

section Handling

variable {cfg : Config} {f : TcpFrame} {c c' : Conn} {verdict : Verdict}

/-- Delivered bytes that do not come to the TLS engine are handled quietly. -/
theorem readyCase_quiet {payload : List UInt8} (hidle : c.session.tlsStatus = .idle)
    (h : ReadyCase cfg f c payload c' verdict) :
    Quiet c c' ∨ ∃ acts hello, c'.log = c.log ++ acts ∧ .feed hello ∈ acts := by
  cases h with
  | oversize => exact Or.inl (Quiet.same rfl rfl)
  | held s hhold =>
    rw [holdHello_wait hhold]
    exact Or.inl ⟨⟨_,rfl,by simp [Action.sentBytes,Action.readBytes]⟩,rfl⟩
  | blocked s hello sni hhold =>
    have hs := holdHello_session (Or.inr ⟨hello,hhold⟩)
    rw [hs]
    exact Or.inl ⟨⟨_,rfl,by simp [Action.sentBytes,Action.readBytes]⟩,rfl⟩
  | fed _ _ hello acts hlog hmem => exact Or.inr ⟨acts,hello,hlog,hmem⟩
  | inspected d hello _ _ hplain hcase =>
    obtain ⟨s,port,_,_,acts,_,hd,hacts⟩ := plainHello_frame hplain
    have hprep : Quiet c d := by
      rw [hd]
      refine ⟨⟨acts,rfl,?_⟩,hidle.symm⟩
      intro a ha
      rw [hacts a ha]
      exact ⟨rfl,rfl⟩
    exact Or.inl (hprep.trans (Quiet.inspectCase hcase))

theorem handleResult_quiet {res : TcpAssemblyResult} (hidle : c.session.tlsStatus = .idle)
    (h : handleResult cfg f c res = .ok (c',verdict)) :
    Quiet c c' ∨ ∃ acts hello, c'.log = c.log ++ acts ∧ .feed hello ∈ acts := by
  have hnote := Quiet.noteDelivery c res
  unfold handleResult at h
  dsimp only at h
  split_ifs at h
  · cases h
    exact Or.inl (hnote.trans ⟨⟨_,rfl,by simp [Action.sentBytes,Action.readBytes]⟩,rfl⟩)
  · cases h
    exact Or.inl (hnote.trans (Quiet.emitAck _))
  · rcases readyCase_quiet (hnote.status.trans hidle) (handleReady_cases h) with hquiet | hfed
    · exact Or.inl (hnote.trans hquiet)
    · obtain ⟨before,hbefore,_⟩ := hnote.log
      obtain ⟨acts,hello,hlog,hmem⟩ := hfed
      exact Or.inr ⟨before ++ acts,hello,by rw [hlog,hbefore,List.append_assoc],
        List.mem_append_right _ hmem⟩
  · cases h
    exact Or.inl hnote

end Handling

/-- The number of segments that carry `n` bytes. -/
def segmentCount (n : Nat) : Nat := (n + (mss - 1)) / mss

section Segments

variable (sent : Nat → Bool) (window : Nat) (ackNo : BitVec 32)

/-- With a frame and room in the ring for every segment, all of the data is sent. -/
theorem sendSegments_all (txPool : List Nat) (i : Nat) (n : BitVec 32) (data : List UInt8)
    (hpool : segmentCount data.length ≤ txPool.length)
    (hsent : ∀ j < segmentCount data.length, sent (i + j) = true) :
    (Conn.sendSegments sent window ackNo txPool i n data).2.2.2.flatMap Action.sentBytes =
      data := by
  fun_induction Conn.sendSegments sent window ackNo txPool i n data with
  | case1 => rfl
  | case2 i n b data =>
    simp only [segmentCount,mss,List.length_cons,List.length_nil] at hpool
    omega
  | case3 frame txPool i n b data hone chunk allSent pool nxt log hrest ih =>
    have hcount : segmentCount (b :: data).length =
        segmentCount ((b :: data).drop mss).length + 1 := by
      simp only [segmentCount,mss,List.length_drop,List.length_cons]
      omega
    rw [hrest] at ih
    rw [List.flatMap_cons,Action.sentBytes,ih]
    · exact List.take_append_drop mss (b :: data)
    · rw [hcount,List.length_cons] at hpool
      omega
    · intro j hj
      rw [Nat.add_right_comm]
      exact hsent (j + 1) (by omega)
  | case4 frame txPool i n b data hone =>
    have hfirst := hsent 0 (by simp only [segmentCount,mss,List.length_cons]; omega)
    exact absurd hfirst hone

theorem sendSegments_read (txPool : List Nat) (i : Nat) (n : BitVec 32) (data : List UInt8) :
    (Conn.sendSegments sent window ackNo txPool i n data).2.2.2.flatMap Action.readBytes = [] := by
  rw [List.flatMap_eq_nil_iff]
  intro a ha
  obtain ⟨_,_,rfl⟩ := Conn.sendSegments_log a ha
  rfl

end Segments

/-- There is a frame and room in the transmit ring for every segment of the block that the event
reads, after a frame for a window update. -/
def SendsBlock (txPool : List Nat) (ev : BackendEvent) : Prop :=
  ∀ block, ev.epollIn = true → ev.io.recv = some block →
    segmentCount block.length + (if ev.epollOut then 1 else 0) ≤ txPool.length ∧
      ∀ i < segmentCount block.length, ev.txSent i = true

/-- What was read was sent, block by block. -/
structure Relays (c c' : Conn) : Prop where
  log : ∃ acts, c'.log = c.log ++ acts ∧ RelaysInOrder acts ∧ RelaysAll acts
  status : c'.session.tlsStatus = c.session.tlsStatus

namespace Relays

theorem quiet {c c' : Conn} (h : Quiet c c') : Relays c c' := by
  obtain ⟨acts,hlog,hacts⟩ := h.log
  exact ⟨⟨acts,hlog,Trails.quiet hacts,CaughtUp.quiet hacts⟩,h.status⟩

theorem trans {a b c : Conn} (h : Relays a b) (h' : Relays b c) : Relays a c := by
  obtain ⟨acts,hlog,horder,hall⟩ := h.log
  obtain ⟨acts',hlog',horder',hall'⟩ := h'.log
  exact ⟨⟨acts ++ acts',by rw [hlog',hlog,List.append_assoc],horder.append hall horder',
    hall.append hall'⟩,h'.status.trans h.status⟩

/-- A block that is sent in full. -/
theorem onReadable {c : Conn} {ev : BackendEvent} (hidle : c.session.tlsStatus = .idle)
    (h : ∀ block, ev.io.recv = some block → segmentCount block.length ≤ c.txPool.length ∧
      ∀ i < segmentCount block.length, ev.txSent i = true) :
    Relays c (c.onReadable ev).1 := by
  unfold Conn.onReadable
  split
  · exact quiet (Quiet.refl c)
  · exact quiet (Quiet.refl c)
  · rename_i b bytes hrecv
    obtain ⟨hpool,hsent⟩ := h (b :: bytes) hrecv
    have hplain : (c.emit (.backendRead (b :: bytes))).session.tlsStatus ≠ .established := by
      change c.session.tlsStatus ≠ .established
      rw [hidle]
      decide
    dsimp only
    rw [if_neg hplain]
    simp only [Conn.sendTcpSegmentedData,reduceCtorEq,if_false]
    have hbytes := sendSegments_all ev.txSent (recvWindow c.session) c.session.rcvNxt c.txPool 0
      c.session.sendNxt (b :: bytes) hpool (by simpa using hsent)
    have hread := sendSegments_read ev.txSent (recvWindow c.session) c.session.rcvNxt c.txPool 0
      c.session.sendNxt (b :: bytes)
    refine ⟨⟨.backendRead (b :: bytes) :: (Conn.sendSegments ev.txSent (recvWindow c.session)
      c.session.rcvNxt c.txPool 0 c.session.sendNxt (b :: bytes)).2.2.2,
      List.append_assoc _ _ _,?_,?_⟩,rfl⟩
    · apply Trails.block rfl
      rw [hbytes]
      exact List.prefix_refl _
    · rw [RelaysAll,CaughtUp,List.flatMap_cons,List.flatMap_cons,hread,List.append_nil]
      exact hbytes

theorem onWritable_txPool (c : Conn) (fd : Nat) (ev : BackendEvent) :
    c.txPool.length ≤ (c.onWritable fd ev).txPool.length + 1 := by
  have hflush : (c.flushBackendTx ev.io).txPool = c.txPool := by
    obtain ⟨_,_,_,_,_,hd,_⟩ := BackendOnly.flushBackendTx c ev.io
    rw [hd]
  have hdisarm : ((c.flushBackendTx ev.io).disarmEpoll fd).txPool = c.txPool := by
    rw [← hflush]
    unfold Conn.disarmEpoll
    split_ifs <;> rfl
  rw [← hdisarm]
  unfold Conn.onWritable Conn.announceWindow
  dsimp only
  split
  · exact Nat.le_succ _
  · rename_i frame pool hpool
    rw [hpool]
    split_ifs
    · exact le_rfl
    · rw [hpool]
      exact Nat.le_succ _

/-- An event up to a hang-up. -/
theorem beforeHangUp {c : Conn} (fd : Nat) {ev : BackendEvent}
    (hidle : c.session.tlsStatus = .idle) (h : SendsBlock c.txPool ev) :
    Relays c (c.beforeHangUp fd ev).1 := by
  have hout : Relays c (if ev.epollOut then c.onWritable fd ev else c) ∧
      c.txPool.length ≤ (if ev.epollOut then c.onWritable fd ev else c).txPool.length +
        (if ev.epollOut then 1 else 0) := by
    split_ifs
    · exact ⟨quiet (Quiet.rule.onWritable c fd ev),onWritable_txPool c fd ev⟩
    · exact ⟨quiet (Quiet.refl c),le_rfl⟩
  unfold Conn.beforeHangUp
  generalize (if ev.epollOut then c.onWritable fd ev else c) = b at hout ⊢
  obtain ⟨hrelays,hpool⟩ := hout
  dsimp only
  split_ifs with hin
  · apply hrelays.trans (onReadable (hrelays.status.trans hidle) _)
    intro block hrecv
    obtain ⟨hframes,hsent⟩ := h block hin hrecv
    exact ⟨by omega,hsent⟩
  · exact hrelays

end Relays

/-- A session without TLS has sent all that it has read, in order. -/
def RelaysSoFar (s : TcpStreamSession) (acts : List Action) : Prop :=
  Plain acts → s.tlsStatus = .idle ∧ RelaysInOrder acts ∧ RelaysAll acts

namespace RelaysSoFar

variable {s : TcpStreamSession} {acts : List Action} {c c' : Conn}

theorem relays (h : RelaysSoFar s acts) (hplain : Plain (acts ++ c'.log)) (hs : c.session = s)
    (hlog : c.log = []) (hrelays : s.tlsStatus = .idle → Relays c c') :
    c'.session.tlsStatus = .idle ∧ RelaysInOrder (acts ++ c'.log) ∧
      RelaysAll (acts ++ c'.log) := by
  obtain ⟨hidle,horder,hall⟩ := h hplain.left
  obtain ⟨⟨new,hnew,horder',hall'⟩,hstatus⟩ := hrelays hidle
  rw [hlog,List.nil_append] at hnew
  rw [hnew]
  refine ⟨?_,horder.append hall horder',hall.append hall'⟩
  rw [hstatus,hs]
  exact hidle

theorem handled {cfg : Config} {f : TcpFrame} {res : TcpAssemblyResult} {verdict : Verdict}
    (h : RelaysSoFar s acts) (hs : c.session = s) (hlog : c.log = [])
    (hrun : handleResult cfg f c res = .ok (c',verdict)) :
    RelaysSoFar c'.session (acts ++ c'.log) := by
  intro hplain
  apply h.relays hplain hs hlog
  intro hidle
  rw [← hs] at hidle
  rcases handleResult_quiet hidle hrun with hquiet | ⟨new,hello,hnew,hmem⟩
  · exact Relays.quiet hquiet
  · rw [hlog,List.nil_append] at hnew
    rw [hnew] at hplain
    exact absurd hmem hplain.not_fed

end RelaysSoFar

/-- The blocks that the session at `p` reads are sent in full. -/
def sendsBlocks (p : Nat) : CallCondition where
  event := fun c ev => c.addr = p → SendsBlock c.txPool ev

theorem relays_lifetime (cfg : Config) (p : Nat) :
    Lifetime cfg (sendsBlocks p) p RelaysSoFar (fun acts => Plain acts → RelaysInOrder acts) := by
  constructor
  case born =>
    intro w f c _ hrun
    cases hrun
    refine fun _ => ⟨rfl,?_,rfl⟩
    apply Trails.quiet
    simp [World.conn,World.openedResult,Conn.noteDelivery,Conn.setMacs,Conn.emit,
      TcpAssemblerEngine.portsOf,Action.sentBytes,Action.readBytes]
  case kept =>
    intro w s₀ s f res c verdict acts h htakes hrun _ _
    have htaken : RelaysSoFar s acts := fun hplain => by
      obtain ⟨hidle,hrelays⟩ := h hplain
      exact ⟨htakes.outer.tlsStatus.trans hidle,hrelays⟩
    exact htaken.handled (c := w.conn p s) rfl rfl hrun
  case closed =>
    intro w s₀ s f res c verdict acts h htakes hrun _ _ hplain
    have htaken : RelaysSoFar s acts := fun hplain => by
      obtain ⟨hidle,hrelays⟩ := h hplain
      exact ⟨htakes.outer.tlsStatus.trans hidle,hrelays⟩
    have hserved := htaken.handled (c := w.conn p s) rfl rfl hrun
    unfold Verdict.finalActions at hplain ⊢
    split_ifs at hplain ⊢
    · rw [← List.append_assoc] at hplain ⊢
      obtain ⟨_,horder,hall⟩ := hserved hplain.left
      exact horder.append hall (Trails.quiet (by simp [Action.sentBytes,Action.readBytes]))
    · exact (hserved hplain).2.1
  case event =>
    intro w s fd ev c acts h hrun hc hplain
    apply h.relays (c := w.conn p s) hplain rfl rfl
    intro hidle
    have hbefore := Relays.beforeHangUp (c := w.conn p s) fd hidle (hc rfl)
    rw [onBackendEvent_eq] at hrun
    split_ifs at hrun
    · cases hrun
    · cases hrun
      exact hbefore
  case hungUp =>
    intro w s fd ev c acts h hrun hc hplain
    have hrelays : s.tlsStatus = .idle → Relays (w.conn p s) c := by
      intro hidle
      have hbefore := Relays.beforeHangUp (c := w.conn p s) fd hidle (hc rfl)
      rw [onBackendEvent_eq] at hrun
      split_ifs at hrun
      · cases hrun
        exact hbefore.trans (Relays.quiet (Quiet.hangUp _ fd ev))
      · cases hrun
    exact (h.relays (c := w.conn p s) hplain rfl rfl hrelays).2.1
  case freed =>
    intro s acts h hplain
    exact (h hplain).2.1

/-- Every block that is read for the session at `p` is sent in full. -/
def SendsBlocks (p : Nat) (st : State) (ev : Event) : Prop :=
  ∀ events, ev = .backend events →
    Along (fun st pe => pe.1 = p → SendsBlock st.txPool pe.2) drainOne st (readyEvents st events)

theorem SendsBlocks.eventMeets (cfg : Config) {p : Nat} {st : State} {ev : Event}
    (h : SendsBlocks p st ev) : EventMeets cfg (sendsBlocks p) st ev := by
  constructor
  · intro f _ engine res q s₀ s c verdict _ _ _ _ _ _ _
    trivial
  · intro events hev
    exact Along.mono (fun _ _ hblock _ _ hp => hblock hp) _ _ (h events hev)

/-- What was sent to the client of the session at `p`, in the order of its sequence numbers, is at
every point an initial part of what was read from its backend. -/
def AnswersInOrder (p : Nat) (outs : List Output) : Prop :=
  Consecutive (traceOf p (actionsOf outs)) ∧ RelaysInOrder (traceOf p (actionsOf outs))

/-- Sessions without TLS are answered in order in every run in which no SYN sets their numbers
back and every block that is read for them is sent in full. -/
theorem answers_in_order (cfg : Config) (txPool : List Nat) (events : List Event) (st : State)
    (outs : List Output) (p : Nat) (hplain : Plain (traceOf p (actionsOf outs)))
    (hsyn : Along SynsFresh (step cfg) (State.new txPool) events)
    (hblocks : Along (SendsBlocks p) (step cfg) (State.new txPool) events)
    (hrun : runOut (step cfg) (State.new txPool) events = .ok (st,outs)) :
    AnswersInOrder p outs := by
  have hsyns := Along.mono (fun _ _ => SynsFresh.eventMeets cfg) events _ hsyn
  have hmeets := Along.mono (fun _ _ => SendsBlocks.eventMeets cfg) events _ hblocks
  have hnumbers := (sendsOn_lifetime cfg p).run hsyns hrun
  have hrelays := (relays_lifetime cfg p).run hmeets hrun
  constructor
  · exact hnumbers.ended (sendsOn_lifetime cfg p).freed Consecutive.nil
  · exact hrelays.ended (relays_lifetime cfg p).freed (fun _ => Trails.nil) hplain

section Sample

/-- A computed form of `SendsBlock`. -/
def sendsBlockCheck (txPool : List Nat) (ev : BackendEvent) : Bool :=
  match ev.io.recv with
  | none => true
  | some block =>
      decide (segmentCount block.length + (if ev.epollOut then 1 else 0) ≤ txPool.length) &&
        (List.range (segmentCount block.length)).all ev.txSent

theorem sendsBlock_of_check {txPool : List Nat} {ev : BackendEvent}
    (h : sendsBlockCheck txPool ev = true) : SendsBlock txPool ev := by
  intro block _ hrecv
  simp only [sendsBlockCheck,hrecv,Bool.and_eq_true,decide_eq_true_eq,List.all_eq_true,
    List.mem_range] at h
  exact h

/-- A computed form of `SendsBlocks`. -/
def sendsBlocksCheck (p : Nat) (st : State) : Event → Bool
  | .backend events => alongCheck (fun st pe => pe.1 ≠ p || sendsBlockCheck st.txPool pe.2)
      drainOne st (readyEvents st events)
  | _ => true

theorem sendsBlocks_of_check {p : Nat} {st : State} {ev : Event}
    (h : sendsBlocksCheck p st ev = true) : SendsBlocks p st ev := by
  intro events hev
  subst hev
  refine Along.of_check ?_ _ _ h
  intro st pe hcheck hp
  apply sendsBlock_of_check
  simpa [hp] using hcheck

theorem answers_in_order_twoBlocks :
    ∃ st outs, runOut (step mixedConfig) (State.new [0,4096])
        (repeatedSyn ++ [answer [8,9],answer [10]]) = .ok (st,outs) ∧
      (traceOf 1 (actionsOf outs)).flatMap Action.sentBytes = [8,9,10] ∧
      AnswersInOrder 1 outs := by
  refine ⟨_,_,rfl,by decide +kernel,?_⟩
  apply answers_in_order mixedConfig [0,4096] (repeatedSyn ++ [answer [8,9],answer [10]])
  · unfold Plain
    decide +kernel
  · exact Along.of_check (fun _ _ h => synsFresh_of_check h) _ _ (by decide +kernel)
  · exact Along.of_check (fun _ _ h => sendsBlocks_of_check h) _ _ (by decide +kernel)
  · rfl

/-- The first block finds the transmit ring full, and the second one is sent in its place. -/
theorem skips_unsent_block :
    ∃ st outs, runOut (step mixedConfig) (State.new [0,4096]) (repeatedSyn ++
        [.backend [{ fd := 7, epollIn := true, io := { recv := some [8,9] }, txSent := fun _ => false }],
          answer [10]]) = .ok (st,outs) ∧
      Plain (traceOf 1 (actionsOf outs)) ∧
      (traceOf 1 (actionsOf outs)).flatMap Action.readBytes = [8,9,10] ∧
      (traceOf 1 (actionsOf outs)).flatMap Action.sentBytes = [10] ∧ ¬ AnswersInOrder 1 outs := by
  refine ⟨_,_,rfl,by unfold Plain; decide +kernel,by decide +kernel,by decide +kernel,?_⟩
  intro h
  have hend := h.2 _ (List.prefix_refl _)
  revert hend
  decide +kernel

end Sample

end Aethon.Pipeline
