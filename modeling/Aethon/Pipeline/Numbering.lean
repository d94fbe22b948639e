import Aethon.Pipeline.ConnRule
import Aethon.Pipeline.Lifetimes

/-!
# Sequence numbers towards the client

Every segment for the client carries the `send_nxt` of its session, and `send_nxt` moves on by
what the segment takes up. The answer to a SYN is the exception: it sets `send_nxt` back to the
number after the server's ISN, also when the session has sent data already.
-/

namespace Aethon.Pipeline

open Framework Tls

namespace Action

def sentBytes : Action → List UInt8
  | .data _ _ payload _ => payload
  | _ => []

def isFin : Action → Bool
  | .fin _ _ _ => true
  | _ => false

end Action

/-- Data segments that follow one another, from the number `n` up to the number `m`. -/
inductive Segments : BitVec 32 → List Action → BitVec 32 → Prop where
  | nil (n : BitVec 32) : Segments n [] n
  | data {n m : BitVec 32} {acts : List Action} (ackNo : BitVec 32) (payload : List UInt8)
      (window : Nat) (h : Segments (n + BitVec.ofNat 32 payload.length) acts m) :
      Segments n (.data n ackNo payload window :: acts) m
  | other {n m : BitVec 32} {acts : List Action} (a : Action) (ha : a.number = none)
      (h : Segments n acts m) : Segments n (a :: acts) m

namespace Segments

theorem append {n m k : BitVec 32} {acts acts' : List Action} (h : Segments n acts m)
    (h' : Segments m acts' k) : Segments n (acts ++ acts') k := by
  induction h with
  | nil => exact h'
  | data ackNo payload window _ ih => exact Segments.data ackNo payload window (ih h')
  | other a ha _ ih => exact Segments.other a ha (ih h')

theorem of_quiet (n : BitVec 32) {acts : List Action} (h : ∀ a ∈ acts, a.number = none) :
    Segments n acts n := by
  induction acts with
  | nil => exact Segments.nil n
  | cons a acts ih =>
    exact Segments.other a (h a (List.mem_cons_self ..))
      (ih fun b hb => h b (List.mem_cons_of_mem _ hb))

end Segments

/-- What happens on the connection is a row of segments from its `send_nxt` on. -/
def Numbers (c c' : Conn) : Prop :=
  ∃ acts, c'.log = c.log ++ acts ∧ Segments c.session.sendNxt acts c'.session.sendNxt

namespace Numbers

theorem of_quiet {c c' : Conn} {acts : List Action} (hlog : c'.log = c.log ++ acts)
    (hacts : ∀ a ∈ acts, a.number = none) (hnxt : c'.session.sendNxt = c.session.sendNxt) :
    Numbers c c' := by
  refine ⟨acts,hlog,?_⟩
  rw [hnxt]
  exact Segments.of_quiet _ hacts

theorem same {c c' : Conn} (hlog : c'.log = c.log)
    (hnxt : c'.session.sendNxt = c.session.sendNxt) : Numbers c c' :=
  ⟨[],by rw [hlog,List.append_nil],by rw [hnxt]; exact Segments.nil _⟩

theorem refl (c : Conn) : Numbers c c := same rfl rfl

theorem trans {a b c : Conn} (h : Numbers a b) (h' : Numbers b c) : Numbers a c := by
  obtain ⟨acts,hlog,hseg⟩ := h
  obtain ⟨acts',hlog',hseg'⟩ := h'
  refine ⟨acts ++ acts',?_,hseg.append hseg'⟩
  rw [hlog',hlog,List.append_assoc]

theorem emit (c : Conn) {a : Action} (ha : a.number = none) : Numbers c (c.emit a) :=
  of_quiet rfl (by simp [ha]) rfl

theorem emitAck (c : Conn) : Numbers c c.emitAck := emit c rfl

theorem backendOnly {c c' : Conn} (h : BackendOnly c c') : Numbers c c' := by
  obtain ⟨_,_,_,_,acts,rfl,hacts⟩ := h
  refine of_quiet rfl ?_ rfl
  intro a ha
  obtain ⟨_,_,rfl⟩ := Action.eq_write (hacts a ha)
  rfl

theorem sendSegments (sent : Nat → Bool) (window : Nat) (ackNo : BitVec 32) (txPool : List Nat)
    (i : Nat) (n : BitVec 32) (data : List UInt8) :
    Segments n (Conn.sendSegments sent window ackNo txPool i n data).2.2.2
      (Conn.sendSegments sent window ackNo txPool i n data).2.2.1 := by
  fun_induction Conn.sendSegments sent window ackNo txPool i n data with
  | case1 => exact Segments.nil _
  | case2 => exact Segments.nil _
  | case3 frame txPool i n b data hsent chunk allSent pool nxt log hrest ih =>
    rw [hrest] at ih
    exact Segments.data ackNo chunk window ih
  | case4 => exact Segments.nil _

theorem sendTcpSegmentedData (c : Conn) (sent : Nat → Bool) (data : List UInt8) :
    Numbers c (c.sendTcpSegmentedData sent data).2 := by
  unfold Conn.sendTcpSegmentedData
  split_ifs
  · exact refl c
  · exact ⟨_,rfl,sendSegments ..⟩

/-- A window update takes up no number. -/
theorem announceWindow (c : Conn) (ev : BackendEvent) (oldWin newWin : Nat) :
    Numbers c (c.announceWindow ev oldWin newWin) := by
  unfold Conn.announceWindow
  split
  · exact refl c
  · split_ifs
    · refine ⟨_,rfl,Segments.data _ [] newWin ?_⟩
      simp only [List.length_nil,BitVec.add_zero]
      exact Segments.nil _
    · exact refl c

theorem rule : ConnRule Numbers where
  refl := refl
  trans _ _ _ := trans
  emit c _ ha := emit c ha
  session _ _ hnxt := same rfl hnxt
  backend _ _ := backendOnly
  epoll _ _ _ := same rfl rfl
  segments := sendTcpSegmentedData
  update := announceWindow

end Numbers

section Handling

variable {cfg : Config} {f : TcpFrame} {c c' : Conn} {verdict : Verdict}

/-- The answer to a SYN sets the number of a session that has sent nothing to what it is. -/
theorem handleResult_numbers {res : TcpAssemblyResult}
    (hsyn : res.isSyn = true → c.session.sendNxt = initialServerIsn + 1)
    (h : handleResult cfg f c res = .ok (c',verdict)) : Numbers c c' := by
  have hnote := Numbers.rule.noteDelivery c res
  unfold handleResult at h
  dsimp only at h
  split_ifs at h with hflag
  · cases h
    have hsame : (c.noteDelivery res).session.sendNxt = initialServerIsn + 1 := by
      rw [Conn.noteDelivery_session]
      exact hsyn hflag
    exact hnote.trans (Numbers.of_quiet rfl (by simp [Action.number]) hsame.symm)
  · cases h
    exact hnote.trans (Numbers.emitAck _)
  · exact hnote.trans (Numbers.rule.handleReady h)
  · cases h
    exact hnote

end Handling

section Events

variable {c d : Conn} {fd : Nat} {ev : BackendEvent}

theorem event_numbers (h : c.onBackendEvent fd ev = (d,false)) : Numbers c d := by
  rw [onBackendEvent_eq] at h
  split_ifs at h
  · cases h
  · cases h
    exact Numbers.rule.event.beforeHangUp c fd ev

/-- A hang-up sends at most a FIN after the segments. -/
theorem hungUp_numbers (h : c.onBackendEvent fd ev = (d,true)) :
    ∃ b, Numbers c b ∧
      (d.log = b.log ∨ ∃ ackNo window, d.log = b.log ++ [.fin b.session.sendNxt ackNo window]) := by
  rw [onBackendEvent_eq] at h
  split_ifs at h
  · cases h
    refine ⟨(c.beforeHangUp fd ev).1,Numbers.rule.event.beforeHangUp c fd ev,?_⟩
    unfold Conn.hangUp
    dsimp only
    split
    · exact Or.inl rfl
    · split_ifs
      · exact Or.inr ⟨_,_,rfl⟩
      · exact Or.inl rfl
  · cases h

end Events

section Trace

variable (acts : List Action)

def finSent : Bool := acts.any Action.isFin

/-- The number that comes next: that after the server's ISN, one for every payload byte that was
sent, and one for a FIN. -/
def nextNumber : BitVec 32 :=
  initialServerIsn + 1 + BitVec.ofNat 32 (acts.flatMap Action.sentBytes).length +
    if finSent acts then 1 else 0

/-- Every segment that takes up numbers starts at the number that came next when it was sent,
and none comes after a FIN. -/
def Consecutive : Prop :=
  ∀ pre a post seq, acts = pre ++ a :: post → a.number = some seq →
    seq = nextNumber pre ∧ finSent pre = false

variable {acts}

theorem finSent_append (acts acts' : List Action) :
    finSent (acts ++ acts') = (finSent acts || finSent acts') := List.any_append

theorem nextNumber_of_finSent (h : finSent acts = false) :
    nextNumber acts =
      initialServerIsn + 1 + BitVec.ofNat 32 (acts.flatMap Action.sentBytes).length := by
  rw [nextNumber,h]
  exact BitVec.add_zero _

theorem nextNumber_append {acts' : List Action} (h : finSent (acts ++ acts') = false) :
    nextNumber (acts ++ acts') =
      nextNumber acts + BitVec.ofNat 32 (acts'.flatMap Action.sentBytes).length := by
  have hacts : finSent acts = false := by
    rw [finSent_append,Bool.or_eq_false_iff] at h
    exact h.1
  rw [nextNumber_of_finSent h,nextNumber_of_finSent hacts,List.flatMap_append,List.length_append,
    BitVec.ofNat_add,← BitVec.add_assoc]

theorem isFin_of_number {a : Action} (h : a.number = none) : a.isFin = false := by
  cases a <;> simp_all [Action.number,Action.isFin]

theorem sentBytes_of_number {a : Action} (h : a.number = none) : a.sentBytes = [] := by
  cases a <;> simp_all [Action.number,Action.sentBytes]

theorem Consecutive.nil : Consecutive [] := by
  intro pre a post seq h
  simp at h

theorem Consecutive.snoc (h : Consecutive acts) {a : Action}
    (hlast : ∀ seq, a.number = some seq → seq = nextNumber acts ∧ finSent acts = false) :
    Consecutive (acts ++ [a]) := by
  intro pre b post seq hsplit hnum
  rcases List.eq_nil_or_concat' post with rfl | ⟨rest,x,rfl⟩
  · obtain ⟨rfl,hx⟩ := List.append_inj' hsplit rfl
    cases hx
    exact hlast seq hnum
  · rw [← List.cons_append,← List.append_assoc] at hsplit
    obtain ⟨hacts,_⟩ := List.append_inj' hsplit rfl
    exact h pre b rest seq hacts hnum

theorem Consecutive.quiet (h : Consecutive acts) {a : Action} (ha : a.number = none) :
    Consecutive (acts ++ [a]) := by
  apply h.snoc
  intro seq hseq
  rw [ha] at hseq
  cases hseq

end Trace

/-- The session sends on from the number that comes next. -/
structure SendsOn (s : TcpStreamSession) (acts : List Action) : Prop where
  next : s.sendNxt = nextNumber acts
  open_ : finSent acts = false
  consecutive : Consecutive acts

/-- A row of segments from the number that comes next. -/
theorem Segments.extend {n m : BitVec 32} {new : List Action} (h : Segments n new m) :
    ∀ {acts : List Action}, n = nextNumber acts → finSent acts = false → Consecutive acts →
      m = nextNumber (acts ++ new) ∧ finSent (acts ++ new) = false ∧
        Consecutive (acts ++ new) := by
  induction h with
  | nil n =>
    intro acts hn hfin hcons
    rw [List.append_nil]
    exact ⟨hn,hfin,hcons⟩
  | @data n m new ackNo payload window _ ih =>
    intro acts hn hfin hcons
    have hfin' : finSent (acts ++ [.data n ackNo payload window]) = false := by
      rw [finSent_append,hfin]
      rfl
    rw [List.append_cons]
    apply ih
    · rw [nextNumber_append hfin',← hn]
      simp [Action.sentBytes]
    · exact hfin'
    · apply hcons.snoc
      intro seq hseq
      cases hseq
      exact ⟨hn,hfin⟩
  | @other n m new a ha _ ih =>
    intro acts hn hfin hcons
    have hfin' : finSent (acts ++ [a]) = false := by
      rw [finSent_append,hfin]
      simp [finSent,isFin_of_number ha]
    rw [List.append_cons]
    apply ih
    · rw [nextNumber_append hfin',← hn]
      simp [sentBytes_of_number ha]
    · exact hfin'
    · exact hcons.quiet ha

namespace SendsOn

variable {cfg : Config} {f : TcpFrame} {res : TcpAssemblyResult} {c c' : Conn}
  {verdict : Verdict} {acts : List Action}

theorem numbers (h : SendsOn c.session acts) (hlog : c.log = []) (hnum : Numbers c c') :
    SendsOn c'.session (acts ++ c'.log) := by
  obtain ⟨new,hnew,hsegments⟩ := hnum
  rw [hlog,List.nil_append] at hnew
  obtain ⟨hnext,hopen,hcons⟩ := hsegments.extend h.next h.open_ h.consecutive
  rw [hnew]
  exact ⟨hnext,hopen,hcons⟩

theorem takes {s₀ s : TcpStreamSession} {p : Nat} (h : SendsOn s₀ acts)
    (htakes : Takes s₀ f p s res) : SendsOn s acts :=
  ⟨htakes.outer.sendNxt.trans h.next,h.open_,h.consecutive⟩

/-- The answer to the SYN that opens the session. -/
theorem born (hrun : handleResult cfg f c res = .ok (c',verdict)) (hsyn : res.isSyn = true)
    (hready : res.isReady = false) (hlog : c.log = []) : SendsOn c'.session c'.log := by
  simp only [handleResult,Conn.noteDelivery,hsyn,hready,Bool.false_eq_true,false_and,if_false,
    if_true] at hrun
  cases hrun
  simp only [Conn.emit,Conn.setMacs,hlog,List.nil_append]
  exact ⟨rfl,rfl,Consecutive.nil.quiet rfl⟩

theorem final (h : SendsOn c.session (acts ++ c.log)) :
    Consecutive (acts ++ verdict.finalActions c) := by
  unfold Verdict.finalActions
  split_ifs
  · rw [← List.append_assoc]
    exact h.consecutive.quiet rfl
  · exact h.consecutive

end SendsOn

/-- A SYN is answered for a session that has sent nothing yet. -/
def FreshSyn : PacketCondition := fun _ _ s res _ _ =>
  res.isSyn = true → s.sendNxt = initialServerIsn + 1

theorem sendsOn_lifetime (cfg : Config) (p : Nat) :
    Lifetime cfg { packet := FreshSyn } p SendsOn Consecutive := by
  constructor
  case born =>
    intro w f c _ hrun
    exact SendsOn.born hrun rfl rfl rfl
  case kept =>
    intro w s₀ s f res c verdict acts h htakes hrun _ hc
    exact SendsOn.numbers (c := w.conn p s) (h.takes htakes) rfl (handleResult_numbers hc hrun)
  case closed =>
    intro w s₀ s f res c verdict acts h htakes hrun _ hc
    exact (SendsOn.numbers (c := w.conn p s) (h.takes htakes) rfl
      (handleResult_numbers hc hrun)).final
  case event =>
    intro w s fd ev c acts h hrun _
    exact SendsOn.numbers (c := w.conn p s) h rfl (event_numbers hrun)
  case hungUp =>
    intro w s fd ev c acts h hrun _
    obtain ⟨b,hnum,hfin⟩ := hungUp_numbers hrun
    have hb := SendsOn.numbers (c := w.conn p s) h rfl hnum
    rcases hfin with hsame | ⟨ackNo,window,hfin⟩
    · rw [hsame]
      exact hb.consecutive
    · rw [hfin,← List.append_assoc]
      apply hb.consecutive.snoc
      intro seq hseq
      cases hseq
      exact ⟨hb.next,hb.open_⟩
  case freed =>
    intro s acts h
    exact h.consecutive

/-- A SYN that reaches an open session finds it with nothing sent. -/
def SynsFresh (st : State) (ev : Event) : Prop :=
  ∀ f s, ev = .packet f → f.headersOk = true → st.engine.Meets f.call s →
    ¬ st.engine.Refused f.call → f.packet.has thSyn = true → f.packet.has thRst = false →
    s.sendNxt = initialServerIsn + 1

theorem SynsFresh.eventMeets (cfg : Config) {st : State} {ev : Event} (h : SynsFresh st ev) :
    EventMeets cfg { packet := FreshSyn } st ev := by
  apply EventMeets.packets
  intro f hev engine res p s₀ s c verdict hheaders hmeets htakes hpacket hp _ _ hsyn
  obtain ⟨hflag,hrst⟩ := htakes.isSyn hsyn
  exact htakes.outer.sendNxt.trans (h f s₀ hev hheaders hmeets
    (TcpAssemblerEngine.not_refused_of_session hpacket hp) hflag hrst)

/-- Numbers are used once: `send_nxt` is the number after what was sent, every data segment and
FIN starts at the number that comes next, and of two data segments the later one starts where
the earlier one and what was sent in between end. -/
structure NumberedOnce (p : Nat) (st : State) (outs : List Output) : Prop where
  next : ∀ s, st.engine.heap.mem p = some s → s.sendNxt = nextNumber (traceOf p (actionsOf outs))
  consecutive : Consecutive (traceOf p (actionsOf outs))
  adjacent : ∀ pre seq ackNo payload window mid seq' ackNo' payload' window' post,
    traceOf p (actionsOf outs) = pre ++ .data seq ackNo payload window :: mid ++
      .data seq' ackNo' payload' window' :: post →
    seq' = seq + BitVec.ofNat 32 (payload.length + (mid.flatMap Action.sentBytes).length)

theorem Consecutive.adjacent {acts pre mid post : List Action} {seq ackNo seq' ackNo' : BitVec 32}
    {payload payload' : List UInt8} {window window' : Nat} (h : Consecutive acts)
    (hsplit : acts = pre ++ .data seq ackNo payload window :: mid ++
      .data seq' ackNo' payload' window' :: post) :
    seq' = seq + BitVec.ofNat 32 (payload.length + (mid.flatMap Action.sentBytes).length) := by
  obtain ⟨hlater,hfin⟩ := h _ _ post seq' hsplit rfl
  rw [List.append_assoc,List.cons_append] at hsplit
  obtain ⟨hearlier,_⟩ := h pre _ _ seq hsplit rfl
  rw [hlater,nextNumber_append hfin,← hearlier,List.flatMap_cons,List.length_append]
  rfl

/-- Sequence numbers are used once in every run in which SYNs only reach sessions that have sent
nothing. -/
theorem numbered_once (cfg : Config) (txPool : List Nat) (events : List Event) (st : State)
    (outs : List Output) (p : Nat)
    (hsyn : Along SynsFresh (step cfg) (State.new txPool) events)
    (hrun : runOut (step cfg) (State.new txPool) events = .ok (st,outs)) :
    NumberedOnce p st outs := by
  have hmeets := Along.mono (fun _ _ => SynsFresh.eventMeets cfg) events _ hsyn
  have hlived := (sendsOn_lifetime cfg p).run hmeets hrun
  have hcons := hlived.ended (sendsOn_lifetime cfg p).freed Consecutive.nil
  constructor
  · intro s hs
    exact (hlived.live s hs).next
  · exact hcons
  · intro pre seq ackNo payload window mid seq' ackNo' payload' window' post hsplit
    exact hcons.adjacent hsplit

section Sample

/-- A computed form of `SynsFresh`. -/
def synsFreshCheck (st : State) : Event → Bool
  | .packet f =>
      (st.engine.met f.call).all fun s => !f.packet.has thSyn || s.sendNxt = initialServerIsn + 1
  | _ => true

theorem synsFresh_of_check {st : State} {ev : Event} (h : synsFreshCheck st ev = true) :
    SynsFresh st ev := by
  intro f s hev _ hmeets _ hflag _
  subst hev
  simpa [synsFreshCheck,hmeets.met,hflag] using h

/-- The client opens the connection, sends two bytes, and repeats its SYN. -/
def repeatedSyn : List Event :=
  twoByteEvents ++ [.packet (emptyFrame thSyn 0)]

/-- The backend of the sample connection answers. -/
def answer (bytes : List UInt8) : Event :=
  .backend [{ fd := 7, epollIn := true, io := { recv := some bytes } }]

theorem numbered_once_repeatedSyn :
    ∃ st outs, runOut (step mixedConfig) (State.new [0,4096]) (repeatedSyn ++ [answer [8,9]]) =
        .ok (st,outs) ∧
      (st.engine.heap.mem 1).map TcpStreamSession.sendNxt = some 1000003 ∧
      NumberedOnce 1 st outs := by
  refine ⟨_,_,rfl,by decide +kernel,?_⟩
  apply numbered_once mixedConfig [0,4096] (repeatedSyn ++ [answer [8,9]])
  · exact Along.of_check (fun _ _ h => synsFresh_of_check h) _ _ (by decide +kernel)
  · rfl

/-- A SYN that is repeated after the first answer makes the second answer start at the same
number. -/
theorem repeats_sequence_numbers :
    ∃ st outs, runOut (step mixedConfig) (State.new [0,4096])
        (openingEvents ++ [.packet { sampleFrame thAck 1 [5,6] (by decide) with
          backend := { socket := some 7 } },answer [8,9],
          .packet (sampleFrame thSyn 0 [] (by decide)),answer [10,11]]) = .ok (st,outs) ∧
      (traceOf 1 (actionsOf outs)).filterMap Action.number = [1000001,1000001] ∧
      (st.engine.heap.mem 1).map TcpStreamSession.sendNxt = some 1000003 ∧
      nextNumber (traceOf 1 (actionsOf outs)) = 1000005 ∧ ¬ NumberedOnce 1 st outs := by
  refine ⟨_,_,rfl,by decide +kernel,by decide +kernel,by decide +kernel,?_⟩
  intro h
  have hnext := h.next _ rfl
  revert hnext
  decide +kernel

end Sample

end Aethon.Pipeline
