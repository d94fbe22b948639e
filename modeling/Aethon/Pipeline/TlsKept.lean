import Aethon.Pipeline.Trail
import Aethon.Pipeline.Guarded
import Aethon.Pipeline.Answers

/-!
# The TLS engine of a session

Once a session has a TLS engine, every delivered chunk goes to it as it is. The policy still looks
at each chunk, so this holds in runs where no chunk is taken for a ClientHello that it blocks or
routes.
-/

namespace Aethon.Pipeline

open Framework Tls

namespace Action

/-- A new TLS engine, or a block by the policy. -/
def reopens : Action → Bool
  | .tlsInit => true
  | .policyBlock _ => true
  | _ => false

def fedChunk : Action → List (List UInt8)
  | .feed bytes => [bytes]
  | _ => []

def deliveredChunk : Action → List (List UInt8)
  | .delivered bytes => [bytes]
  | _ => []

end Action

/-- No TLS engine is made and nothing is blocked, and the chunks given to the TLS engine are the
delivered ones. -/
structure Kept (acts : List Action) : Prop where
  quiet : ∀ a ∈ acts, a.reopens = false
  fed : acts.flatMap Action.fedChunk = acts.flatMap Action.deliveredChunk

/-- What comes after the first bytes that are given to the TLS engine. -/
def afterFeed (acts : List Action) : List Action := (acts.dropWhile fun a => !a.isFeed).tail

section Traces

variable {acts acts' : List Action}

theorem Kept.nil : Kept [] := ⟨by simp,rfl⟩

theorem Kept.append (h : Kept acts) (h' : Kept acts') : Kept (acts ++ acts') := by
  refine ⟨?_,by rw [List.flatMap_append,List.flatMap_append,h.fed,h'.fed]⟩
  intro a ha
  rcases List.mem_append.mp ha with ha | ha
  · exact h.quiet a ha
  · exact h'.quiet a ha

theorem Kept.right (h : Kept acts) (h' : Kept (acts ++ acts')) : Kept acts' := by
  refine ⟨fun a ha => h'.quiet a (List.mem_append_right _ ha),?_⟩
  have hfed := h'.fed
  rw [List.flatMap_append,List.flatMap_append,h.fed] at hfed
  exact List.append_cancel_left hfed

/-- The trail shows all that matters. -/
theorem Kept.of_trail (h : Kept (acts.filter Action.isTrail)) : Kept acts := by
  refine ⟨?_,?_⟩
  · intro a ha
    cases ht : a.isTrail with
    | false => cases a <;> first | rfl | cases ht
    | true => exact h.quiet a (List.mem_filter.mpr ⟨ha,ht⟩)
  · have hfed : ∀ a : Action, a.isTrail = false → a.fedChunk = [] := by
      intro a ha
      cases a <;> first | rfl | cases ha
    have hdelivered : ∀ a : Action, a.isTrail = false → a.deliveredChunk = [] := by
      intro a ha
      cases a <;> first | rfl | cases ha
    rw [← flatMap_trail hfed acts,← flatMap_trail hdelivered acts]
    exact h.fed

theorem plain_append : Plain (acts ++ acts') ↔ Plain acts ∧ Plain acts' := by
  simp only [Plain,List.mem_append]
  exact ⟨fun h => ⟨fun a ha => h a (Or.inl ha),fun a ha => h a (Or.inr ha)⟩,
    fun h a ha => ha.elim (h.1 a) (h.2 a)⟩

theorem afterFeed_of_plain (h : Plain acts) : afterFeed (acts ++ acts') = afterFeed acts' := by
  rw [afterFeed,List.dropWhile_append_of_pos]
  · rfl
  · intro a ha
    simp [h a ha]

theorem afterFeed_feed (bytes : List UInt8) (acts : List Action) :
    afterFeed (.feed bytes :: acts) = acts := rfl

theorem afterFeed_of_fed (h : ¬ Plain acts) : afterFeed (acts ++ acts') = afterFeed acts ++ acts' := by
  induction acts with
  | nil => exact absurd (by simp [Plain]) h
  | cons a acts ih =>
    cases hfeed : a.isFeed with
    | true => simp [afterFeed,hfeed]
    | false =>
      have hrest : ¬ Plain acts := by
        intro hplain
        apply h
        intro b hb
        rcases List.mem_cons.mp hb with rfl | hb
        · exact hfeed
        · exact hplain b hb
      have hone : Plain [a] := by simpa [Plain] using hfeed
      rw [← List.singleton_append,List.append_assoc,afterFeed_of_plain hone,
        afterFeed_of_plain hone,ih hrest]

end Traces

/-- A session has a TLS engine exactly if bytes were given to one, and since then it is kept. -/
structure Sealed (s : TcpStreamSession) (trail : List Action) : Prop where
  plain : s.tlsStatus = .idle ↔ Plain trail
  kept : Kept (afterFeed trail)

section Call

variable {cfg : Config} {f : TcpFrame} {c c' : Conn} {verdict : Verdict} {trail : List Action}

theorem Passage.kept {bytes : List UInt8} (h : Passage bytes verdict trail) : Kept trail := by
  cases h with
  | attack => exact ⟨by simp [Action.reopens],rfl⟩
  | unrouted => exact ⟨by simp [Action.reopens],rfl⟩
  | forwarded port _ _ => exact ⟨by simp [Action.reopens],rfl⟩

theorem Passage.plain {bytes : List UInt8} (h : Passage bytes verdict trail) : Plain trail := by
  cases h with
  | attack => simp [Plain,Action.isFeed]
  | unrouted => simp [Plain,Action.isFeed]
  | forwarded port _ _ => simp [Plain,Action.isFeed]

theorem Course.kept {read : Option (List UInt8)} (h : Course verdict trail read) : Kept trail := by
  cases read with
  | none =>
    rw [h.1]
    exact Kept.nil
  | some bytes => exact Passage.kept h

theorem dispatch_tls {hello : List UInt8} (hstatus : c.session.tlsStatus ≠ .idle)
    (h : dispatch cfg f c hello = .ok (c',verdict)) :
    ∃ trail, Course verdict trail (f.tls.reads c.session.tlsStatus) ∧
      c'.trail = c.trail ++ .feed hello :: trail ∧
      c'.session.tlsStatus = f.tls.statusAfter c.session.tlsStatus := by
  rw [dispatch,if_pos hstatus] at h
  exact tlsPath_course h

theorem dispatch_idle {hello : List UInt8} (hstatus : c.session.tlsStatus = .idle)
    (h : dispatch cfg f c hello = .ok (c',verdict)) :
    ∃ trail, Passage hello verdict trail ∧ c'.trail = c.trail ++ trail ∧
      c'.session.tlsStatus = .idle := by
  rw [dispatch,if_neg (not_not.mpr hstatus)] at h
  obtain ⟨trail,hpassage,htrail,_,hsame⟩ := inspect_course h
  exact ⟨trail,hpassage,htrail,hsame.trans hstatus⟩

/-- The trail of a call for a session without a TLS engine. -/
theorem dispatch_opens {hello : List UInt8} (hplain : Plain c.trail)
    (h : dispatch cfg f c hello = .ok (c',verdict)) : Sealed c'.session c'.trail := by
  by_cases hstatus : c.session.tlsStatus = .idle
  · obtain ⟨trail,hpassage,htrail,hidle⟩ := dispatch_idle hstatus h
    have hall : Plain c'.trail := by
      rw [htrail]
      exact plain_append.mpr ⟨hplain,hpassage.plain⟩
    refine ⟨iff_of_true hidle hall,?_⟩
    rw [← List.append_nil c'.trail,afterFeed_of_plain hall]
    exact Kept.nil
  · obtain ⟨trail,hcourse,htrail,hafter⟩ := dispatch_tls hstatus h
    rw [htrail]
    refine ⟨iff_of_false ?_ ?_,?_⟩
    · rw [hafter]
      exact TlsIo.statusAfter_ne_idle hstatus
    · intro hall
      have hfeed := (plain_append.mp hall).2 (.feed hello) (by simp)
      cases hfeed
    · rw [afterFeed_of_plain hplain,afterFeed_feed]
      exact hcourse.kept

theorem PolicyCase.opens {hello : List UInt8} (h : PolicyCase cfg f c hello c' verdict)
    (hstatus : c.session.tlsStatus = .idle) (hplain : Plain c.trail) :
    Sealed c'.session c'.trail := by
  cases h with
  | blocked sni =>
    have htrail : (c.emit (.policyBlock sni)).clearHello.trail = c.trail ++ [.policyBlock sni] :=
      trail_emit c rfl
    have hall : Plain (c.trail ++ [.policyBlock sni]) :=
      plain_append.mpr ⟨hplain,by simp [Plain,Action.isFeed]⟩
    rw [htrail]
    refine ⟨iff_of_true hstatus hall,?_⟩
    rw [afterFeed_of_plain hplain]
    exact Kept.nil
  | passed d _ _ _ _ hd hgo =>
    exact dispatch_opens (by rw [hd.trail]; exact hplain) hgo
  | routed d _ _ _ _ htrail _ hgo =>
    refine dispatch_opens ?_ hgo
    rw [htrail]
    exact plain_append.mpr ⟨hplain,by simp [Plain,Action.isFeed]⟩

/-- A call for a session with a TLS engine, when the policy lets the bytes pass. -/
theorem PolicyCase.kept {hello : List UInt8} (h : PolicyCase cfg f c hello c' verdict)
    (hstatus : c.session.tlsStatus ≠ .idle) (hblock : blocksHello cfg hello = false)
    (hroute : routesTls cfg f hello = false) :
    ∃ trail, Course verdict trail (f.tls.reads c.session.tlsStatus) ∧
      c'.trail = c.trail ++ .feed hello :: trail ∧
      c'.session.tlsStatus = f.tls.statusAfter c.session.tlsStatus := by
  cases h with
  | blocked sni hno =>
    rw [hblock] at hno
    cases hno
  | passed d _ _ _ _ hd hgo =>
    rw [← hd.status] at hstatus ⊢
    rw [← hd.trail]
    exact dispatch_tls hstatus hgo
  | routed d _ _ _ hyes =>
    rw [hroute] at hyes
    cases hyes

end Call

/-- The bytes that the packet makes the assembler deliver to the session. -/
def deliveredTo (s : TcpStreamSession) (f : TcpFrame) : List UInt8 :=
  (s.onPacket f.packet f.call.nowNs f.call.garbage).2.payload

/-- What the packet delivers to a session with a TLS engine is not taken for a ClientHello that the
policy blocks or routes. -/
def KeepsTls (cfg : Config) (s : TcpStreamSession) (_ : List Action) (f : TcpFrame) : Prop :=
  f.headersOk = true → s.tlsStatus ≠ .idle →
    blocksHello cfg (deliveredTo s f) = false ∧ routesTls cfg f (deliveredTo s f) = false

instance (cfg : Config) (s : TcpStreamSession) (acts : List Action) (f : TcpFrame) :
    Decidable (KeepsTls cfg s acts f) :=
  inferInstanceAs (Decidable (f.headersOk = true → s.tlsStatus ≠ .idle →
    blocksHello cfg (deliveredTo s f) = false ∧ routesTls cfg f (deliveredTo s f) = false))

namespace Sealed

variable {cfg : Config} {f : TcpFrame} {c c' : Conn} {verdict : Verdict} {p : Nat}
  {s₀ s : TcpStreamSession} {res : TcpAssemblyResult} {before : List Action}

/-- The session is served for a packet. -/
theorem served (h : Sealed s₀ before) (hheaders : f.headersOk = true)
    (hkeeps : KeepsTls cfg s₀ before f) (htakes : Takes s₀ f p s res) (hs : c.session = s)
    (hlog : c.log = []) (hrun : handleResult cfg f c res = .ok (c',verdict)) :
    Sealed c'.session (before ++ c'.trail) := by
  have hstatus : c.session.tlsStatus = s₀.tlsStatus := by
    rw [hs]
    exact htakes.outer.tlsStatus
  have hempty : c.trail = [] := by rw [Conn.trail,hlog]; rfl
  have hdelivered : (c.emit (.delivered res.payload)).trail = [.delivered res.payload] := by
    rw [trail_emit c rfl,hempty,List.nil_append]
  rcases handleResult_cases htakes hrun with ⟨hquiet,_⟩ | ⟨_,hready⟩
  · rw [hquiet.trail,hempty,List.append_nil]
    exact ⟨by rw [hquiet.status,hstatus]; exact h.plain,h.kept⟩
  · by_cases hidle : s₀.tlsStatus = .idle
    · have hplain := h.plain.mp hidle
      have hsealed : Sealed c'.session c'.trail := by
        have hone : Plain [.delivered res.payload] := by simp [Plain,Action.isFeed]
        rcases handleReady_idle (c := c.emit _) (hstatus.trans hidle) hready with
          ⟨htrail,hsame⟩ | ⟨d,hello,htrail,hsame,_,hcase⟩
        · rw [htrail,hdelivered]
          exact ⟨iff_of_true hsame hone,Kept.nil⟩
        · exact hcase.opens hsame (by rw [htrail,hdelivered]; exact hone)
      refine ⟨?_,?_⟩
      · rw [plain_append,hsealed.plain]
        exact ⟨fun hp => ⟨hplain,hp⟩,And.right⟩
      · rw [afterFeed_of_plain hplain]
        exact hsealed.kept
    · have hfed : ¬ Plain before := fun hplain => hidle (h.plain.mpr hplain)
      obtain ⟨hblock,hroute⟩ := hkeeps hheaders hidle
      rw [deliveredTo,← htakes.payload] at hblock hroute
      have hopen : (c.emit (.delivered res.payload)).session.tlsStatus ≠ .idle := by
        change c.session.tlsStatus ≠ .idle
        rw [hstatus]
        exact hidle
      obtain ⟨trail,hcourse,htrail,hafter⟩ :=
        (handleReady_tls hopen hready).kept hopen hblock hroute
      rw [hdelivered] at htrail
      have hcall : Kept c'.trail := by
        have hfeed : Kept [.delivered res.payload,.feed res.payload] :=
          ⟨by simp [Action.reopens],rfl⟩
        rw [htrail]
        exact hfeed.append hcourse.kept
      refine ⟨iff_of_false ?_ ?_,?_⟩
      · rw [hafter]
        exact TlsIo.statusAfter_ne_idle hopen
      · exact fun hplain => hfed (plain_append.mp hplain).1
      · rw [afterFeed_of_fed hfed]
        exact h.kept.append hcall

theorem backend (h : Sealed s before) {w : World} {fd : Nat} {ev : BackendEvent} {closed : Bool}
    (hrun : (w.conn p s).onBackendEvent fd ev = (c,closed)) :
    Sealed c.session (before ++ c.trail) := by
  have hquiet := Unnoted.onBackendEvent (w.conn p s) fd ev
  rw [hrun] at hquiet
  have htrail : c.trail = [] := hquiet.trail
  have hstatus : c.session.tlsStatus = s.tlsStatus := hquiet.status
  rw [htrail,List.append_nil]
  exact ⟨by rw [hstatus]; exact h.plain,h.kept⟩

end Sealed

theorem Verdict.finalActions_trail (verdict : Verdict) (c : Conn) :
    (verdict.finalActions c).filter Action.isTrail = c.trail := by
  unfold Verdict.finalActions
  split_ifs
  · rw [List.filter_append]
    exact List.append_nil _
  · rfl

/-- A session keeps its TLS engine from the first bytes on. -/
theorem sealed_guarded (cfg : Config) (p : Nat) :
    Guarded cfg (KeepsTls cfg) p (fun s acts => Sealed s (acts.filter Action.isTrail))
      (fun acts => Kept (afterFeed (acts.filter Action.isTrail))) := by
  constructor
  case born =>
    intro w f c _ hrun
    cases hrun
    exact ⟨iff_of_true rfl (by simp [Plain,World.conn,World.openedResult,Conn.noteDelivery,
      Conn.setMacs,Conn.emit,TcpAssemblerEngine.portsOf,Action.isTrail]),Kept.nil⟩
  case kept =>
    intro w s₀ s f res c verdict acts h hheaders hguard htakes hrun _
    rw [List.filter_append]
    exact h.served hheaders hguard htakes (c := w.conn p s) rfl rfl hrun
  case closed =>
    intro w s₀ s f res c verdict acts h hheaders hguard htakes hrun _
    rw [List.filter_append,Verdict.finalActions_trail]
    exact (h.served hheaders hguard htakes (c := w.conn p s) rfl rfl hrun).kept
  case event =>
    intro w s fd ev c acts h hrun
    rw [List.filter_append]
    exact h.backend hrun
  case hungUp =>
    intro w s fd ev c acts h hrun
    rw [List.filter_append]
    exact (h.backend hrun).kept
  case freed => exact fun _ _ h => h.kept

/-- A session with a TLS engine keeps it, whatever is delivered later, and all of that is given to
it, in runs where no chunk is taken for a ClientHello that the policy blocks or routes. -/
theorem tls_kept (cfg : Config) (txPool : List Nat) (before after : List Event) (st st' : State)
    (outs outs' : List Output) (p : Nat) (s : TcpStreamSession)
    (hkeeps : During (Guard (KeepsTls cfg) p) (step cfg) (State.new txPool) (before ++ after))
    (hbefore : runOut (step cfg) (State.new txPool) before = .ok (st,outs))
    (hs : st.engine.heap.mem p = some s)
    (htls : s.tlsStatus = .handshake ∨ s.tlsStatus = .established)
    (hafter : runOut (step cfg) st after = .ok (st',outs')) :
    Kept (traceOf p (actionsOf outs')) := by
  have hlive : Sealed s ((traceOf p (actionsOf outs)).filter Action.isTrail) :=
    ((sealed_guarded cfg p).run hkeeps.left hbefore).live s hs
  have hfed : ¬ Plain ((traceOf p (actionsOf outs)).filter Action.isTrail) := by
    intro hplain
    have hidle := hlive.plain.mpr hplain
    rcases htls with h | h
    · rw [h] at hidle
      cases hidle
    · rw [h] at hidle
      cases hidle
  have hwhole := ((sealed_guarded cfg p).run hkeeps
    ((runOut_append ..).mpr ⟨st,outs,outs',hbefore,hafter,rfl⟩)).ended
    (fun _ _ h => h.kept) Kept.nil
  rw [actionsOf,List.flatMap_append,← actionsOf,← actionsOf,traceOf_append,List.filter_append,
    afterFeed_of_fed hfed] at hwhole
  exact (hlive.kept.right hwhole).of_trail

section Sample

/-- The client sends a ClientHello, the end of the handshake and a record. -/
def helloThenData : List Event :=
  [.packet (emptyFrame thSyn 0),
    .packet (sampleFrame thAck 1 sampleHello sampleHello_length_lt),
    .packet { byteFrame thAck 64 0x14 with
      tls := { handshake := .done, decrypt := .plain [0x50] }
      backend := { socket := some 7 } }]

/-- The end of a run over the sample services. -/
def mixedRun (st : State) (events : List Event) : State × List Output :=
  match runOut (step mixedConfig) st events with
  | .ok r => r
  | .error _ => (st,[])

def establishedRun : State × List Output := mixedRun (State.new []) helloThenData

/-- A chunk of the established stream. -/
def laterChunk (bytes : List UInt8) (h : bytes.length < 65536) : List Event :=
  [.packet (sampleFrame thAck 65 bytes h)]

def recordChunk : List Event := laterChunk [0x17,3,3,0,1] (by decide)

def helloChunk : List Event := laterChunk sampleHello sampleHello_length_lt

def startChunk : List Event := laterChunk [0x16,3,1,0,4,1,0,0,0] (by decide)

theorem establishedRun_ok :
    runOut (step mixedConfig) (State.new []) helloThenData = .ok establishedRun := rfl

theorem tls_kept_record : ∃ s, establishedRun.1.engine.heap.mem 1 = some s ∧
    s.tlsStatus = .established ∧
    runOut (step mixedConfig) establishedRun.1 recordChunk =
      .ok (mixedRun establishedRun.1 recordChunk) ∧
    traceOf 1 (actionsOf (mixedRun establishedRun.1 recordChunk).2) ≠ [] ∧
    Kept (traceOf 1 (actionsOf (mixedRun establishedRun.1 recordChunk).2)) := by
  refine ⟨_,rfl,by decide +kernel,rfl,by decide +kernel,?_⟩
  refine tls_kept mixedConfig [] helloThenData recordChunk establishedRun.1
    (mixedRun establishedRun.1 recordChunk).1 establishedRun.2 _ 1 _ ?_ establishedRun_ok rfl
    (Or.inr ?_) rfl
  · exact During.of_check (by decide +kernel)
  · decide +kernel

/-- Bytes of the established stream that look like a ClientHello give the session a new TLS
engine, and nine bytes that look like the start of one close it. -/
theorem tls_reopened : ∃ s,
    runOut (step mixedConfig) (State.new []) helloThenData = .ok establishedRun ∧
    establishedRun.1.engine.heap.mem 1 = some s ∧ s.tlsStatus = .established ∧
    (∃ st outs, runOut (step mixedConfig) establishedRun.1 helloChunk = .ok (st,outs) ∧
      Action.tlsInit ∈ traceOf 1 (actionsOf outs) ∧ ¬ Kept (traceOf 1 (actionsOf outs))) ∧
    ∃ st outs, runOut (step mixedConfig) establishedRun.1 startChunk = .ok (st,outs) ∧
      Action.policyBlock [] ∈ traceOf 1 (actionsOf outs) ∧ st.engine.heap.mem 1 = none ∧
      ¬ Kept (traceOf 1 (actionsOf outs)) := by
  have hinit : Action.tlsInit ∈
      traceOf 1 (actionsOf (mixedRun establishedRun.1 helloChunk).2) := by decide +kernel
  have hblock : Action.policyBlock [] ∈
      traceOf 1 (actionsOf (mixedRun establishedRun.1 startChunk).2) := by decide +kernel
  exact ⟨_,rfl,rfl,by decide +kernel,
    ⟨_,_,rfl,hinit,fun h => absurd (h.quiet _ hinit) (by decide)⟩,
    _,_,rfl,hblock,rfl,fun h => absurd (h.quiet _ hblock) (by decide)⟩

end Sample

end Aethon.Pipeline
