import Aethon.Pipeline.TlsKept
import Aethon.Tls.OpenSsl

/-!
# Reading out decrypted data

A call reads at most one record from the TLS engine, and none at all when handshake output is
pending. So nothing is left in the engine in runs where each call completes no more records than
it reads.
-/

namespace Aethon.Pipeline

open Framework Tls

namespace Action

def fedBytes : Action → List UInt8
  | .feed bytes => bytes
  | _ => []

def scannedChunk : Action → List (List UInt8)
  | .scan bytes _ => [bytes]
  | _ => []

def isPassage : Action → Bool
  | .scan _ _ => true
  | .target _ => true
  | .forward _ _ => true
  | _ => false

end Action

/-- The actions since the last TLS engine was made. -/
def sinceInit (acts : List Action) : List Action :=
  acts.foldl (fun since a => if a = .tlsInit then [] else since ++ [a]) []

/-- The bytes that the TLS engine was given. -/
def fedSince (acts : List Action) : List UInt8 := (sinceInit acts).flatMap Action.fedBytes

/-- The way of what was read from the TLS engine. -/
def passedSince (acts : List Action) : List Action := (sinceInit acts).filter Action.isPassage

/-- What was read from the TLS engine. -/
def readSince (acts : List Action) : List (List UInt8) :=
  (passedSince acts).flatMap Action.scannedChunk

section Since

variable {acts acts' : List Action}

theorem sinceInit_concat (acts : List Action) (a : Action) :
    sinceInit (acts ++ [a]) = if a = .tlsInit then [] else sinceInit acts ++ [a] := by
  rw [sinceInit,List.foldl_append]
  rfl

theorem sinceInit_append (h : .tlsInit ∉ acts') :
    sinceInit (acts ++ acts') = sinceInit acts ++ acts' := by
  induction acts' using List.reverseRecOn with
  | nil => rw [List.append_nil,List.append_nil]
  | append_singleton acts' a ih =>
    rw [← List.append_assoc,sinceInit_concat,if_neg,ih,List.append_assoc]
    · exact fun hmem => h (List.mem_append_left _ hmem)
    · exact fun ha => h (by simp [ha])

theorem sinceInit_init (h : .tlsInit ∉ acts') : sinceInit (acts ++ .tlsInit :: acts') = acts' := by
  rw [← List.singleton_append,← List.append_assoc,sinceInit_append h,sinceInit_concat,if_pos rfl,
    List.nil_append]

theorem sinceInit_trail (acts : List Action) :
    sinceInit (acts.filter Action.isTrail) = (sinceInit acts).filter Action.isTrail := by
  induction acts using List.reverseRecOn with
  | nil => rfl
  | append_singleton acts a ih =>
    rw [sinceInit_concat,List.filter_append]
    by_cases hinit : a = .tlsInit
    · subst hinit
      rw [if_pos rfl]
      exact sinceInit_init (by simp)
    · rw [if_neg hinit,List.filter_append,sinceInit_append,ih]
      exact fun hmem => hinit (List.mem_singleton.mp (List.mem_filter.mp hmem).1).symm

/-- The trail shows what the TLS engine was given and what was read from it. -/
theorem since_trail (acts : List Action) :
    fedSince (acts.filter Action.isTrail) = fedSince acts ∧
      passedSince (acts.filter Action.isTrail) = passedSince acts := by
  constructor
  · rw [fedSince,sinceInit_trail]
    refine flatMap_trail ?_ _
    intro a ha
    cases a <;> first | rfl | cases ha
  · rw [passedSince,sinceInit_trail,List.filter_filter]
    refine List.filter_congr ?_
    intro a _
    cases a <;> rfl

end Since

/-- The records went through the scanner one by one, and on to the target port if there is one. -/
inductive PassedOn : List (List UInt8) → List Action → Prop where
  | nil : PassedOn [] []
  | unrouted {records : List (List UInt8)} {trail : List Action} (bytes : List UInt8)
      (h : PassedOn records trail) :
      PassedOn (records ++ [bytes]) (trail ++ [.scan bytes false,.target 0])
  | forwarded {records : List (List UInt8)} {trail : List Action} (bytes : List UInt8)
      (port : BitVec 16) (hport : port ≠ 0) (h : PassedOn records trail) :
      PassedOn (records ++ [bytes])
        (trail ++ [.scan bytes false,.target port,.forward port bytes])

theorem PassedOn.scanned {records : List (List UInt8)} {trail : List Action}
    (h : PassedOn records trail) : trail.flatMap Action.scannedChunk = records := by
  induction h with
  | nil => rfl
  | unrouted bytes _ ih => simp [ih,Action.scannedChunk]
  | forwarded bytes port _ _ ih => simp [ih,Action.scannedChunk]

theorem Passage.passedOn {records : List (List UInt8)} {trail before : List Action}
    {bytes : List UInt8} {verdict : Verdict} (h : Passage bytes verdict trail)
    (hopen : verdict ≠ .reset) (hbefore : PassedOn records before) :
    PassedOn (records ++ [bytes]) (before ++ trail) := by
  cases h with
  | attack => exact absurd rfl hopen
  | unrouted => exact hbefore.unrouted bytes
  | forwarded port _ hport => exact hbefore.forwarded bytes port hport

namespace TlsIo

/-- The call comes to `SSL_read`. -/
def reaches (io : TlsIo) : TlsSessionStatus → Bool
  | .handshake => match io.handshake with
    | .done => io.pendingTx = []
    | _ => false
  | .established => true
  | _ => false

/-- The handshake is complete after the handshake step. -/
def completes (io : TlsIo) : TlsSessionStatus → Bool
  | .handshake => match io.handshake with
    | .done => true
    | _ => false
  | .established => true
  | _ => false

/-- The handshake step fails. -/
def breaks (io : TlsIo) : TlsSessionStatus → Bool
  | .handshake => match io.handshake with
    | .failed => true
    | _ => false
  | _ => false

end TlsIo

/-- The TLS engine that a call meets: its status, what it was given, the bytes of the call
included, and the number of records read from it before. -/
structure TlsEngine where
  status : TlsSessionStatus
  fed : List UInt8
  read : Nat

/-- OpenSSL answers by the records: a failed handshake has none and gets none, and `SSL_read`
returns the next record that was not read, or none and perhaps the end of the connection. -/
structure Answers (ssl : OpenSsl) (io : TlsIo) (e : TlsEngine) : Prop where
  broken : io.breaks e.status = true → ssl.records e.fed = [] ∧ ssl.Final e.fed
  next : io.reaches e.status = true → io.decrypt.plaintext = (ssl.records e.fed)[e.read]?
  ended : io.reaches e.status = true → io.decrypt.status ≠ .established → ssl.Final e.fed

/-- The call reads all that is complete: one record if it comes to `SSL_read`, and none if it
does not. -/
def ReadsAll (ssl : OpenSsl) (io : TlsIo) (e : TlsEngine) : Prop :=
  io.completes e.status = true →
    (ssl.records e.fed).length ≤ e.read + (if io.reaches e.status then 1 else 0)

/-- What is known of a TLS engine by its status: before the end of the handshake nothing was read,
after it everything was, and at the end of the connection nothing can follow. -/
structure Drained (ssl : OpenSsl) (status : TlsSessionStatus) (fed : List UInt8)
    (passed : List Action) : Prop where
  shaking : status = .handshake → passed = []
  passed : status ≠ .idle → status ≠ .handshake → PassedOn (ssl.records fed) passed
  final : status = .errorState ∨ status = .closed → ssl.Final fed

namespace Drained

variable {ssl : OpenSsl} {io : TlsIo} {status : TlsSessionStatus} {fed chunk : List UInt8}
  {passed trail : List Action} {verdict : Verdict}

theorem idle (fed : List UInt8) (passed : List Action) : Drained ssl .idle fed passed :=
  ⟨by simp,fun h => absurd rfl h,by simp⟩

/-- A new TLS engine. -/
theorem new : Drained ssl .handshake [] [] :=
  ⟨fun _ => rfl,fun _ h => absurd rfl h,by simp⟩

/-- The next record is read and passed on, or there is none. -/
theorem read {records : List (List UInt8)} (hpassed : PassedOn records passed)
    (hgrows : records <+: ssl.records fed)
    (hnext : io.decrypt.plaintext = (ssl.records fed)[records.length]?)
    (hone : (ssl.records fed).length ≤ records.length + 1)
    (hcourse : Course verdict trail io.decrypt.plaintext) (hopen : verdict ≠ .reset) :
    PassedOn (ssl.records fed) (passed ++ trail) := by
  obtain ⟨rest,hrest⟩ := hgrows
  rw [← hrest,List.length_append] at hone
  rw [← hrest,List.getElem?_append_right le_rfl,Nat.sub_self] at hnext
  rw [← hrest]
  rcases rest with _ | ⟨bytes,_ | ⟨_,_⟩⟩
  · rw [hnext] at hcourse
    rw [hcourse.1,List.append_nil,List.append_nil]
    exact hpassed
  · rw [hnext] at hcourse
    exact Passage.passedOn hcourse hopen hpassed
  · simp only [List.length_cons] at hone
    omega

theorem decrypted (h : io.decrypt.status ≠ .established → ssl.Final fed)
    (hpassed : PassedOn (ssl.records fed) passed) : Drained ssl io.decrypt.status fed passed := by
  refine ⟨?_,fun _ _ => hpassed,?_⟩
  · intro hshake
    cases hdecrypt : io.decrypt <;> rw [hdecrypt] at hshake <;> cases hshake
  · intro hend
    refine h ?_
    rcases hend with hend | hend
    · rw [hend]
      decide
    · rw [hend]
      decide

/-- A call keeps the TLS engine drained. -/
theorem call (h : Drained ssl status fed passed)
    (hanswers : Answers ssl io ⟨status,fed ++ chunk,(passed.flatMap Action.scannedChunk).length⟩)
    (hall : ReadsAll ssl io ⟨status,fed ++ chunk,(passed.flatMap Action.scannedChunk).length⟩)
    (hcourse : Course verdict trail (io.reads status)) (hopen : verdict ≠ .reset) :
    Drained ssl (io.statusAfter status) (fed ++ chunk) (passed ++ trail) := by
  cases status with
  | idle => exact idle _ _
  | handshake =>
    have hempty := h.shaking rfl
    subst hempty
    obtain ⟨hbroken,hnext,hended⟩ := hanswers
    simp only [TlsIo.reaches,TlsIo.breaks,ReadsAll,TlsIo.completes,TlsIo.reads,
      TlsIo.statusAfter] at *
    cases hstep : io.handshake with
    | done =>
      simp only [hstep] at *
      by_cases htx : io.pendingTx = []
      · simp only [htx,decide_true,if_true,forall_const] at *
        exact decrypted hended (read PassedOn.nil List.nil_prefix hnext hall hcourse hopen)
      · simp only [htx,decide_false,if_false,forall_const,Bool.false_eq_true] at *
        have hnone : ssl.records (fed ++ chunk) = [] :=
          List.length_eq_zero_iff.mp (Nat.le_zero.mp hall)
        rw [hcourse.1]
        refine ⟨by simp,fun _ _ => ?_,by simp⟩
        rw [hnone]
        exact PassedOn.nil
    | wantIo =>
      simp only [hstep] at *
      rw [hcourse.1]
      exact ⟨fun _ => rfl,fun _ h => absurd rfl h,by simp⟩
    | failed =>
      simp only [hstep,forall_const] at *
      rw [hcourse.1]
      refine ⟨by simp,fun _ _ => ?_,fun _ => hbroken.2⟩
      rw [hbroken.1]
      exact PassedOn.nil
  | established =>
    have hpassed := h.passed (by decide) (by decide)
    obtain ⟨_,hnext,hended⟩ := hanswers
    simp only [TlsIo.reaches,ReadsAll,TlsIo.completes,TlsIo.reads,TlsIo.statusAfter,if_true,
      forall_const,hpassed.scanned] at *
    exact decrypted hended (read hpassed (ssl.grows fed chunk) hnext hall hcourse hopen)
  | errorState =>
    have hpassed := h.passed (by decide) (by decide)
    have hfinal := h.final (Or.inl rfl)
    rw [hcourse.1,List.append_nil]
    refine ⟨by simp [TlsIo.statusAfter],fun _ _ => ?_,fun _ => hfinal.append chunk⟩
    rw [hfinal chunk]
    exact hpassed
  | closed =>
    have hpassed := h.passed (by decide) (by decide)
    have hfinal := h.final (Or.inr rfl)
    rw [hcourse.1,List.append_nil]
    refine ⟨by simp [TlsIo.statusAfter],fun _ _ => ?_,fun _ => hfinal.append chunk⟩
    rw [hfinal chunk]
    exact hpassed

end Drained

/-- The TLS engine that complete bytes come to: a new one if they are routed to a TLS service. -/
def engineFor (cfg : Config) (f : TcpFrame) (status : TlsSessionStatus) (acts : List Action)
    (hello : List UInt8) : TlsEngine :=
  if routesTls cfg f hello then ⟨f.tls.initStatus,hello,0⟩
  else ⟨status,fedSince acts ++ hello,(readSince acts).length⟩

/-- The TLS engine that the bytes of the packet come to, if they come to one. -/
def engineMet (cfg : Config) (s : TcpStreamSession) (acts : List Action) (f : TcpFrame) :
    Option TlsEngine :=
  if deliveredTo s f = [] then none
  else match holdHello s (deliveredTo s f) with
    | .pass _ hello =>
        if blocksHello cfg hello then none else some (engineFor cfg f s.tlsStatus acts hello)
    | _ => none

/-- OpenSSL answers by the records. -/
def Answering (cfg : Config) (ssl : OpenSsl) (s : TcpStreamSession) (acts : List Action)
    (f : TcpFrame) : Prop :=
  f.headersOk = true → ∀ e, engineMet cfg s acts f = some e → Answers ssl f.tls e

/-- The packet completes no more records than its call reads. -/
def CompletesFew (cfg : Config) (ssl : OpenSsl) (s : TcpStreamSession) (acts : List Action)
    (f : TcpFrame) : Prop :=
  f.headersOk = true → ∀ e, engineMet cfg s acts f = some e → ReadsAll ssl f.tls e

section Session

variable {cfg : Config} {ssl : OpenSsl} {f : TcpFrame} {c c' : Conn} {verdict : Verdict} {p : Nat}
  {s₀ s : TcpStreamSession} {res : TcpAssemblyResult} {before trail : List Action}

theorem Course.passage {read : Option (List UInt8)} (h : Course verdict trail read) :
    trail.filter Action.isPassage = trail ∧ trail.flatMap Action.fedBytes = [] ∧
      .tlsInit ∉ trail := by
  cases read with
  | none =>
    rw [h.1]
    exact ⟨rfl,rfl,by simp⟩
  | some bytes =>
    cases (show Passage bytes verdict trail from h) with
    | attack => exact ⟨rfl,rfl,by simp⟩
    | unrouted => exact ⟨rfl,rfl,by simp⟩
    | forwarded port _ _ => exact ⟨rfl,rfl,by simp⟩

/-- What a call adds when its bytes come to the TLS engine that is there. -/
theorem since_fed (before : List Action) (payload hello : List UInt8)
    {read : Option (List UInt8)} (h : Course verdict trail read) :
    fedSince (before ++ .delivered payload :: .feed hello :: trail) = fedSince before ++ hello ∧
      passedSince (before ++ .delivered payload :: .feed hello :: trail) =
        passedSince before ++ trail := by
  obtain ⟨hpassage,hfed,hinit⟩ := h.passage
  have hsince : sinceInit (before ++ .delivered payload :: .feed hello :: trail) =
      sinceInit before ++ .delivered payload :: .feed hello :: trail :=
    sinceInit_append (by simpa using hinit)
  rw [fedSince,passedSince,hsince,List.flatMap_append,List.filter_append,← fedSince,← passedSince]
  simp [Action.fedBytes,Action.isPassage,hfed,hpassage]

/-- What a call adds when its bytes come to a new TLS engine. -/
theorem since_init (before : List Action) (payload hello : List UInt8)
    {read : Option (List UInt8)} (h : Course verdict trail read) :
    fedSince (before ++ .delivered payload :: .tlsInit :: .feed hello :: trail) = hello ∧
      passedSince (before ++ .delivered payload :: .tlsInit :: .feed hello :: trail) = trail := by
  obtain ⟨hpassage,hfed,hinit⟩ := h.passage
  have hsince : sinceInit (before ++ [.delivered payload] ++ .tlsInit :: .feed hello :: trail) =
      .feed hello :: trail := sinceInit_init (by simpa using hinit)
  rw [List.append_assoc,List.singleton_append] at hsince
  rw [fedSince,passedSince,hsince]
  simp [Action.fedBytes,Action.isPassage,hfed,hpassage]

/-- The handling of complete bytes keeps the TLS engine drained. -/
theorem PolicyCase.drained {payload hello : List UInt8} {status : TlsSessionStatus}
    (h : PolicyCase cfg f c hello c' verdict) (hopen : verdict ≠ .reset)
    (htrail : c.trail = [.delivered payload]) (hstatus : c.session.tlsStatus = status)
    (hdrained : Drained ssl status (fedSince before) (passedSince before))
    (hanswers : blocksHello cfg hello = false →
      Answers ssl f.tls (engineFor cfg f status before hello))
    (hall : blocksHello cfg hello = false →
      ReadsAll ssl f.tls (engineFor cfg f status before hello)) :
    Drained ssl c'.session.tlsStatus (fedSince (before ++ c'.trail))
      (passedSince (before ++ c'.trail)) := by
  cases h with
  | blocked => exact absurd rfl hopen
  | passed d _ _ hblock hroute hd hgo =>
    have hmet := hanswers hblock
    have hreads := hall hblock
    simp only [engineFor,hroute,Bool.false_eq_true,if_false] at hmet hreads
    have hsame : d.session.tlsStatus = status := hd.status.trans hstatus
    by_cases hidle : status = .idle
    · obtain ⟨_,_,_,hplain⟩ := dispatch_idle (hsame.trans hidle) hgo
      rw [hplain]
      exact Drained.idle _ _
    · obtain ⟨trail,hcourse,hcall,hafter⟩ := dispatch_tls (by rw [hsame]; exact hidle) hgo
      obtain ⟨hfed,hpassed⟩ := since_fed before payload hello hcourse
      rw [hsame] at hcourse hafter
      rw [hd.trail,htrail,List.singleton_append] at hcall
      rw [hafter,hcall,hfed,hpassed]
      exact hdrained.call hmet hreads hcourse hopen
  | routed d _ _ hblock hroute hd hinit hgo =>
    have hmet := hanswers hblock
    have hreads := hall hblock
    simp only [engineFor,hroute,if_true] at hmet hreads
    rw [htrail] at hd
    cases hnew : f.tls.sslNew with
    | false =>
      simp only [TlsIo.initStatus,hnew,Bool.false_eq_true,if_false] at hinit
      obtain ⟨_,_,_,hplain⟩ := dispatch_idle hinit hgo
      rw [hplain]
      exact Drained.idle _ _
    | true =>
      simp only [TlsIo.initStatus,hnew,if_true] at hinit hmet hreads
      obtain ⟨trail,hcourse,hcall,hafter⟩ := dispatch_tls (by rw [hinit]; decide) hgo
      obtain ⟨hfed,hpassed⟩ := since_init before payload hello hcourse
      rw [hinit] at hcourse hafter
      rw [hd,List.append_assoc,List.singleton_append,List.singleton_append] at hcall
      rw [hafter,hcall,hfed,hpassed]
      exact (List.nil_append hello) ▸ Drained.new.call hmet hreads hcourse hopen

/-- The session is served for a packet and stays open. -/
theorem drained_served (hdrained : Drained ssl s₀.tlsStatus (fedSince before) (passedSince before))
    (hanswers : ∀ e, engineMet cfg s₀ before f = some e → Answers ssl f.tls e)
    (hall : ∀ e, engineMet cfg s₀ before f = some e → ReadsAll ssl f.tls e)
    (htakes : Takes s₀ f p s res) (hs : c.session = s) (hlog : c.log = [])
    (hrun : handleResult cfg f c res = .ok (c',verdict)) (hopen : verdict ≠ .reset) :
    Drained ssl c'.session.tlsStatus (fedSince (before ++ c'.trail))
      (passedSince (before ++ c'.trail)) := by
  have hstatus : c.session.tlsStatus = s₀.tlsStatus := by
    rw [hs]
    exact htakes.outer.tlsStatus
  have hempty : c.trail = [] := by rw [Conn.trail,hlog]; rfl
  have hdelivered : (c.emit (.delivered res.payload)).trail = [.delivered res.payload] := by
    rw [trail_emit c rfl,hempty,List.nil_append]
  have hpayload : deliveredTo s₀ f = res.payload := htakes.payload.symm
  rcases handleResult_cases htakes hrun with ⟨hquiet,_⟩ | ⟨hne,hready⟩
  · rw [hquiet.trail,hquiet.status,hempty,List.append_nil,hstatus]
    exact hdrained
  · have hmet {hello : List UInt8} {t : TcpStreamSession}
        (hhold : holdHello s₀ res.payload = .pass t hello) (hblock : blocksHello cfg hello = false) :
        engineMet cfg s₀ before f = some (engineFor cfg f s₀.tlsStatus before hello) := by
      simp only [engineMet,hpayload,hne,if_false,hhold,hblock,Bool.false_eq_true]
    by_cases hidle : s₀.tlsStatus = .idle
    · rcases handleReady_idle (c := c.emit _) (hstatus.trans hidle) hready with
        ⟨_,hsame⟩ | ⟨d,hello,htrail,hsame,hhold,hcase⟩
      · rw [hsame]
        exact Drained.idle _ _
      · have houter : s₀.SameOuter (c.emit (.delivered res.payload)).session := by
          change s₀.SameOuter c.session
          rw [hs]
          exact htakes.outer
        obtain ⟨t,hhold'⟩ := holdHello_outer houter hhold
        exact hcase.drained hopen (htrail.trans hdelivered) (hsame.trans hidle.symm) hdrained
          (fun hblock => hanswers _ (hmet hhold' hblock))
          (fun hblock => hall _ (hmet hhold' hblock))
    · have hhold : holdHello s₀ res.payload = .pass s₀ res.payload := by
        rw [holdHello,if_neg (fun h => hidle h.1)]
      exact (handleReady_tls (c := c.emit _) (by rw [← hstatus] at hidle; exact hidle)
        hready).drained hopen hdelivered hstatus hdrained
        (fun hblock => hanswers _ (hmet hhold hblock)) (fun hblock => hall _ (hmet hhold hblock))

end Session

/-- What was read from the TLS engine of the session is all that is complete, and all of it was
scanned and, where there is a target port, forwarded. -/
def NoneStranded (ssl : OpenSsl) (p : Nat) (st : State) (outs : List Output) : Prop :=
  ∀ s, st.engine.heap.mem p = some s → s.tlsStatus ≠ .idle → s.tlsStatus ≠ .handshake →
    PassedOn (ssl.records (fedSince (traceOf p (actionsOf outs))))
      (passedSince (traceOf p (actionsOf outs)))

/-- The TLS engine of a session stays drained. -/
theorem drained_guarded (cfg : Config) (ssl : OpenSsl) (p : Nat) :
    Guarded cfg (fun s acts f => Answering cfg ssl s acts f ∧ CompletesFew cfg ssl s acts f) p
      (fun s acts => Drained ssl s.tlsStatus (fedSince acts) (passedSince acts))
      (fun _ => True) := by
  constructor
  case born =>
    intro w f c _ hrun
    cases hrun
    exact Drained.idle _ _
  case kept =>
    intro w s₀ s f res c verdict acts h hheaders hguard htakes hrun hopen
    obtain ⟨hfed,hpassed⟩ := since_trail (acts ++ c.log)
    obtain ⟨hfed₀,hpassed₀⟩ := since_trail acts
    rw [List.filter_append] at hfed hpassed
    rw [← hfed,← hpassed]
    rw [← hfed₀,← hpassed₀] at h
    have hmet : engineMet cfg s₀ (acts.filter Action.isTrail) f = engineMet cfg s₀ acts f := by
      simp only [engineMet,engineFor,readSince,hfed₀,hpassed₀]
    refine drained_served h ?_ ?_ htakes (c := w.conn p s) rfl rfl hrun (Verdict.ne_reset hopen)
    · rw [hmet]
      exact hguard.1 hheaders
    · rw [hmet]
      exact hguard.2 hheaders
  case closed => exact fun _ _ _ _ _ _ _ _ _ _ _ _ _ _ => trivial
  case event =>
    intro w s fd ev c acts h hrun
    have hquiet := Unnoted.onBackendEvent (w.conn p s) fd ev
    rw [hrun] at hquiet
    have htrail : c.log.filter Action.isTrail = [] := hquiet.trail
    have hstatus : c.session.tlsStatus = s.tlsStatus := hquiet.status
    obtain ⟨hfed,hpassed⟩ := since_trail (acts ++ c.log)
    obtain ⟨hfed₀,hpassed₀⟩ := since_trail acts
    rw [List.filter_append,htrail,List.append_nil] at hfed hpassed
    rw [← hfed,← hpassed,hfed₀,hpassed₀,hstatus]
    exact h
  case hungUp => exact fun _ _ _ _ _ _ _ _ => trivial
  case freed => exact fun _ _ _ => trivial

/-- Nothing complete stays in the TLS engine of an open session, in runs where no call completes
more records than it reads. -/
theorem none_stranded (cfg : Config) (ssl : OpenSsl) (txPool : List Nat) (events : List Event)
    (st : State) (outs : List Output) (p : Nat)
    (hssl : During (Guard (Answering cfg ssl) p) (step cfg) (State.new txPool) events)
    (hfew : During (Guard (CompletesFew cfg ssl) p) (step cfg) (State.new txPool) events)
    (hrun : runOut (step cfg) (State.new txPool) events = .ok (st,outs)) :
    NoneStranded ssl p st outs := by
  intro s hs hidle hshake
  have hguard : During (Guard (fun s acts f => Answering cfg ssl s acts f ∧
      CompletesFew cfg ssl s acts f) p) (step cfg) (State.new txPool) events := by
    intro before ev after t bs heq hbefore f s hev hs hkey
    exact ⟨hssl before ev after t bs heq hbefore f s hev hs hkey,
      hfew before ev after t bs heq hbefore f s hev hs hkey⟩
  exact (((drained_guarded cfg ssl p).run hguard hrun).live s hs).passed hidle hshake

section Sample

/-- A check of the TLS engine that each packet comes to. -/
def engineCheck (check : TlsIo → TlsEngine → Bool) (cfg : Config) (s : TcpStreamSession)
    (acts : List Action) (f : TcpFrame) : Bool :=
  (engineMet cfg s acts f).all (check f.tls)

theorem guard_of_check {check : TlsIo → TlsEngine → Bool} {P : TlsIo → TlsEngine → Prop}
    (himp : ∀ io e, check io e = true → P io e) {cfg : Config} {p : Nat} {st : State}
    {outs : List Output} {ev : Event}
    (h : Guard (fun s acts f => engineCheck check cfg s acts f = true) p st outs ev) :
    Guard (fun s acts f => f.headersOk = true → ∀ e, engineMet cfg s acts f = some e → P f.tls e)
      p st outs ev := by
  intro f s hev hs hkey _ e he
  have hcheck := h f s hev hs hkey
  simp only [engineCheck,he,Option.all_some] at hcheck
  exact himp f.tls e hcheck

/-- The handshake does not fail, and `SSL_read` returns the next record or wants more. -/
def answersCheck (ssl : OpenSsl) (io : TlsIo) (e : TlsEngine) : Bool :=
  !io.breaks e.status && (!io.reaches e.status ||
    (io.decrypt.plaintext = (ssl.records e.fed)[e.read]? && io.decrypt.status = .established))

theorem answers_of_check {ssl : OpenSsl} (io : TlsIo) (e : TlsEngine)
    (h : answersCheck ssl io e = true) : Answers ssl io e := by
  simp only [answersCheck,Bool.and_eq_true,Bool.not_eq_true',Bool.or_eq_true,
    decide_eq_true_eq] at h
  obtain ⟨hbreaks,hreads⟩ := h
  refine ⟨?_,?_,?_⟩
  · intro hbroken
    rw [hbreaks] at hbroken
    cases hbroken
  · intro hreaches
    rcases hreads with hno | hnext
    · rw [hno] at hreaches
      cases hreaches
    · exact hnext.1
  · intro hreaches hended
    rcases hreads with hno | hnext
    · rw [hno] at hreaches
      cases hreaches
    · exact absurd hnext.2 hended

def readsAllCheck (ssl : OpenSsl) (io : TlsIo) (e : TlsEngine) : Bool :=
  !io.completes e.status ||
    (ssl.records e.fed).length ≤ e.read + (if io.reaches e.status then 1 else 0)

theorem readsAll_of_check {ssl : OpenSsl} (io : TlsIo) (e : TlsEngine)
    (h : readsAllCheck ssl io e = true) : ReadsAll ssl io e := by
  intro hcompletes
  simpa [readsAllCheck,hcompletes] using h

/-- The client sends a ClientHello, the end of the handshake and a chunk of records, of which
`SSL_read` returns the first. -/
def requestEvents (chunk : List UInt8) (h : chunk.length < 65536) : List Event :=
  [.packet (emptyFrame thSyn 0),
    .packet (sampleFrame thAck 1 sampleHello sampleHello_length_lt),
    .packet { sampleFrame thAck 64 [0x14,3,3,0,1,1] (by decide) with tls := { handshake := .done } },
    .packet { sampleFrame thAck 70 chunk h with
      tls := { decrypt := .plain [0x50] }
      backend := { socket := some 7 } }]

def oneRecord : List Event := requestEvents [0x17,3,3,0,1,0x50] (by decide)

def twoRecords : List Event := requestEvents [0x17,3,3,0,1,0x50,0x17,3,3,0,1,0x51] (by decide)

theorem none_stranded_oneRecord :
    runOut (step mixedConfig) (State.new []) oneRecord = .ok (mixedRun (State.new []) oneRecord) ∧
      passedSince (traceOf 1 (actionsOf (mixedRun (State.new []) oneRecord).2)) =
        [.scan [0x50] false,.target 9000,.forward 9000 [0x50]] ∧
      NoneStranded .nullCipher 1 (mixedRun (State.new []) oneRecord).1
        (mixedRun (State.new []) oneRecord).2 := by
  refine ⟨rfl,by decide +kernel,?_⟩
  refine none_stranded mixedConfig .nullCipher [] oneRecord _ _ 1 ?_ ?_ rfl
  · exact During.mono (fun _ _ _ => guard_of_check answers_of_check)
      (During.of_check (by decide +kernel))
  · exact During.mono (fun _ _ _ => guard_of_check readsAll_of_check)
      (During.of_check (by decide +kernel))

/-- Two records in one chunk: OpenSSL answers by the records, the session is open, and the second
record stays in the TLS engine. -/
theorem second_record_stranded :
    During (Guard (Answering mixedConfig .nullCipher) 1) (step mixedConfig) (State.new [])
        twoRecords ∧
      runOut (step mixedConfig) (State.new []) twoRecords =
        .ok (mixedRun (State.new []) twoRecords) ∧
      ¬ NoneStranded .nullCipher 1 (mixedRun (State.new []) twoRecords).1
        (mixedRun (State.new []) twoRecords).2 := by
  refine ⟨?_,rfl,?_⟩
  · exact During.mono (fun _ _ _ => guard_of_check answers_of_check)
      (During.of_check (by decide +kernel))
  · intro h
    have hstatus : ∃ s, (mixedRun (State.new []) twoRecords).1.engine.heap.mem 1 = some s ∧
        s.tlsStatus = .established := ⟨_,rfl,by decide +kernel⟩
    obtain ⟨s,hs,hopen⟩ := hstatus
    have hpassed := (h s hs (by rw [hopen]; decide) (by rw [hopen]; decide)).scanned
    revert hpassed
    decide +kernel

end Sample

end Aethon.Pipeline
