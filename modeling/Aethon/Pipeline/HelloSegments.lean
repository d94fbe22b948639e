import Aethon.Pipeline.Inspection
import Aethon.Pipeline.Served

/-!
# ClientHello records in segments

A ClientHello may come in several segments. It is recognised by the bytes 0 and 5 of its first
segment and then held until the record is complete, so the policy sees the whole record exactly
when the first segment has six bytes or more.
-/

namespace Aethon.Pipeline

open Framework Tls TcpAssemblerEngine

/-- A data segment of the connection `key`. -/
structure DataFrame (key : TcpKey) (seq : BitVec 32) (payload : List UInt8) (f : TcpFrame) :
    Prop where
  headers : f.headersOk = true
  key : f.packet.key = key
  seq : f.packet.seq = seq
  payload : f.packet.payload = payload
  ack : f.packet.has thAck = true
  noSyn : f.packet.has thSyn = false
  noRst : f.packet.has thRst = false
  noFin : f.packet.has thFin = false

/-- The frames carry the segments one after the other, from `seq` on. -/
def Carries (key : TcpKey) : BitVec 32 → List TcpFrame → List (List UInt8) → Prop
  | _, [], [] => True
  | seq, f :: frames, segment :: segments => DataFrame key seq segment f ∧
      Carries key (seq + BitVec.ofNat 32 segment.length) frames segments
  | _, _, _ => False

/-- A session that has been established and has seen no data yet. -/
structure FreshEstablished (s : TcpStreamSession) : Prop where
  state : s.state = .established
  rcvNxt : s.rcvNxt = s.isn + 1
  outOfOrderCount : s.outOfOrderCount = 0
  ring : s.ring = none
  tlsStatus : s.tlsStatus = .idle
  clientHelloBuf : s.clientHelloBuf = []
  backendFd : s.backendFd = none
  backendPort : s.backendPort = 0
  backendTxBuf : s.backendTxBuf = []

/-- The server name that `parse_client_hello` finds. -/
def serverName (record : List UInt8) : List UInt8 :=
  match parseClientHello record with
  | .ok info => info.sni record
  | .error _ => []

/-- The policy forbids the record: its server name is empty or not allowed. -/
def Forbidden (cfg : Config) (record : List UInt8) : Prop :=
  serverName record = [] ∨ cfg.blocklist.isAllowed (serverName record) = false

section Hold

variable {record held segment : List UInt8} {s : TcpStreamSession}

theorem getD_initial {x y : List UInt8} (h : x <+: y) {i : Nat} (hi : i < x.length) :
    x.getD i 0 = y.getD i 0 := by
  obtain ⟨t,rfl⟩ := h
  simp only [List.getD_eq_getElem?_getD,List.getElem?_append_left hi]

theorem recordLen_initial {x y : List UInt8} (h : x <+: y) (hlen : 5 ≤ x.length) :
    recordLen x = recordLen y := by
  rw [recordLen,recordLen,getD_initial h (by omega),getD_initial h (by omega)]

/-- The first segment of a record, or a later one. -/
def StartsOrGoesOn (held segment : List UInt8) : Prop :=
  6 ≤ held.length ∨ held = [] ∧ 6 ≤ segment.length

theorem startsHello_initial (hrec : HelloRecord record) (hpre : segment <+: record)
    (hlen : 6 ≤ segment.length) : startsHello segment = true := by
  have hkind := (getD_initial hpre (show 0 < segment.length by omega)).trans hrec.kind
  have htype := (getD_initial hpre (show 5 < segment.length by omega)).trans hrec.handshake
  simp only [startsHello,hkind,htype,tlsRecordHandshake,tlsHandshakeClientHello,ge_iff_le,hlen,
    decide_true,Bool.and_self]

/-- Segments of a record are held until it is complete. -/
theorem holdHello_segment (hrec : HelloRecord record) (hidle : s.tlsStatus = .idle)
    (hheld : s.clientHelloBuf = held) (hpre : held ++ segment <+: record)
    (hstart : StartsOrGoesOn held segment) :
    holdHello s segment =
      if (held ++ segment).length < record.length then
        .wait { s with clientHelloBuf := held ++ segment }
      else .pass { s with clientHelloBuf := held ++ segment } (held ++ segment) := by
  have hle := hpre.length_le
  have hlong : 5 ≤ (held ++ segment).length := by
    rw [List.length_append]
    rcases hstart with h | ⟨rfl,h⟩
    · omega
    · simp only [List.length_nil]
      omega
  have henter : s.tlsStatus = .idle ∧ (s.clientHelloBuf ≠ [] ∨ startsHello segment = true) := by
    refine ⟨hidle,?_⟩
    rw [hheld]
    rcases hstart with h | ⟨rfl,h⟩
    · left
      intro hnil
      rw [hnil] at h
      cases h
    · exact Or.inr (startsHello_initial hrec (by simpa using hpre) h)
  have hcomplete := hrec.complete
  have hbounded := hrec.bounded
  have hlen := recordLen_initial hpre hlong
  have hsmall : ¬ s.clientHelloBuf.length + segment.length > maxClientHello := by
    rw [hheld,← List.length_append,maxClientHello]
    omega
  unfold holdHello
  rw [if_pos henter,if_neg hsmall]
  simp only [hheld,ge_iff_le,hlong,if_true,hlen]
  rw [if_neg (by omega)]
  simp only [hcomplete]

end Hold

section Segment

variable (cfg : Config) {key : TcpKey} {p : Nat} {st st' : State} {s s₁ : TcpStreamSession}
  {f : TcpFrame} {record held segment : List UInt8} {out : Output}

/-- The session of `key` holds the bytes `held` of a ClientHello, and nothing else waits. -/
structure Holding (key : TcpKey) (p : Nat) (st : State) (s : TcpStreamSession)
    (held : List UInt8) : Prop where
  serving : Serving key p st s
  state : s.state = .established
  outOfOrderCount : s.outOfOrderCount = 0
  tlsStatus : s.tlsStatus = .idle
  clientHelloBuf : s.clientHelloBuf = held

theorem DataFrame.takesData (hf : DataFrame key s.rcvNxt segment f)
    (hstate : s.state = .established) : s.takesData f.packet = true := by
  simp [TcpStreamSession.takesData,hf.noRst,hf.noSyn,hstate]

/-- The result that a data segment in order has. -/
def readyResult (p : Nat) (f : TcpFrame) (segment : List UInt8) : TcpAssemblyResult :=
  portsOf f.packet { isReady := true, payload := segment } (some p)

/-- The session after a data segment in order. -/
def afterSegment (s : TcpStreamSession) (f : TcpFrame) (segment : List UInt8) :
    TcpStreamSession :=
  { s.awake f.call.nowNs with rcvNxt := s.rcvNxt + BitVec.ofNat 32 segment.length }

/-- A segment in order is handed over as it is. -/
theorem Holding.process (h : Holding key p st s held) (hf : DataFrame key s.rcvNxt segment f)
    (hne : segment ≠ []) (hmeets : st.engine.Meets f.call s₁) :
    ∃ t : TcpAssemblerEngine, st.engine.cleanup f.call.nowNs = .ok t ∧
      t.sessions.find key = .ok (some p) ∧
      st.engine.processPacket f.call =
        .ok ({ t with heap := t.heap.set p (afterSegment s f segment) },readyResult p f segment) ∧
      Serving key p
        { st with engine := { t with heap := t.heap.set p (afterSegment s f segment) } }
        (afterSegment s f segment) := by
  have hpos : 0 < f.packet.payload.length := by
    rw [hf.payload]
    exact List.length_pos_iff.mpr hne
  have hon := onPacket_inOrder f.call.nowNs f.call.garbage (hf.takesData h.state) hf.noFin
    h.outOfOrderCount hf.seq hpos
  rw [hf.payload] at hon
  exact h.serving.processPacket hf.key hmeets (not_refused hf.noSyn) hon

theorem handleResult_ready (c : Conn) (hne : segment ≠ []) :
    handleResult cfg f c (readyResult p f segment) =
      handleReady cfg f (c.emit (.delivered segment)) segment := by
  have hpos : segment.length > 0 := List.length_pos_iff.mpr hne
  simp [handleResult,readyResult,portsOf,Conn.noteDelivery,hpos]

theorem handleReady_wait {c : Conn} {t : TcpStreamSession}
    (h : holdHello c.session segment = .wait t) :
    handleReady cfg f c segment = .ok (Conn.emitAck { c with session := t },.reply) := by
  unfold handleReady
  rw [h]

theorem handleReady_pass {c : Conn} {t : TcpStreamSession} {hello : List UInt8}
    (h : holdHello c.session segment = .pass t hello) :
    handleReady cfg f c segment = applyPolicy cfg f { c with session := t } hello := by
  unfold handleReady
  rw [h]

/-- The connection on which the delivered bytes of a segment are handled. -/
def deliveredConn (p : Nat) (s : TcpStreamSession) (f : TcpFrame) (segment : List UInt8)
    (kernel : Kernel) (txPool : List Nat) : Conn :=
  Conn.emit ⟨p,afterSegment s f segment,kernel,txPool,[]⟩ (.delivered segment)

/-- The state in which the result of a segment is handled. -/
def afterProcess (st : State) (t : TcpAssemblerEngine) (p : Nat) (s : TcpStreamSession) : State :=
  { st with engine := { t with heap := t.heap.set p s } }

/-- A segment in order is handled on its delivered bytes. -/
theorem Holding.handle (h : Holding key p st s held) (hf : DataFrame key s.rcvNxt segment f)
    (hne : segment ≠ []) (hmeets : st.engine.Meets f.call s₁) :
    ∃ (t : TcpAssemblerEngine) (c : Conn) (verdict : Verdict),
      st.engine.cleanup f.call.nowNs = .ok t ∧ t.sessions.find key = .ok (some p) ∧
      handleReady cfg f (deliveredConn p s f segment t.kernel st.txPool) segment =
        .ok (c,verdict) ∧
      c.addr = p ∧
      handleTcpPacket cfg st f = finish f (readyResult p f segment)
        (afterProcess st t p (afterSegment s f segment)) c verdict ∧
      Serving key p (afterProcess st t p (afterSegment s f segment)) (afterSegment s f segment) := by
  obtain ⟨t,hclean,hfind,hp,hserving⟩ := h.process hf hne hmeets
  obtain ⟨c,verdict,hready,_⟩ := handleReady_ok cfg f
    (deliveredConn p s f segment t.kernel st.txPool) segment
  have hresult := (handleResult_ready cfg (f := f) (p := p)
    ⟨p,afterSegment s f segment,t.kernel,st.txPool,[]⟩ hne).trans hready
  refine ⟨t,c,verdict,hclean,hfind,hready,handleResult_addr hresult,?_,hserving⟩
  exact handleTcpPacket_eq hf.headers hp rfl hserving.mem hresult

/-- What the engine keeps when a session only waits: its table and its clock. -/
def SameTable (st : State) (f : TcpFrame) (st' : State) : Prop :=
  ∃ t, st.engine.cleanup f.call.nowNs = .ok t ∧ st'.engine.sessions = t.sessions ∧
    st'.engine.lastCleanupNs = t.lastCleanupNs

/-- A segment that leaves the record incomplete is only acknowledged. -/
theorem Holding.wait (h : Holding key p st s held) (hrec : HelloRecord record)
    (hf : DataFrame key s.rcvNxt segment f) (hne : segment ≠ [])
    (hmeets : st.engine.Meets f.call s₁) (hpre : held ++ segment <+: record)
    (hshort : (held ++ segment).length < record.length)
    (hstart : StartsOrGoesOn held segment) :
    ∃ st' out s', handleTcpPacket cfg st f = .ok (st',out) ∧
      Holding key p st' s' (held ++ segment) ∧
      s'.rcvNxt = s.rcvNxt + BitVec.ofNat 32 segment.length ∧
      auditOf p out.actions = [.delivered segment] ∧ SameTable st f st' := by
  obtain ⟨t,c,verdict,hclean,_,hready,_,hrun,hserving⟩ := h.handle cfg hf hne hmeets
  have hhold := holdHello_segment (s := afterSegment s f segment) hrec h.tlsStatus
    h.clientHelloBuf hpre hstart
  rw [if_pos hshort] at hhold
  rw [handleReady_wait cfg hhold] at hready
  cases hready
  refine ⟨_,_,_,hrun,⟨hserving.put rfl,rfl,h.outOfOrderCount,h.tlsStatus,rfl⟩,rfl,?_,
    t,hclean,rfl,rfl⟩
  exact auditOf_self (Conn.emitAck { deliveredConn p s f segment t.kernel st.txPool with
    session := { afterSegment s f segment with clientHelloBuf := held ++ segment } })

/-- The segment that completes the record puts the whole record before the policy. -/
theorem Holding.complete (h : Holding key p st s held) (hrec : HelloRecord record)
    (hf : DataFrame key s.rcvNxt segment f) (hne : segment ≠ [])
    (hmeets : st.engine.Meets f.call s₁) (hwhole : held ++ segment = record)
    (hstart : StartsOrGoesOn held segment) :
    ∃ (t : TcpAssemblerEngine) (c₀ c : Conn) (verdict : Verdict),
      t.sessions.find key = .ok (some p) ∧ c₀.audit = [.delivered segment] ∧
      applyPolicy cfg f c₀ record = .ok (c,verdict) ∧ c.addr = p ∧
      handleTcpPacket cfg st f = finish f (readyResult p f segment)
        (afterProcess st t p (afterSegment s f segment)) c verdict ∧
      Serving key p (afterProcess st t p (afterSegment s f segment)) (afterSegment s f segment) := by
  obtain ⟨t,c,verdict,_,hfind,hready,haddr,hrun,hserving⟩ := h.handle cfg hf hne hmeets
  have hpre : held ++ segment <+: record := hwhole ▸ List.prefix_rfl
  have hhold := holdHello_segment (s := afterSegment s f segment) hrec h.tlsStatus
    h.clientHelloBuf hpre hstart
  rw [if_neg (by rw [hwhole]; exact lt_irrefl _),hwhole] at hhold
  rw [handleReady_pass cfg hhold] at hready
  exact ⟨t,_,c,verdict,hfind,rfl,hready,haddr,hrun,hserving⟩

end Segment

section Run

variable (cfg : Config) {key : TcpKey} {p : Nat} {record : List UInt8}

/-- The session of a frame is found when the frame comes. -/
def Found (st : State) (f : TcpFrame) : Prop := ∃ s, st.engine.Meets f.call s

/-- Segments that leave the record incomplete are held. -/
theorem Holding.run (hrec : HelloRecord record) (segments : List (List UInt8)) :
    ∀ {st : State} {s : TcpStreamSession} {held : List UInt8} {frames : List TcpFrame},
      Holding key p st s held → Carries key s.rcvNxt frames segments →
      (∀ segment ∈ segments, segment ≠ []) → held ++ segments.flatten <+: record →
      (held ++ segments.flatten).length < record.length →
      (∀ segment ∈ segments.head?, StartsOrGoesOn held segment) →
      Along Found (handleTcpPacket cfg) st frames →
      ∃ st' outs s', runOut (handleTcpPacket cfg) st frames = .ok (st',outs) ∧
        Holding key p st' s' (held ++ segments.flatten) ∧
        s'.rcvNxt = s.rcvNxt + BitVec.ofNat 32 segments.flatten.length ∧
        auditOf p (actionsOf outs) = segments.map .delivered := by
  induction segments with
  | nil =>
    intro st s held frames h hcarry _ _ _ _ _
    cases frames with
    | cons f frames => exact hcarry.elim
    | nil =>
      refine ⟨st,[],s,rfl,?_,?_,rfl⟩
      · simpa using h
      · simp
  | cons segment segments ih =>
    intro st s held frames h hcarry hne hpre hshort hstart halong
    cases frames with
    | nil => exact hcarry.elim
    | cons f frames =>
      obtain ⟨hf,hrest⟩ := hcarry
      obtain ⟨⟨s₁,hmeets⟩,hafter⟩ := halong
      rw [List.flatten_cons,← List.append_assoc] at hpre hshort
      have hle : (held ++ segment).length ≤ (held ++ segment ++ segments.flatten).length := by
        simp
      have hlong : 6 ≤ (held ++ segment).length := by
        rw [List.length_append]
        rcases hstart segment rfl with hheld | ⟨_,hseg⟩
        · omega
        · omega
      obtain ⟨st',out,s',hstep,hholding,hnxt,haudit,_⟩ := h.wait cfg hrec hf
        (hne segment (List.mem_cons_self ..)) hmeets
        (List.IsPrefix.trans (List.prefix_append _ _) hpre) (by omega) (hstart segment rfl)
      rw [← hnxt] at hrest
      obtain ⟨st'',outs,s'',hrun,hholding',hnxt',haudit'⟩ := ih hholding hrest
        (fun seg hseg => hne seg (List.mem_cons_of_mem _ hseg)) hpre hshort
        (fun _ _ => Or.inl hlong) (hafter _ _ hstep)
      refine ⟨st'',out :: outs,s'',(runOut_cons ..).mpr ⟨_,_,_,hstep,hrun,rfl⟩,?_,?_,?_⟩
      · rwa [List.flatten_cons,← List.append_assoc]
      · rw [hnxt',hnxt,List.flatten_cons,List.length_append,BitVec.ofNat_add,BitVec.add_assoc]
      · rw [actionsOf,List.flatMap_cons,auditOf,ofSession_append,← auditOf,← auditOf,haudit,
          ← actionsOf,haudit']
        rfl

end Run

section Policy

variable {cfg : Config} {f : TcpFrame} {c₀ c : Conn} {verdict : Verdict} {record : List UInt8}

theorem serverName_eq {info : TlsParseResult} (h : parseClientHello record = .ok info) :
    serverName record = info.sni record := by
  simp only [serverName,h]

/-- What happens to a record that the policy does not forbid. -/
def Routed (c₀ c : Conn) (verdict : Verdict) : Prop :=
  ∃ trail, c.audit = c₀.audit ++ trail ∧
    (trail = [] ∧ verdict ≠ .reset ∨ ∃ bytes, Passage bytes verdict trail)

/-- The policy decides on a legible record. -/
theorem applyPolicy_legible (hrec : HelloRecord record) (hlegible : Legible record)
    (h : applyPolicy cfg f c₀ record = .ok (c,verdict)) :
    Forbidden cfg record ∧ verdict = .reset ∧
        c.audit = c₀.audit ++ [.policyBlock (serverName record)] ∨
      ¬ Forbidden cfg record ∧ Routed c₀ c verdict := by
  obtain ⟨info,hinfo,hhello⟩ := hrec.parse hlegible
  have hname := serverName_eq hinfo
  unfold applyPolicy at h
  obtain ⟨_,hparse,hrest⟩ := (bind_ok_iff ..).mp h
  rw [hinfo] at hparse
  cases hparse
  rw [if_pos hhello] at hrest
  dsimp only at hrest
  rw [← hname] at hrest
  split at hrest
  · rename_i hforbidden
    cases hrest
    refine Or.inl ⟨?_,rfl,audit_emit c₀ rfl⟩
    simpa [Forbidden] using hforbidden
  · rename_i hallowed
    obtain ⟨svc,_,hgo⟩ := (bind_ok_iff ..).mp hrest
    obtain ⟨trail,haudit,htrail⟩ := dispatch_passage hgo
    rw [routeTls_audit] at haudit
    refine Or.inr ⟨?_,trail,haudit,htrail⟩
    simpa [Forbidden] using hallowed

/-- An illegible record passes by the policy. -/
theorem applyPolicy_illegible (hrec : HelloRecord record) (hlegible : ¬ Legible record)
    (h : applyPolicy cfg f c₀ record = .ok (c,verdict)) :
    Forbidden cfg record ∧ Routed c₀ c verdict := by
  obtain ⟨info,hinfo,hhello,hsni⟩ := hrec.parse_illegible hlegible
  unfold applyPolicy at h
  obtain ⟨_,hparse,hrest⟩ := (bind_ok_iff ..).mp h
  rw [hinfo] at hparse
  cases hparse
  rw [if_neg (by rw [hhello]; decide)] at hrest
  refine ⟨Or.inl ?_,dispatch_passage hrest⟩
  rw [serverName_eq hinfo,TlsParseResult.sni,hsni,List.take_zero]

theorem Routed.not_block (h : Routed c₀ c verdict) {sni : List UInt8}
    (hc₀ : .policyBlock sni ∉ c₀.audit) : .policyBlock sni ∉ c.audit := by
  obtain ⟨trail,haudit,htrail⟩ := h
  rw [haudit,List.mem_append,not_or]
  refine ⟨hc₀,?_⟩
  rcases htrail with ⟨rfl,_⟩ | ⟨bytes,hpassage⟩
  · exact List.not_mem_nil
  · cases hpassage <;> simp

/-- Only an attack or a failed forward resets what the policy lets pass. -/
theorem Routed.reset (h : Routed c₀ c .reset) :
    (∃ bytes, .scan bytes true ∈ c.audit) ∨ ∃ port bytes, .forward port bytes ∈ c.audit := by
  obtain ⟨trail,haudit,htrail⟩ := h
  rw [haudit]
  rcases htrail with ⟨_,hreset⟩ | ⟨bytes,hpassage⟩
  · exact absurd rfl hreset
  · cases hpassage with
    | attack => exact Or.inl ⟨bytes,by simp⟩
    | forwarded port _ _ => exact Or.inr ⟨port,bytes,by simp⟩

end Policy

section Finish

variable {key : TcpKey} {p : Nat} {st st' : State} {s : TcpStreamSession} {f : TcpFrame}
  {c : Conn} {out : Output} (segment : List UInt8) (verdict : Verdict)

/-- The log of a call that handles a segment, and whether the session survives it. -/
theorem finish_segment (h : Serving key p st s) (hkey : f.packet.key = key)
    (hfind : st.engine.sessions.find key = .ok (some p)) (haddr : c.addr = p) :
    ∃ st' out, finish f (readyResult p f segment) st c verdict = .ok (st',out) ∧
      out.actions = verdict.finalLog c ∧
      (st'.engine.heap.mem p = none ↔ verdict = .reset) := by
  have hput := h.put haddr
  have hopen : ∀ v : Verdict, v ≠ .reset →
      ((st.store c).engine.heap.mem p = none ↔ v = .reset) := by
    intro v hv
    rw [hput.mem]
    simp [hv]
  cases verdict with
  | reply => exact ⟨_,_,rfl,rfl,hopen _ (by decide)⟩
  | silent => exact ⟨_,_,rfl,rfl,hopen _ (by decide)⟩
  | proceed => exact ⟨_,_,rfl,rfl,hopen _ (by decide)⟩
  | reset =>
    have hne : key ≠ kEmptyTcpKey := by
      rw [← hput.wf.emptyKey]
      exact hput.stored.ne_emptyKey
    obtain ⟨u,hu,_⟩ := closeSession_ok hput.wf hne
    have hworld := closeSession_found c.txPool (e := (st.store c).engine) hfind
      hput.mem hu
    refine ⟨{ st.store c with engine := u },⟨f.replySent,(c.emit .rst).tagged⟩,?_,rfl,?_⟩
    · simp only [finish,State.closeSession,hkey,hu,bind,Except.bind]
      rfl
    · have hheap : u.heap = (st.store c).engine.heap.free p := congrArg World.heap hworld
      rw [hheap]
      simp

end Finish

section Carries

variable {key : TcpKey}

theorem Carries.append (xs : List (List UInt8)) {ys : List (List UInt8)} :
    ∀ {seq : BitVec 32} {frames : List TcpFrame}, Carries key seq frames (xs ++ ys) →
      Carries key seq (frames.take xs.length) xs ∧
        Carries key (seq + BitVec.ofNat 32 xs.flatten.length) (frames.drop xs.length) ys := by
  induction xs with
  | nil =>
    intro seq frames h
    refine ⟨trivial,?_⟩
    simpa using h
  | cons x xs ih =>
    intro seq frames h
    cases frames with
    | nil => exact h.elim
    | cons f frames =>
      obtain ⟨hf,hrest⟩ := h
      obtain ⟨hinit,htail⟩ := ih hrest
      refine ⟨⟨hf,hinit⟩,?_⟩
      rw [List.flatten_cons,List.length_append,BitVec.ofNat_add,← BitVec.add_assoc]
      exact htail

theorem FreshEstablished.holding {p : Nat} {st : State} {s : TcpStreamSession}
    (h : FreshEstablished s) (hserving : Serving key p st s) : Holding key p st s [] :=
  ⟨hserving,h.state,h.outOfOrderCount,h.tlsStatus,h.clientHelloBuf⟩

end Carries

/-- The outcome that the policy asks for. A session that the policy lets pass ends only with a
scan that finds an attack or with a failed forward. -/
structure PolicyHolds (cfg : Config) (p : Nat) (record : List UInt8) (st : State)
    (log : List (Nat × Action)) : Prop where
  blocked : (∃ sni, (p,.policyBlock sni) ∈ log) ↔ Forbidden cfg record
  closed : Forbidden cfg record → st.engine.heap.mem p = none ∧ (p,.rst) ∈ log ∧
    ∀ port bytes, (p,.forward port bytes) ∉ log
  kept : st.engine.heap.mem p = none → Forbidden cfg record ∨
    (∃ bytes, (p,.scan bytes true) ∈ log) ∨ ∃ port bytes, (p,.forward port bytes) ∈ log

/-- The policy on `record` does not depend on how it is cut into segments: nothing is forwarded
before the last segment, and after it the outcome is that of the whole record. -/
def SegmentationFree (record : List UInt8) (cut : List (List UInt8)) : Prop :=
  ∀ (cfg : Config) (key : TcpKey) (p : Nat) (st : State) (s : TcpStreamSession)
    (frames : List TcpFrame), Reached cfg st → st.engine.sessions.Stored key p →
    st.engine.heap.mem p = some s → FreshEstablished s → Carries key s.rcvNxt frames cut →
    (∀ k, k < cut.length → Along Found (handleTcpPacket cfg) st (frames.take k) →
      ∃ st' outs, runOut (handleTcpPacket cfg) st (frames.take k) = .ok (st',outs) ∧
        ∀ port bytes, (p,.forward port bytes) ∉ actionsOf outs) ∧
    (Along Found (handleTcpPacket cfg) st frames →
      ∃ st' outs, runOut (handleTcpPacket cfg) st frames = .ok (st',outs) ∧
        PolicyHolds cfg p record st' (actionsOf outs))

section Whole

variable (cfg : Config) {key : TcpKey} {p : Nat} {st : State} {s s₁ : TcpStreamSession}
  {record held segment : List UInt8} {cut : List (List UInt8)} {frames : List TcpFrame}
  {f : TcpFrame}

theorem not_forward_of_delivered {log : List (Nat × Action)}
    (h : auditOf p log = cut.map .delivered) (port : BitVec 16) (bytes : List UInt8) :
    (p,.forward port bytes) ∉ log := by
  intro hmem
  have := mem_auditOf (a := .forward port bytes) rfl hmem
  rw [h] at this
  simp at this

/-- Before the last segment nothing is forwarded. -/
theorem Holding.early (h : Holding key p st s []) (hrec : HelloRecord record)
    (hcarry : Carries key s.rcvNxt frames cut) (hne : ∀ segment ∈ cut, segment ≠ [])
    (hcut : cut.flatten = record) (hfirst : 6 ≤ (cut.headD []).length) {k : Nat}
    (hk : k < cut.length) (halong : Along Found (handleTcpPacket cfg) st (frames.take k)) :
    ∃ st' outs s', runOut (handleTcpPacket cfg) st (frames.take k) = .ok (st',outs) ∧
      Holding key p st' s' (cut.take k).flatten ∧
      s'.rcvNxt = s.rcvNxt + BitVec.ofNat 32 (cut.take k).flatten.length ∧
      auditOf p (actionsOf outs) = (cut.take k).map .delivered := by
  have hlen : (cut.take k).length = k := List.length_take_of_le hk.le
  have hsplit := List.take_append_drop k cut
  have hinit : Carries key s.rcvNxt (frames.take k) (cut.take k) := by
    rw [← hsplit] at hcarry
    have := (Carries.append _ hcarry).1
    rwa [hlen] at this
  have hflat : (cut.take k).flatten ++ (cut.drop k).flatten = record := by
    rw [← List.flatten_append,hsplit,hcut]
  have hrest : 0 < (cut.drop k).flatten.length := by
    rw [List.drop_eq_getElem_cons hk,List.flatten_cons,List.length_append]
    have := List.length_pos_iff.mpr (hne _ (List.getElem_mem hk))
    omega
  have hlt : ([] ++ (cut.take k).flatten).length < record.length := by
    rw [← hflat,List.nil_append,List.length_append]
    omega
  have hstart : ∀ segment ∈ (cut.take k).head?, StartsOrGoesOn [] segment := by
    intro segment hseg
    refine Or.inr ⟨rfl,?_⟩
    cases cut with
    | nil => cases hk
    | cons x xs =>
      cases k with
      | zero => cases hseg
      | succ k =>
        cases hseg
        exact hfirst
  have hrun := Holding.run cfg hrec (cut.take k) h hinit
    (fun segment hseg => hne segment (List.mem_of_mem_take hseg))
    (hflat ▸ List.prefix_append _ _) hlt hstart halong
  rwa [List.nil_append] at hrun

/-- The last segment, and the log of the whole run. -/
theorem Holding.last (h : Holding key p st s held) (hrec : HelloRecord record)
    (hf : DataFrame key s.rcvNxt segment f) (hne : segment ≠ [])
    (hmeets : st.engine.Meets f.call s₁) (hwhole : held ++ segment = record)
    (hstart : StartsOrGoesOn held segment) :
    ∃ st' out c₀ c verdict, handleTcpPacket cfg st f = .ok (st',out) ∧
      c₀.audit = [.delivered segment] ∧ applyPolicy cfg f c₀ record = .ok (c,verdict) ∧
      auditOf p out.actions = c.audit ∧ (verdict = .reset → (p,.rst) ∈ out.actions) ∧
      (st'.engine.heap.mem p = none ↔ verdict = .reset) := by
  obtain ⟨t,c₀,c,verdict,hfind,hc₀,hpolicy,haddr,hrun,hserving⟩ :=
    h.complete cfg hrec hf hne hmeets hwhole hstart
  obtain ⟨st',out,hfinish,hlog,hgone⟩ := finish_segment segment
    verdict hserving hf.key hfind haddr
  refine ⟨st',out,c₀,c,verdict,hrun.trans hfinish,hc₀,hpolicy,?_,?_,hgone⟩
  · rw [hlog,auditOf_finalLog,← haddr,auditOf_self]
  · intro hreset
    rw [hlog,Verdict.finalLog,if_pos hreset,← haddr]
    simp [Conn.tagged,Conn.emit]

/-- The run over all segments of a cut. -/
theorem Holding.whole (h : Holding key p st s []) (hrec : HelloRecord record)
    (hcarry : Carries key s.rcvNxt frames cut) (hne : ∀ segment ∈ cut, segment ≠ [])
    (hcut : cut.flatten = record) (hfirst : 6 ≤ (cut.headD []).length)
    (halong : Along Found (handleTcpPacket cfg) st frames) :
    ∃ st' outs f c₀ c verdict, runOut (handleTcpPacket cfg) st frames = .ok (st',outs) ∧
      (∃ segment, c₀.audit = [.delivered segment]) ∧
      applyPolicy cfg f c₀ record = .ok (c,verdict) ∧
      (∃ early : List (List UInt8),
        auditOf p (actionsOf outs) = early.map .delivered ++ c.audit) ∧
      (verdict = .reset → (p,.rst) ∈ actionsOf outs) ∧
      (st'.engine.heap.mem p = none ↔ verdict = .reset) := by
  rcases List.eq_nil_or_concat' cut with rfl | ⟨init,segment,rfl⟩
  · simp at hfirst
  · have hk : init.length < (init ++ [segment]).length := by simp
    have htake : (init ++ [segment]).take init.length = init := List.take_left
    obtain ⟨_,hlast⟩ := Carries.append init hcarry
    cases hdrop : frames.drop init.length with
    | nil =>
      rw [hdrop] at hlast
      exact hlast.elim
    | cons f rest =>
      rw [hdrop] at hlast
      cases rest with
      | cons g rest => exact hlast.2.elim
      | nil =>
        have hframes : frames = frames.take init.length ++ [f] := by
          rw [← hdrop,List.take_append_drop]
        rw [hframes] at halong
        obtain ⟨hbefore,hafter⟩ := Along.append halong
        obtain ⟨st₁,outs,s',hrun,hholding,hnxt,haudit⟩ :=
          h.early cfg hrec hcarry hne hcut hfirst hk hbefore
        rw [htake] at hholding hnxt haudit
        obtain ⟨⟨s₁,hmeets⟩,_⟩ := hafter _ _ hrun
        have hstart : StartsOrGoesOn init.flatten segment := by
          cases init with
          | nil => exact Or.inr ⟨rfl,hfirst⟩
          | cons x xs =>
            left
            rw [List.flatten_cons,List.length_append]
            exact Nat.le_add_right_of_le hfirst
        have hf := hlast.1
        rw [← hnxt] at hf
        have hwhole : init.flatten ++ segment = record := by
          rw [← hcut,List.flatten_append]
          simp
        obtain ⟨st',out,c₀,c,verdict,hstep,hc₀,hpolicy,hlog,hrst,hgone⟩ :=
          hholding.last cfg hrec hf (hne segment (by simp)) hmeets hwhole hstart
        have hall : actionsOf (outs ++ [out]) = actionsOf outs ++ out.actions := by
          simp [actionsOf]
        refine ⟨st',outs ++ [out],f,c₀,c,verdict,?_,⟨segment,hc₀⟩,hpolicy,⟨init,?_⟩,?_,hgone⟩
        · rw [hframes]
          exact (runOut_append ..).mpr ⟨_,_,_,hrun,
            (runOut_cons ..).mpr ⟨_,_,_,hstep,rfl,rfl⟩,rfl⟩
        · rw [hall,auditOf,ofSession_append,← auditOf,← auditOf,haudit,hlog]
        · intro hreset
          rw [hall]
          exact List.mem_append_right _ (hrst hreset)

/-- A cut whose first segment has the handshake type leaves the policy as it is. -/
theorem segmentationFree_of_legible (hrec : HelloRecord record) (hcut : cut.flatten = record)
    (hne : ∀ segment ∈ cut, segment ≠ []) (hfirst : 6 ≤ (cut.headD []).length)
    (hlegible : Legible record) : SegmentationFree record cut := by
  intro cfg key p st s frames hreached hst hmem hfresh hcarry
  have hholding := hfresh.holding ⟨hreached.engineWf,hst,hmem⟩
  refine ⟨fun k hk halong => ?_,fun halong => ?_⟩
  · obtain ⟨st',outs,_,hrun,_,_,haudit⟩ :=
      hholding.early cfg hrec hcarry hne hcut hfirst hk halong
    exact ⟨st',outs,hrun,not_forward_of_delivered haudit⟩
  · obtain ⟨st',outs,f,c₀,c,verdict,hrun,⟨segment,hc₀⟩,hpolicy,⟨early,haudit⟩,hrst,hgone⟩ :=
      hholding.whole cfg hrec hcarry hne hcut hfirst halong
    have hin : ∀ a : Action, a ∈ c.audit → (p,a) ∈ actionsOf outs := by
      intro a ha
      apply of_mem_auditOf
      rw [haudit]
      exact List.mem_append_right _ ha
    have hout : ∀ a : Action, a.isAudit = true → (∀ bytes, a ≠ .delivered bytes) →
        (p,a) ∈ actionsOf outs → a ∈ c.audit := by
      intro a ha hdelivered hmem
      have := mem_auditOf ha hmem
      rw [haudit,List.mem_append,List.mem_map] at this
      rcases this with ⟨bytes,_,rfl⟩ | h
      · exact absurd rfl (hdelivered bytes)
      · exact h
    refine ⟨st',outs,hrun,?_⟩
    rcases applyPolicy_legible hrec hlegible hpolicy with ⟨hforbidden,rfl,hblock⟩ |
      ⟨hallowed,hrouted⟩
    · rw [hc₀] at hblock
      refine ⟨⟨fun _ => hforbidden,fun _ => ⟨serverName record,hin _ (by simp [hblock])⟩⟩,
        fun _ => ⟨hgone.mpr rfl,hrst rfl,?_⟩,fun _ => Or.inl hforbidden⟩
      intro port bytes hforward
      have := hout _ rfl (by simp) hforward
      rw [hblock] at this
      simp at this
    · refine ⟨⟨?_,fun h => absurd h hallowed⟩,fun h => absurd h hallowed,?_⟩
      · intro hblock
        obtain ⟨sni,hsni⟩ := hblock
        exact absurd (hout _ rfl (by simp) hsni) (hrouted.not_block (by simp [hc₀]))
      · intro hnone
        rw [hgone.mp hnone] at hrouted
        right
        rcases hrouted.reset with ⟨bytes,hscan⟩ | ⟨port,bytes,hforward⟩
        · exact Or.inl ⟨bytes,hin _ hscan⟩
        · exact Or.inr ⟨port,bytes,hin _ hforward⟩

end Whole

section Setting

theorem openedSession_fresh : FreshEstablished openedSession :=
  ⟨rfl,rfl,rfl,rfl,rfl,rfl,rfl,rfl,rfl⟩

/-- A frame of the sample connection for a segment. -/
def segmentFrame (seq : BitVec 32) (segment : List UInt8) : TcpFrame :=
  if h : segment.length < 65536 then sampleFrame thAck seq segment h
  else emptyFrame thAck seq

def segmentFrames : BitVec 32 → List (List UInt8) → List TcpFrame
  | _, [] => []
  | seq, segment :: segments =>
      segmentFrame seq segment :: segmentFrames (seq + BitVec.ofNat 32 segment.length) segments

theorem segmentFrame_data {seq : BitVec 32} {segment : List UInt8} (h : segment.length < 65536) :
    DataFrame ⟨1,2,3,4⟩ seq segment (segmentFrame seq segment) := by
  rw [segmentFrame,dif_pos h]
  have hflag : ∀ flag, (sampleFrame thAck seq segment h).packet.has flag =
      decide (thAck &&& flag ≠ 0#8) := sampleCall_has thAck seq segment h
  refine ⟨?_,rfl,rfl,rfl,?_,?_,?_,?_⟩
  · simp [TcpFrame.headersOk,sampleFrame]
  · rw [hflag]
    decide
  · rw [hflag]
    decide
  · rw [hflag]
    decide
  · rw [hflag]
    decide

theorem segmentFrame_nowNs (seq : BitVec 32) (segment : List UInt8) :
    (segmentFrame seq segment).call.nowNs = 0 := by
  unfold segmentFrame
  split_ifs <;> rfl

theorem segmentFrames_carries (segments : List (List UInt8)) :
    ∀ (seq : BitVec 32), (∀ segment ∈ segments, segment.length < 65536) →
      Carries ⟨1,2,3,4⟩ seq (segmentFrames seq segments) segments := by
  induction segments with
  | nil => exact fun _ _ => trivial
  | cons segment segments ih =>
    intro seq h
    exact ⟨segmentFrame_data (h segment (List.mem_cons_self ..)),
      ih _ fun x hx => h x (List.mem_cons_of_mem _ hx)⟩

/-- The cleanup is not due, and the table finds the session. -/
structure Steady (st : State) : Prop where
  clock : st.engine.lastCleanupNs = 0
  find : st.engine.sessions.find ⟨1,2,3,4⟩ = .ok (some 1)

theorem Steady.cleanup {st : State} (h : Steady st) : st.engine.cleanup 0 = .ok st.engine := by
  have hnot : ¬ (0 - st.engine.lastCleanupNs > tcpCleanupIntervalNs) := by
    rw [h.clock]
    decide
  rw [TcpAssemblerEngine.cleanup,if_neg hnot]
  rfl

theorem Steady.found {st : State} {s : TcpStreamSession} {segment : List UInt8}
    (h : Steady st) (seq : BitVec 32) (hlen : segment.length < 65536)
    (hmem : st.engine.heap.mem 1 = some s) :
    st.engine.Meets (segmentFrame seq segment).call s := by
  refine ⟨st.engine,1,?_,?_,hmem⟩
  · rw [segmentFrame_nowNs]
    exact h.cleanup
  · have hkey : (segmentFrame seq segment).call.packet.key = ⟨1,2,3,4⟩ :=
      (segmentFrame_data hlen).key
    rw [hkey]
    exact h.find

theorem Steady.next {st st' : State} {seq : BitVec 32} {segment : List UInt8} (h : Steady st)
    (hsame : SameTable st (segmentFrame seq segment) st') : Steady st' := by
  obtain ⟨t,ht,hsessions,hclock⟩ := hsame
  rw [segmentFrame_nowNs,h.cleanup] at ht
  cases ht
  exact ⟨hclock.trans h.clock,hsessions ▸ h.find⟩

/-- While the record is not complete, the next segment finds its session. -/
theorem Steady.along (cfg : Config) {record : List UInt8} (hrec : HelloRecord record)
    (segments : List (List UInt8)) :
    ∀ {st : State} {s : TcpStreamSession} {held : List UInt8}, Steady st →
      Holding ⟨1,2,3,4⟩ 1 st s held → (∀ segment ∈ segments, segment ≠ []) →
      (∀ segment ∈ segments, segment.length < 65536) → held ++ segments.flatten = record →
      (∀ segment ∈ segments.head?, StartsOrGoesOn held segment) →
      Along Found (handleTcpPacket cfg) st (segmentFrames s.rcvNxt segments) := by
  induction segments with
  | nil => exact fun _ _ _ _ _ _ => trivial
  | cons segment segments ih =>
    intro st s held hsteady h hne hsmall hwhole hstart
    have hlen := hsmall segment (List.mem_cons_self ..)
    have hmeets := hsteady.found s.rcvNxt hlen h.serving.mem
    refine ⟨⟨s,hmeets⟩,fun st₁ out₁ hstep => ?_⟩
    cases segments with
    | nil => trivial
    | cons x xs =>
      have hpos : 0 < x.length := List.length_pos_iff.mpr (hne x (by simp))
      have hsplit : (held ++ segment) ++ (x :: xs).flatten = record := by
        rw [← hwhole,List.flatten_cons (l := segment),List.append_assoc]
      have hshort : (held ++ segment).length < record.length := by
        rw [← hsplit,List.flatten_cons]
        simp only [List.length_append]
        omega
      have hlong : 6 ≤ (held ++ segment).length := by
        rw [List.length_append]
        rcases hstart segment rfl with hheld | ⟨_,hseg⟩
        · omega
        · omega
      obtain ⟨st',out,s',hrun,hholding,hnxt,_,hsame⟩ := h.wait cfg hrec
        (segmentFrame_data hlen) (hne segment (by simp)) hmeets
        (hsplit ▸ List.prefix_append _ _) hshort (hstart segment rfl)
      rw [hrun] at hstep
      cases hstep
      rw [← hnxt]
      exact ih (hsteady.next hsame) hholding
        (fun y hy => hne y (List.mem_cons_of_mem _ hy))
        (fun y hy => hsmall y (List.mem_cons_of_mem _ hy)) hsplit (fun _ _ => Or.inl hlong)

theorem openedState_steady : Steady openedState := ⟨rfl,openedState_find⟩

variable {record : List UInt8} {cut : List (List UInt8)}

theorem segment_lt (hrec : HelloRecord record) (hcut : cut.flatten = record) :
    ∀ segment ∈ cut, segment.length < 65536 := by
  intro segment hseg
  have hle : segment.length ≤ record.length := by
    rw [← hcut]
    exact (List.sublist_flatten_of_mem hseg).length_le
  have hcomplete := hrec.complete
  have hbounded := hrec.bounded
  omega

/-- A record that the parser cannot read is passed on, although it has no server name. -/
theorem legible_of_segmentationFree (hrec : HelloRecord record) (hcut : cut.flatten = record)
    (hne : ∀ segment ∈ cut, segment ≠ []) (hfirst : 6 ≤ (cut.headD []).length)
    (h : SegmentationFree record cut) : Legible record := by
  by_contra hlegible
  have hsmall := segment_lt hrec hcut
  have hholding := openedSession_fresh.holding openedState_serving
  have hcarry := segmentFrames_carries cut openedSession.rcvNxt hsmall
  have hstart : ∀ segment ∈ cut.head?, StartsOrGoesOn [] segment := by
    intro segment hseg
    cases cut with
    | nil => cases hseg
    | cons x xs =>
      cases hseg
      exact Or.inr ⟨rfl,hfirst⟩
  have halong := Steady.along mixedConfig hrec cut openedState_steady hholding hne hsmall
    hcut hstart
  obtain ⟨st',outs,hrun,hpolicy⟩ := (h mixedConfig _ 1 openedState openedSession _
    openedState_reached openedState_serving.stored openedState_mem openedSession_fresh hcarry).2
    halong
  obtain ⟨_,_,f,c₀,c,verdict,hrun',⟨segment,hc₀⟩,happly,⟨early,haudit⟩,_,_⟩ :=
    hholding.whole mixedConfig hrec hcarry hne hcut hfirst halong
  rw [hrun] at hrun'
  cases hrun'
  obtain ⟨hforbidden,hrouted⟩ := applyPolicy_illegible hrec hlegible happly
  obtain ⟨sni,hsni⟩ := hpolicy.blocked.mpr hforbidden
  have hmem := mem_auditOf rfl hsni
  rw [haudit] at hmem
  have hnot : .policyBlock sni ∉ c.audit := hrouted.not_block (by simp [hc₀])
  simp [hnot] at hmem

/-- A first segment without the handshake type is forwarded as it comes. -/
theorem holdHello_short {s : TcpStreamSession} {segment : List UInt8}
    (hempty : s.clientHelloBuf = []) (hshort : segment.length < 6) :
    holdHello s segment = .pass s segment := by
  have hnot : ¬ (s.tlsStatus = .idle ∧ (s.clientHelloBuf ≠ [] ∨ startsHello segment = true)) := by
    simp only [hempty,startsHello,ge_iff_le,not_and,Nat.not_le.mpr hshort]
    simp
  rw [holdHello,if_neg hnot]

theorem applyPolicy_short {cfg : Config} {f : TcpFrame} {c : Conn} {segment : List UInt8}
    (hidle : c.session.tlsStatus = .idle) (hshort : segment.length < 6) :
    applyPolicy cfg f c segment = inspect cfg f c segment := by
  have hparse : parseClientHello segment = .ok {} := by
    rw [parseClientHello,if_pos (by omega)]
  simp only [applyPolicy,hparse,bind,Except.bind,dispatch,hidle,ne_eq,not_true_eq_false,if_false,
    Bool.false_eq_true]

/-- Bytes that are no attack are forwarded to the port that the address has. -/
theorem inspect_forwards {cfg : Config} {f : TcpFrame} {c c' : Conn} {verdict : Verdict}
    {bytes : List UInt8} {port : BitVec 16} (hclean : f.attack = false) (hport : port ≠ 0)
    (htarget : targetPort cfg f (c.scanBytes f bytes).session = .ok port)
    (h : inspect cfg f c bytes = .ok (c',verdict)) : .forward port bytes ∈ c'.audit := by
  simp only [inspect,hclean,Bool.false_eq_true,if_false] at h
  obtain ⟨port',htarget',haudit,_⟩ := relay_trail h
  rw [htarget] at htarget'
  cases htarget'
  rw [haudit,if_neg hport]
  simp

theorem handleReady_short {cfg : Config} {f : TcpFrame} {c : Conn} {segment : List UInt8}
    (hempty : c.session.clientHelloBuf = []) (hidle : c.session.tlsStatus = .idle)
    (hshort : segment.length < 6) : handleReady cfg f c segment = inspect cfg f c segment := by
  rw [handleReady_pass cfg (holdHello_short hempty hshort)]
  exact applyPolicy_short hidle hshort

/-- A first segment without the handshake type goes to the port that the address has. -/
theorem Holding.forwards (cfg : Config) {key : TcpKey} {p : Nat} {st : State}
    {s s₁ : TcpStreamSession} {f : TcpFrame} {segment : List UInt8} {port : BitVec 16}
    (h : Holding key p st s []) (hf : DataFrame key s.rcvNxt segment f) (hne : segment ≠ [])
    (hmeets : st.engine.Meets f.call s₁) (hshort : segment.length < 6)
    (hclean : f.attack = false) (hport : port ≠ 0)
    (htarget : ∀ t : TcpStreamSession, t.backendPort = s.backendPort →
      targetPort cfg f t = .ok port) :
    ∃ st' out, handleTcpPacket cfg st f = .ok (st',out) ∧
      (p,.forward port segment) ∈ out.actions := by
  obtain ⟨t,c,verdict,_,hfind,hready,haddr,hrun,hserving⟩ := h.handle cfg hf hne hmeets
  obtain ⟨st',out,hfinish,hlog,_⟩ := finish_segment segment verdict
    hserving hf.key hfind haddr
  refine ⟨st',out,hrun.trans hfinish,?_⟩
  rw [handleReady_short h.clientHelloBuf h.tlsStatus hshort] at hready
  have hforward := inspect_forwards hclean hport (htarget _ rfl) hready
  apply of_mem_auditOf
  rw [hlog,auditOf_finalLog,← haddr,auditOf_self]
  exact hforward

theorem segmentFrame_target {seq : BitVec 32} {segment : List UInt8}
    (h : segment.length < 65536) {s : TcpStreamSession} (hport : s.backendPort = 0) :
    targetPort mixedConfig (segmentFrame seq segment) s = .ok 8000 := by
  have hfind : mixedConfig.registry.findByIpPort 2 (ntohs 4) =
      .ok (some { backendPort := 8000 }) := rfl
  rw [segmentFrame,dif_pos h]
  simp only [targetPort,hport,if_true]
  change (mixedConfig.registry.findByIpPort 2 (ntohs 4) >>= _) = _
  rw [hfind]
  rfl

theorem segmentFrame_attack {seq : BitVec 32} {segment : List UInt8}
    (h : segment.length < 65536) : (segmentFrame seq segment).attack = false := by
  rw [segmentFrame,dif_pos h]
  rfl

theorem first_of_segmentationFree (hrec : HelloRecord record) (hcut : cut.flatten = record)
    (hne : ∀ segment ∈ cut, segment ≠ []) (h : SegmentationFree record cut) :
    6 ≤ (cut.headD []).length := by
  by_contra hfirst
  have hshort : (cut.headD []).length < 6 := Nat.lt_of_not_le hfirst
  have hlong : 6 ≤ record.length := by
    by_contra hlt
    have hbyte := hrec.handshake
    rw [List.getD_eq_getElem?_getD,List.getElem?_eq_none (by omega)] at hbyte
    cases hbyte
  cases cut with
  | nil =>
    rw [← hcut] at hlong
    cases hlong
  | cons segment segments =>
    change segment.length < 6 at hshort
    have hmore : 1 < (segment :: segments).length := by
      cases segments with
      | nil =>
        rw [← hcut] at hlong
        simp only [List.flatten_cons,List.flatten_nil,List.append_nil] at hlong
        omega
      | cons x xs => simp
    have hsmall := segment_lt hrec hcut
    have hlen := hsmall segment (List.mem_cons_self ..)
    have hholding := openedSession_fresh.holding openedState_serving
    have hmeets := openedState_steady.found openedSession.rcvNxt hlen openedState_mem
    obtain ⟨st',out,hstep,hforward⟩ : ∃ st' out, handleTcpPacket mixedConfig openedState _ =
        .ok (st',out) ∧ (1,.forward 8000 segment) ∈ out.actions := hholding.forwards mixedConfig
      (segmentFrame_data hlen) (hne segment (List.mem_cons_self ..)) hmeets hshort
      (segmentFrame_attack hlen) (by decide)
      (fun _ hsame => segmentFrame_target hlen (hsame.trans openedSession_fresh.backendPort))
    obtain ⟨_,outs,hrun,hnone⟩ := (h mixedConfig _ 1 openedState openedSession _
      openedState_reached openedState_serving.stored openedState_mem openedSession_fresh
      (segmentFrames_carries _ openedSession.rcvNxt hsmall)).1 1 hmore
      ⟨⟨_,hmeets⟩,fun _ _ _ => trivial⟩
    obtain ⟨_,_,_,hstep',hnil,rfl⟩ := (runOut_cons ..).mp hrun
    rw [hstep] at hstep'
    cases hstep'
    cases hnil
    apply hnone 8000 segment
    rwa [actionsOf,List.flatMap_singleton]

/-- The policy does not depend on how a record is cut exactly when its first segment has six
bytes or more and the parser can read the record. -/
theorem segmentationFree_iff (record : List UInt8) (hrec : HelloRecord record)
    (cut : List (List UInt8)) (hcut : cut.flatten = record)
    (hne : ∀ segment ∈ cut, segment ≠ []) :
    SegmentationFree record cut ↔ 6 ≤ (cut.headD []).length ∧ Legible record := by
  constructor
  · intro h
    have hfirst := first_of_segmentationFree hrec hcut hne h
    exact ⟨hfirst,legible_of_segmentationFree hrec hcut hne hfirst h⟩
  · intro h
    exact segmentationFree_of_legible hrec hcut hne h.1 h.2

/-- The sample hello is a complete record. -/
theorem sampleHello_record : HelloRecord sampleHello := by
  constructor <;> decide

theorem segmentationFree_sixThenRest :
    SegmentationFree sampleHello [sampleHello.take 6,sampleHello.drop 6] :=
  (segmentationFree_iff sampleHello sampleHello_record _ (by decide) (by decide)).mpr
    (by unfold Legible; decide)

/-- The sample policy with the name `ab` taken out. -/
def blockingConfig : Config := { mixedConfig with blocklist := ⟨[[0x61,0x62]]⟩ }

/-- The record header in one segment and the handshake message in the next. -/
def splitHello : List Event :=
  [.packet { sampleFrame thAck 1 (sampleHello.take 5) (by decide) with
      backend := { socket := some 7 } },
    .packet (sampleFrame thAck 6 (sampleHello.drop 5) (by decide))]

/-- The hello of a forbidden name goes to the backend in two segments, and the policy never
sees it. -/
theorem forwards_forbidden_hello :
    ¬ SegmentationFree sampleHello [sampleHello.take 5,sampleHello.drop 5] ∧
      Forbidden blockingConfig sampleHello ∧ Legible sampleHello ∧
      ∃ st outs, runOut (step blockingConfig) (State.new []) (openingEvents ++ splitHello) =
          .ok (st,outs) ∧
        auditOf 1 (actionsOf outs) =
          [.delivered (sampleHello.take 5),.scan (sampleHello.take 5) false,.target 8000,
            .forward 8000 (sampleHello.take 5),
            .delivered (sampleHello.drop 5),.scan (sampleHello.drop 5) false,.target 8000,
            .forward 8000 (sampleHello.drop 5)] ∧
        (st.engine.heap.mem 1).isSome = true := by
  refine ⟨?_,Or.inr (by decide),by unfold Legible; decide,_,_,rfl,by decide +kernel,
    by decide +kernel⟩
  intro h
  have := first_of_segmentationFree sampleHello_record (by decide) (by decide) h
  revert this
  decide

end Setting

end Aethon.Pipeline
