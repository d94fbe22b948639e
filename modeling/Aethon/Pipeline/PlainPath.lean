import Aethon.Pipeline.Acts

/-!
# Handling outside TLS

The ways that delivered bytes can take through `handle_tcp_packet` when they do not come to the
TLS engine: they are too long for a hello, held, blocked by the policy, or they are scanned and
then dropped as an attack, left without a target, refused by the backend or forwarded.
-/

namespace Aethon.Pipeline

open Framework Tls

section Definitions

variable (cfg : Config) (f : TcpFrame)

/-- The connection and the bytes with which delivered bytes come to the scanner outside TLS. -/
def plainHello (c : Conn) (payload : List UInt8) : Checked (Option (Conn × List UInt8)) :=
  match holdHello c.session payload with
  | .oversize => .ok none
  | .wait _ => .ok none
  | .pass s hello => do
      let c := { c with session := s }
      let info ← parseClientHello hello
      if info.isClientHello then
        let sni := info.sni hello
        if sni = [] ∨ !cfg.blocklist.isAllowed sni then return none
        else
          let svc ← selectService cfg f sni
          let c := (c.routeTls f.tls svc).setMacs f
          return if c.session.tlsStatus = .idle then some (c,hello) else none
      else return if c.session.tlsStatus = .idle then some (c,hello) else none

/-- What `inspect` does. -/
inductive InspectCase (c : Conn) (bytes : List UInt8) : Conn → Verdict → Prop where
  | attack (h : f.attack = true) : InspectCase c bytes (c.scanBytes f bytes).clearHello .reset
  | unrouted : InspectCase c bytes ((c.scanBytes f bytes).emit (.target 0)).clearHello .proceed
  | refused (port : BitVec 16) (d : Conn) (hport : targetPort cfg f c.session = .ok port)
      (h : (((c.scanBytes f bytes).emit (.target port)).emit
        (.forward port bytes)).forwardToBackend f.backend bytes port = (false,d)) :
      InspectCase c bytes d.clearHello .reset
  | forwarded (port : BitVec 16) (d : Conn) (hport : targetPort cfg f c.session = .ok port)
      (h : (((c.scanBytes f bytes).emit (.target port)).emit
        (.forward port bytes)).forwardToBackend f.backend bytes port = (true,d)) :
      InspectCase c bytes
        (d.clearHello.armEpoll cfg.epfd c.session.backendFd).emitAck .reply

/-- What `handleReady` does. -/
inductive ReadyCase (c : Conn) (payload : List UInt8) : Conn → Verdict → Prop where
  | oversize (h : holdHello c.session payload = .oversize) :
      ReadyCase c payload c.clearHello .reset
  | held (s : TcpStreamSession) (h : holdHello c.session payload = .wait s) :
      ReadyCase c payload ({ c with session := s } : Conn).emitAck .reply
  | blocked (s : TcpStreamSession) (hello sni : List UInt8)
      (h : holdHello c.session payload = .pass s hello) :
      ReadyCase c payload
        (({ c with session := s } : Conn).emit (.policyBlock sni)).clearHello .reset
  | fed (c' : Conn) (verdict : Verdict) (hello : List UInt8) (acts : List Action)
      (hlog : c'.log = c.log ++ acts) (h : .feed hello ∈ acts) : ReadyCase c payload c' verdict
  | inspected (d : Conn) (hello : List UInt8) (c' : Conn) (verdict : Verdict)
      (h : plainHello cfg f c payload = .ok (some (d,hello)))
      (hcase : InspectCase cfg f d hello c' verdict) : ReadyCase c payload c' verdict

end Definitions

section Cases

variable {cfg : Config} {f : TcpFrame} {c c' : Conn} {verdict : Verdict}

theorem inspect_cases {bytes : List UInt8} (h : inspect cfg f c bytes = .ok (c',verdict)) :
    InspectCase cfg f c bytes c' verdict := by
  unfold inspect at h
  dsimp only at h
  split_ifs at h with hattack
  · cases h
    exact InspectCase.attack hattack
  · unfold relay at h
    obtain ⟨port,hport,hrest⟩ := (bind_ok_iff ..).mp h
    dsimp only at hrest
    split_ifs at hrest with hzero
    · split at hrest
      · rename_i d hd
        cases hrest
        exact InspectCase.refused port d hport hd
      · rename_i d hd
        cases hrest
        exact InspectCase.forwarded port d hport hd
    · cases hrest
      rw [not_not.mp hzero]
      exact InspectCase.unrouted

/-- The log only grows. -/
theorem Acts.log {R : TcpStreamSession → ServiceConfig → Prop} (h : Acts R c c') :
    ∃ acts, c'.log = c.log ++ acts := by
  induction h with
  | refl => exact ⟨[],(List.append_nil _).symm⟩
  | step _ hact ih =>
    obtain ⟨acts,hlog⟩ := ih
    have hone : ∀ {a b : Conn}, Act R a b → ∃ acts, b.log = a.log ++ acts := by
      intro a b hact
      cases hact with
      | calm hcalm =>
        obtain ⟨acts,hlog,_⟩ := hcalm.log
        exact ⟨acts,hlog⟩
      | forward io bytes port =>
        obtain ⟨_,_,_,_,acts,hd,_⟩ :=
          BackendOnly.forwardToBackend (a.emit (.forward port bytes)) io bytes port
        rw [hd]
        exact ⟨.forward port bytes :: acts,by simp [Conn.emit]⟩
      | route io svc hssl _ => exact ⟨[.tlsInit],by simp [Conn.routeTls,hssl,Conn.emit]⟩
      | flush io =>
        obtain ⟨_,_,_,_,acts,hd,_⟩ := BackendOnly.flushBackendTx a io
        rw [hd]
        exact ⟨acts,rfl⟩
      | drop fd _ => exact ⟨[],(List.append_nil _).symm⟩
    obtain ⟨acts',hlog'⟩ := hone hact
    exact ⟨acts ++ acts',by rw [hlog',hlog,List.append_assoc]⟩

/-- The TLS branch gives its bytes to the TLS engine. -/
theorem tlsPath_feeds {hello : List UInt8} (h : tlsPath cfg f c hello = .ok (c',verdict)) :
    ∃ acts, c'.log = c.log ++ .feed hello :: acts := by
  have hacts : Acts (fun _ _ => True) (c.emit (.feed hello)).clearHello c' := by
    have hrefl : Acts (fun _ _ => True) (c.emit (.feed hello)).clearHello
        (c.emit (.feed hello)).clearHello := Acts.refl _
    unfold tlsPath at h
    dsimp only at h
    split at h
    · have hstep := hrefl.then_calm (Calm.stepHandshake _ f.tls)
      split at h
      · cases h
        exact hstep.then_calm (Calm.sendTcpSegmentedData _ _ _)
      · exact tlsData_acts hstep h
    · exact tlsData_acts hrefl h
  obtain ⟨acts,hlog⟩ := hacts.log
  refine ⟨acts,?_⟩
  rw [hlog]
  simp [Conn.clearHello,Conn.emit]

theorem dispatch_cases {hello : List UInt8} (h : dispatch cfg f c hello = .ok (c',verdict)) :
    (∃ acts, c'.log = c.log ++ .feed hello :: acts) ∨
      c.session.tlsStatus = .idle ∧ InspectCase cfg f c hello c' verdict := by
  unfold dispatch at h
  split_ifs at h with hidle
  · exact Or.inl (tlsPath_feeds h)
  · exact Or.inr ⟨not_not.mp hidle,inspect_cases h⟩

/-- Routing changes the TLS status and the port at most. -/
theorem routeTls_frame (c : Conn) (io : TlsIo) (svc : Option ServiceConfig) :
    ∃ status port acts, c.routeTls io svc = { c with
        session := { c.session with tlsStatus := status, backendPort := port }
        log := c.log ++ acts } ∧ ∀ a ∈ acts, a = .tlsInit := by
  have hsame : ∃ status port acts, c = { c with
      session := { c.session with tlsStatus := status, backendPort := port }
      log := c.log ++ acts } ∧ ∀ a ∈ acts, a = Action.tlsInit :=
    ⟨c.session.tlsStatus,c.session.backendPort,[],by rw [List.append_nil],by simp⟩
  unfold Conn.routeTls
  split
  · split
    · exact ⟨_,_,[.tlsInit],rfl,by simp⟩
    · exact hsame
  · exact hsame

theorem handleReady_cases {payload : List UInt8}
    (h : handleReady cfg f c payload = .ok (c',verdict)) :
    ReadyCase cfg f c payload c' verdict := by
  unfold handleReady at h
  split at h
  · rename_i hhold
    cases h
    exact ReadyCase.oversize hhold
  · rename_i s hhold
    cases h
    exact ReadyCase.held s hhold
  · rename_i s hello hhold
    unfold applyPolicy at h
    obtain ⟨info,hinfo,hrest⟩ := (bind_ok_iff ..).mp h
    split at hrest
    · rename_i hclient
      dsimp only at hrest
      split at hrest
      · cases hrest
        exact ReadyCase.blocked s hello _ hhold
      · rename_i hok
        obtain ⟨svc,hsvc,hgo⟩ := (bind_ok_iff ..).mp hrest
        rcases dispatch_cases hgo with ⟨acts,hlog⟩ | ⟨hidle,hcase⟩
        · obtain ⟨_,_,before,hbefore,_⟩ := routeTls_frame { c with session := s } f.tls svc
          apply ReadyCase.fed c' verdict hello (before ++ .feed hello :: acts)
          · rw [hlog,Conn.setMacs,hbefore,List.append_assoc]
          · simp
        · refine ReadyCase.inspected _ hello c' verdict ?_ hcase
          simp only [plainHello,hhold,hinfo,bind,Except.bind,hclient,if_true,if_neg hok,hsvc,hidle]
          rfl
    · rename_i hplain
      rcases dispatch_cases hrest with ⟨acts,hlog⟩ | ⟨hidle,hcase⟩
      · exact ReadyCase.fed c' verdict hello (.feed hello :: acts) hlog (by simp)
      · refine ReadyCase.inspected _ hello c' verdict ?_ hcase
        dsimp only at hidle
        simp only [plainHello,hhold,hinfo,bind,Except.bind,if_neg hplain,hidle,if_true]
        rfl

/-- Before the scanner, bytes outside TLS change the hello buffer, the port and the addresses of
the session at most. -/
theorem plainHello_frame {d : Conn} {payload hello : List UInt8}
    (h : plainHello cfg f c payload = .ok (some (d,hello))) :
    ∃ s port clientMac serverMac acts, holdHello c.session payload = .pass s hello ∧
      d = { c with
        session := { c.session with
          clientHelloBuf := s.clientHelloBuf
          tlsStatus := .idle
          backendPort := port
          clientMac := clientMac
          serverMac := serverMac }
        log := c.log ++ acts } ∧ ∀ a ∈ acts, a = .tlsInit := by
  unfold plainHello at h
  split at h
  · cases h
  · cases h
  · rename_i s bytes hhold
    have hs := holdHello_session (Or.inr ⟨bytes,hhold⟩)
    obtain ⟨info,_,hrest⟩ := (bind_ok_iff ..).mp h
    split at hrest
    · dsimp only at hrest
      split at hrest
      · cases hrest
      · obtain ⟨svc,_,hgo⟩ := (bind_ok_iff ..).mp hrest
        obtain ⟨status,port,acts,hroute,hacts⟩ := routeTls_frame { c with session := s } f.tls svc
        generalize hprep : (Conn.routeTls { c with session := s } f.tls svc).setMacs f = e at hgo
        split_ifs at hgo with hidle
        · cases hgo
          refine ⟨s,port,f.etherShost,f.etherDhost,acts,hhold,?_,hacts⟩
          rw [hroute] at hprep
          subst hprep
          rw [← hidle,Conn.setMacs,hs]
        · cases hgo
    · split_ifs at hrest with hidle
      · cases hrest
        refine ⟨s,s.backendPort,s.clientMac,s.serverMac,[],hhold,?_,by simp⟩
        dsimp only at hidle
        rw [List.append_nil,← hidle,hs]
      · cases hrest

/-- The held bytes come before the delivered ones. -/
theorem holdHello_pass {s t : TcpStreamSession} {payload hello : List UInt8}
    (hidle : s.tlsStatus = .idle) (h : holdHello s payload = .pass t hello) :
    hello = s.clientHelloBuf ++ payload := by
  unfold holdHello at h
  dsimp only at h
  split at h
  · split_ifs at h
    · cases h
      rfl
    · cases h
      rfl
  · rename_i hno
    have hempty : s.clientHelloBuf = [] := by
      by_contra hne
      exact hno ⟨hidle,Or.inl hne⟩
    cases h
    rw [hempty,List.nil_append]

/-- Bytes are held that start a hello or continue one, up to the size of a record. -/
theorem holdHello_wait_bound {s t : TcpStreamSession} {payload : List UInt8}
    (h : holdHello s payload = .wait t) :
    (s.clientHelloBuf ≠ [] ∨ startsHello payload = true) ∧
      s.clientHelloBuf.length + payload.length ≤ maxClientHello := by
  unfold holdHello at h
  dsimp only at h
  split_ifs at h with hstart hsize
  exact ⟨hstart.2,Nat.le_of_not_gt hsize⟩

theorem holdHello_wait {s t : TcpStreamSession} {payload : List UInt8}
    (h : holdHello s payload = .wait t) :
    t = { s with clientHelloBuf := s.clientHelloBuf ++ payload } := by
  unfold holdHello at h
  dsimp only at h
  split_ifs at h
  cases h
  rfl

end Cases

end Aethon.Pipeline
