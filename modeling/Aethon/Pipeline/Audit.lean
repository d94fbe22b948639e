import Aethon.Pipeline.Trail

/-!
# The audit trail of a call

Delivery, policy, scan, routing and forwarding are what a log has to be audited for. Everything
else that the handling of a packet logs is left out of the trail, so each way through it has a
short trail that says which bytes were scanned and which were forwarded.
-/

namespace Aethon.Pipeline

open Framework Tls

namespace Action

def isAudit : Action → Bool
  | .delivered _ => true
  | .policyBlock _ => true
  | .scan _ _ => true
  | .target _ => true
  | .forward _ _ => true
  | _ => false

def deliveredBytes : Action → List UInt8
  | .delivered payload => payload
  | _ => []

def scannedBytes : Action → List UInt8
  | .scan bytes _ => bytes
  | _ => []

def forwardedBytes : Action → List UInt8
  | .forward _ bytes => bytes
  | _ => []

/-- A scan that reports an attack, or a block by the policy. -/
def stops : Action → Bool
  | .scan _ attack => attack
  | .policyBlock _ => true
  | _ => false

theorem isAudit_of_stops {a : Action} (h : a.stops = true) : a.isAudit = true := by
  cases a <;> first | rfl | cases h

end Action

def Conn.audit (c : Conn) : List Action := c.log.filter Action.isAudit

/-- Nothing to audit happens, and the hello buffer and the TLS status stay. -/
structure Hushed (c c' : Conn) : Prop where
  audit : c'.audit = c.audit
  hello : c'.session.clientHelloBuf = c.session.clientHelloBuf
  status : c'.session.tlsStatus = c.session.tlsStatus

/-- The audit trail is part of the trail. -/
theorem audit_eq (c : Conn) : c.audit = c.trail.filter Action.isAudit := by
  rw [Conn.audit,Conn.trail,List.filter_filter]
  refine List.filter_congr ?_
  intro a _
  cases a <;> rfl

theorem Unnoted.hushed {c c' : Conn} (h : Unnoted c c') : Hushed c c' :=
  ⟨by rw [audit_eq,audit_eq,h.trail],h.hello,h.status⟩

theorem audit_emit (c : Conn) {a : Action} (h : a.isAudit = true) :
    (c.emit a).audit = c.audit ++ [a] := by
  simp [Conn.audit,Conn.emit,h]

theorem Passage.audit {bytes : List UInt8} {verdict : Verdict} {trail : List Action}
    (h : Passage bytes verdict trail) : trail.filter Action.isAudit = trail := by
  cases h <;> rfl

section Trails

variable {cfg : Config} {f : TcpFrame} {c c' : Conn} {verdict : Verdict}

theorem relay_trail {bytes : List UInt8} (h : relay cfg f c bytes = .ok (c',verdict)) :
    ∃ port, targetPort cfg f c.session = .ok port ∧
      c'.audit = c.audit ++ .target port :: (if port = 0 then [] else [.forward port bytes]) ∧
      (port = 0 → verdict = .proceed) ∧ c'.session.clientHelloBuf = [] ∧
      c'.session.tlsStatus = c.session.tlsStatus := by
  obtain ⟨port,hport,htrail,hrest⟩ := relay_course h
  refine ⟨port,hport,?_,hrest⟩
  rw [audit_eq,audit_eq,htrail,List.filter_append]
  split_ifs <;> rfl

theorem inspect_trail {bytes : List UInt8} (h : inspect cfg f c bytes = .ok (c',verdict)) :
    ∃ trail, Passage bytes verdict trail ∧ c'.audit = c.audit ++ trail ∧
      c'.session.clientHelloBuf = [] ∧ c'.session.tlsStatus = c.session.tlsStatus := by
  obtain ⟨trail,hpassage,htrail,hrest⟩ := inspect_course h
  refine ⟨trail,hpassage,?_,hrest⟩
  rw [audit_eq,audit_eq,htrail,List.filter_append,hpassage.audit]

theorem tlsPath_trail {hello : List UInt8} (hstatus : c.session.tlsStatus ≠ .idle)
    (h : tlsPath cfg f c hello = .ok (c',verdict)) :
    ∃ trail, (trail = [] ∧ verdict ≠ .reset ∨ ∃ bytes, Passage bytes verdict trail) ∧
      c'.audit = c.audit ++ trail ∧ c'.session.tlsStatus ≠ .idle := by
  obtain ⟨trail,hcourse,htrail,hafter⟩ := tlsPath_course h
  have haudit : c'.audit = c.audit ++ trail.filter Action.isAudit := by
    rw [audit_eq,audit_eq,htrail,List.filter_append]
    rfl
  have hopen : c'.session.tlsStatus ≠ .idle := by
    rw [hafter]
    exact TlsIo.statusAfter_ne_idle hstatus
  cases hreads : f.tls.reads c.session.tlsStatus with
  | none =>
    rw [hreads] at hcourse
    rw [hcourse.1] at haudit
    exact ⟨[],Or.inl ⟨rfl,hcourse.2⟩,haudit,hopen⟩
  | some bytes =>
    rw [hreads] at hcourse
    rw [Passage.audit hcourse] at haudit
    exact ⟨trail,Or.inr ⟨bytes,hcourse⟩,haudit,hopen⟩

/-- What becomes of the delivered bytes. -/
inductive Handled (c : Conn) (payload : List UInt8) (c' : Conn) : Verdict → List Action → Prop where
  | dropped : Handled c payload c' .reset []
  | held (verdict : Verdict)
      (hhello : c'.session.clientHelloBuf = c.session.clientHelloBuf ++ payload) :
      Handled c payload c' verdict []
  | blocked (sni : List UInt8) : Handled c payload c' .reset [.policyBlock sni]
  | tls (verdict : Verdict) (trail : List Action) (hstatus : c'.session.tlsStatus ≠ .idle)
      (htrail : trail = [] ∨ ∃ bytes, Passage bytes verdict trail) :
      Handled c payload c' verdict trail
  | plain (verdict : Verdict) (trail : List Action) (hello : List UInt8)
      (hhello : c.session.tlsStatus = .idle → hello = c.session.clientHelloBuf ++ payload)
      (hempty : c'.session.clientHelloBuf = []) (htrail : Passage hello verdict trail) :
      Handled c payload c' verdict trail

/-- Without a policy block, only an attack or a failed forward ends the session. -/
theorem dispatch_passage {hello : List UInt8} (h : dispatch cfg f c hello = .ok (c',verdict)) :
    ∃ trail, c'.audit = c.audit ++ trail ∧
      (trail = [] ∧ verdict ≠ .reset ∨ ∃ bytes, Passage bytes verdict trail) := by
  unfold dispatch at h
  split_ifs at h with hidle
  · obtain ⟨trail,htrail,haudit,_⟩ := tlsPath_trail hidle h
    exact ⟨trail,haudit,htrail⟩
  · obtain ⟨trail,htrail,haudit,_,_⟩ := inspect_trail h
    exact ⟨trail,haudit,Or.inr ⟨hello,htrail⟩⟩

theorem dispatch_trail {hello payload : List UInt8} {c₀ : Conn}
    (hhello : c₀.session.tlsStatus = .idle → hello = c₀.session.clientHelloBuf ++ payload)
    (h : dispatch cfg f c hello = .ok (c',verdict)) :
    ∃ trail, c'.audit = c.audit ++ trail ∧ Handled c₀ payload c' verdict trail := by
  unfold dispatch at h
  split_ifs at h with hidle
  · obtain ⟨trail,htrail,haudit,hstatus⟩ := tlsPath_trail hidle h
    exact ⟨trail,haudit,Handled.tls verdict trail hstatus (htrail.imp_left And.left)⟩
  · obtain ⟨trail,htrail,haudit,hempty,_⟩ := inspect_trail h
    exact ⟨trail,haudit,Handled.plain verdict trail hello hhello hempty htrail⟩

theorem routeTls_audit (c : Conn) (f : TcpFrame) (svc : Option ServiceConfig) :
    ((c.routeTls f.tls svc).setMacs f).audit = c.audit := by
  cases svc with
  | none => rfl
  | some svc =>
    cases hssl : svc.hasSslCtx with
    | false =>
      simp only [Conn.routeTls,hssl]
      rfl
    | true =>
      simp only [Conn.routeTls,hssl,if_true]
      simp [Conn.audit,Conn.setMacs,Conn.emit,Action.isAudit]

theorem applyPolicy_trail {hello payload : List UInt8} {c₀ : Conn}
    (hhello : c₀.session.tlsStatus = .idle → hello = c₀.session.clientHelloBuf ++ payload)
    (h : applyPolicy cfg f c hello = .ok (c',verdict)) :
    ∃ trail, c'.audit = c.audit ++ trail ∧ Handled c₀ payload c' verdict trail := by
  unfold applyPolicy at h
  obtain ⟨info,_,hrest⟩ := (bind_ok_iff ..).mp h
  split at hrest
  · dsimp only at hrest
    split at hrest
    · cases hrest
      exact ⟨_,audit_emit c rfl,Handled.blocked _⟩
    · obtain ⟨svc,_,hgo⟩ := (bind_ok_iff ..).mp hrest
      rw [← routeTls_audit c f svc]
      exact dispatch_trail hhello hgo
  · exact dispatch_trail hhello hrest

theorem handleReady_trail {payload : List UInt8}
    (h : handleReady cfg f c payload = .ok (c',verdict)) :
    ∃ trail, c'.audit = c.audit ++ trail ∧ Handled c payload c' verdict trail := by
  unfold handleReady at h
  split at h
  · cases h
    exact ⟨[],(List.append_nil _).symm,Handled.dropped⟩
  · rename_i t ht
    cases h
    have hack := (Unnoted.emitAck { c with session := t }).hushed
    refine ⟨[],?_,Handled.held _ (hack.hello.trans (congrArg (·.clientHelloBuf) (holdHello_wait ht)))⟩
    rw [List.append_nil]
    exact hack.audit
  · rename_i t hello ht
    exact applyPolicy_trail (c := { c with session := t }) (fun hidle => holdHello_pass hidle ht) h

end Trails

end Aethon.Pipeline
