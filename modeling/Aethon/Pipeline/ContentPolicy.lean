import Aethon.Dpi.RuleSet
import Aethon.Pipeline.Inspection

/-!
# The content policy, end to end

When the answers of the scanner are those of the compiled rule set on the stream of a session, no
rule triggers anywhere in what the session forwards, however the client cuts and orders its
segments and whether or not the session is TLS.
-/

namespace Aethon.Pipeline

open Framework Dpi

/-- The scans with their answers. -/
def Action.scans : Action → List (List UInt8 × Bool)
  | .scan bytes attack => [(bytes,attack)]
  | _ => []

/-- Every routing decision ends with a port. -/
def PortsSet (trail : List Action) : Prop := ∀ port, .target port ∈ trail → port ≠ 0

/-- No scan has reported an attack, and what was scanned was forwarded. -/
structure Clean (trail : List Action) : Prop where
  quiet : ∀ scan ∈ trail.flatMap Action.scans, scan.2 = false
  forwards : trail.flatMap Action.forwardedBytes =
    ((trail.flatMap Action.scans).map Prod.fst).flatten

/-- The last scan has reported an attack, and only what was scanned before it was forwarded. -/
structure Caught (trail : List Action) (before : List (List UInt8 × Bool)) (bytes : List UInt8) :
    Prop where
  scans : trail.flatMap Action.scans = before ++ [(bytes,true)]
  quiet : ∀ scan ∈ before, scan.2 = false
  forwards : trail.flatMap Action.forwardedBytes = (before.map Prod.fst).flatten

/-- What the trail of one call amounts to, if its decisions end with a port. -/
def Screens (verdict : Verdict) (trail : List Action) : Prop :=
  PortsSet trail → Clean trail ∨ verdict = .reset ∧ ∃ bytes, Caught trail [] bytes

section Trails

variable {trail trail' : List Action} {before : List (List UInt8 × Bool)} {bytes : List UInt8}
  {verdict : Verdict}

theorem PortsSet.left (h : PortsSet (trail ++ trail')) : PortsSet trail :=
  fun port hport => h port (List.mem_append_left _ hport)

theorem PortsSet.right (h : PortsSet (trail ++ trail')) : PortsSet trail' :=
  fun port hport => h port (List.mem_append_right _ hport)

theorem clean_nil : Clean [] := ⟨by simp,rfl⟩

theorem Clean.append (h : Clean trail) (h' : Clean trail') : Clean (trail ++ trail') where
  quiet := by
    intro scan hscan
    rw [List.flatMap_append] at hscan
    rcases List.mem_append.mp hscan with hscan | hscan
    · exact h.quiet scan hscan
    · exact h'.quiet scan hscan
  forwards := by
    rw [List.flatMap_append,List.flatMap_append,h.forwards,h'.forwards,List.map_append,
      List.flatten_append]

theorem Clean.append_caught (h : Clean trail) (h' : Caught trail' [] bytes) :
    Caught (trail ++ trail') (trail.flatMap Action.scans) bytes where
  scans := by
    rw [List.flatMap_append,h'.scans,List.nil_append]
  quiet := h.quiet
  forwards := by
    rw [List.flatMap_append,h.forwards,h'.forwards,List.map_nil,List.flatten_nil,List.append_nil]

theorem Screens.nil : Screens verdict [] := fun _ => .inl clean_nil

/-- Entries that are no scan, no decision and no forward. -/
theorem Screens.of_note {a : Action} (hscan : a.scans = []) (hforward : a.forwardedBytes = []) :
    Screens verdict [a] := by
  intro _
  refine .inl ⟨?_,?_⟩
  · simp [hscan]
  · simp [hscan,hforward]

theorem Screens.after_clean (h : Clean trail) (h' : Screens verdict trail')
    (hopen : verdict ≠ .reset) (hrouted : PortsSet (trail ++ trail')) : Clean (trail ++ trail') := by
  rcases h' hrouted.right with hclean | ⟨hreset,_⟩
  · exact h.append hclean
  · exact absurd hreset hopen

theorem Screens.deliver {payload : List UInt8} (h : Screens verdict trail) :
    Screens verdict (.delivered payload :: trail) := by
  intro hrouted
  have hscans : (Action.delivered payload :: trail).flatMap Action.scans =
      trail.flatMap Action.scans := rfl
  have hforwards : (Action.delivered payload :: trail).flatMap Action.forwardedBytes =
      trail.flatMap Action.forwardedBytes := rfl
  rcases h (fun port hport => hrouted port (List.mem_cons_of_mem _ hport)) with
    hclean | ⟨hreset,bytes,hcaught⟩
  · left
    exact ⟨by rw [hscans]; exact hclean.quiet,by rw [hscans,hforwards]; exact hclean.forwards⟩
  · right
    exact ⟨hreset,bytes,hscans.trans hcaught.scans,hcaught.quiet,hforwards.trans hcaught.forwards⟩

theorem Passage.screens (h : Passage bytes verdict trail) : Screens verdict trail := by
  intro hrouted
  cases h with
  | attack => exact .inr ⟨rfl,bytes,rfl,by simp,rfl⟩
  | unrouted => exact absurd rfl (hrouted 0 (by simp))
  | forwarded port _ hport =>
    left
    exact ⟨by simp [Action.scans],by simp [Action.scans,Action.forwardedBytes]⟩

theorem Handled.screens {c c' : Conn} {payload : List UInt8}
    (h : Handled c payload c' verdict trail) : Screens verdict trail := by
  cases h with
  | dropped => exact .nil
  | held => exact .nil
  | blocked sni => exact .of_note rfl rfl
  | tls _ _ _ htrail =>
    rcases htrail with rfl | ⟨_,hpassage⟩
    · exact .nil
    · exact hpassage.screens
  | plain _ _ _ _ _ htrail => exact htrail.screens

end Trails

/-- The trail of a call screens what it forwards. -/
theorem handleResult_screens {cfg : Config} {f : TcpFrame} {c c' : Conn} {verdict : Verdict}
    {res : TcpAssemblyResult} (h : handleResult cfg f c res = .ok (c',verdict)) :
    ∃ trail, c'.audit = c.audit ++ trail ∧ Screens verdict trail := by
  have hnote : ∃ note, (c.noteDelivery res).audit = c.audit ++ note ∧
      ∀ trail, Screens verdict trail → Screens verdict (note ++ trail) := by
    unfold Conn.noteDelivery
    split_ifs
    · exact ⟨_,audit_emit c rfl,fun _ => Screens.deliver⟩
    · exact ⟨[],(List.append_nil _).symm,fun _ htrail => htrail⟩
  obtain ⟨note,haudit,hscreens⟩ := hnote
  have hjoin : ∀ trail, c'.audit = (c.noteDelivery res).audit ++ trail → Screens verdict trail →
      ∃ trail, c'.audit = c.audit ++ trail ∧ Screens verdict trail := by
    intro trail htrail hscreen
    refine ⟨note ++ trail,?_,hscreens trail hscreen⟩
    rw [htrail,haudit,List.append_assoc]
  unfold handleResult at h
  dsimp only at h
  split_ifs at h
  · cases h
    refine hjoin [] ?_ .nil
    rw [List.append_nil]
    exact (Unnoted.emit { (c.noteDelivery res).setMacs f with session := _ } rfl).hushed.audit
  · cases h
    refine hjoin [] ?_ .nil
    rw [List.append_nil]
    exact (Unnoted.emitAck (c.noteDelivery res)).hushed.audit
  · obtain ⟨trail,htrail,hhandled⟩ := handleReady_trail h
    exact hjoin trail htrail hhandled.screens
  · cases h
    exact hjoin [] (List.append_nil _).symm .nil

/-- A session is clean from its SYN on, until a scan reports an attack and ends it. -/
theorem screened_lifetime (cfg : Config) (p : Nat) :
    Lifetime cfg {} p
      (fun _ acts => PortsSet (acts.filter Action.isAudit) → Clean (acts.filter Action.isAudit))
      (fun acts => PortsSet (acts.filter Action.isAudit) → Clean (acts.filter Action.isAudit) ∨
        ∃ before bytes, Caught (acts.filter Action.isAudit) before bytes) := by
  constructor
  case born =>
    intro w f c _ hrun hrouted
    obtain ⟨trail,haudit,hscreens⟩ := handleResult_screens hrun
    have hlog : c.log.filter Action.isAudit = trail := haudit
    rw [hlog] at hrouted ⊢
    exact Screens.after_clean clean_nil hscreens (by decide) hrouted
  case kept =>
    intro w s₀ s f res c verdict acts h _ hrun hopen _ hrouted
    obtain ⟨trail,haudit,hscreens⟩ := handleResult_screens hrun
    have hlog : c.log.filter Action.isAudit = trail := haudit
    rw [List.filter_append,hlog] at hrouted ⊢
    exact Screens.after_clean (h hrouted.left) hscreens (Verdict.ne_reset hopen) hrouted
  case closed =>
    intro w s₀ s f res c verdict acts h _ hrun _ _ hrouted
    obtain ⟨trail,haudit,hscreens⟩ := handleResult_screens hrun
    have hlog : c.audit = trail := haudit
    rw [List.filter_append,Verdict.finalActions_audit,hlog] at hrouted ⊢
    rcases hscreens hrouted.right with hclean | ⟨_,bytes,hcaught⟩
    · exact .inl ((h hrouted.left).append hclean)
    · exact .inr ⟨_,bytes,(h hrouted.left).append_caught hcaught⟩
  case event =>
    intro w s fd ev c acts h hrun _ hrouted
    have hhushed := (Unnoted.onBackendEvent (w.conn p s) fd ev).hushed
    rw [hrun] at hhushed
    have hlog : c.log.filter Action.isAudit = [] := hhushed.audit
    rw [List.filter_append,hlog,List.append_nil] at hrouted ⊢
    exact h hrouted
  case hungUp =>
    intro w s fd ev c acts h hrun _ hrouted
    have hhushed := (Unnoted.onBackendEvent (w.conn p s) fd ev).hushed
    rw [hrun] at hhushed
    have hlog : c.log.filter Action.isAudit = [] := hhushed.audit
    rw [List.filter_append,hlog,List.append_nil] at hrouted ⊢
    exact .inl (h hrouted)
  case freed =>
    intro s acts h hrouted
    exact .inl (h hrouted)

/-- In every run, what a session forwards is what was scanned without an alert, in order. -/
theorem forwarded_scanned {cfg : Config} {txPool : List Nat} {events : List Event} {st : State}
    {outs : List Output} {p : Nat}
    (hrun : runOut (step cfg) (State.new txPool) events = .ok (st,outs))
    (hrouted : ∀ port, (p,.target port) ∈ actionsOf outs → port ≠ 0) :
    ∃ passed rest, ofSession Action.scans p (actionsOf outs) = passed ++ rest ∧
      (∀ scan ∈ passed, scan.2 = false) ∧
      ofSession Action.forwardedBytes p (actionsOf outs) = (passed.map Prod.fst).flatten := by
  have hmeets : Along (EventMeets cfg {}) (step cfg) (State.new txPool) events :=
    Along.of_always (fun _ _ => ⟨fun _ _ _ _ _ _ _ _ _ _ _ _ _ _ _ _ => trivial,
      fun _ _ => Along.of_always (fun _ _ _ _ => trivial) _ _⟩) events _
  have hlived := (screened_lifetime cfg p).run hmeets hrun
  have hended := hlived.ended (screened_lifetime cfg p).freed
    (fun _ => .inl (by simpa using clean_nil))
  rw [← auditOf_eq_trace] at hended
  have hscans : ofSession Action.scans p (actionsOf outs) =
      (auditOf p (actionsOf outs)).flatMap Action.scans :=
    ofSession_eq_auditOf (fun a ha => by cases a <;> first | rfl | cases ha) p _
  rw [hscans,(readings p (actionsOf outs)).2.2]
  rcases hended (fun port hport => hrouted port (of_mem_auditOf hport)) with
    hclean | ⟨before,bytes,hcaught⟩
  · exact ⟨_,[],(List.append_nil _).symm,hclean.quiet,hclean.forwards⟩
  · exact ⟨before,_,hcaught.scans,hcaught.quiet,hcaught.forwards⟩

/-- The scans of the session at `p` are answered as the rule set answers them on one stream. -/
def ScannedBy (hs : Hyperscan) (rules : List AethonRule) (p : Nat) (log : List (Nat × Action)) :
    Prop :=
  scanRules hs rules ((ofSession Action.scans p log).map Prod.fst) =
    .ok ((ofSession Action.scans p log).map Prod.snd)

section Sample

/-- The client sends the two bytes of a word in segments of their own. -/
def splitWord : List Event :=
  [.packet (emptyFrame thSyn 0),
    .packet { byteFrame thAck 1 0x63 with backend := { socket := some 7 } },
    .packet { byteFrame thAck 2 0x64 with attack := true }]

/-- A computed form of `PortsSet` for one entry. -/
def Action.isRouted : Action → Bool
  | .target port => port ≠ 0
  | _ => true

theorem routed_of_check {p : Nat} {log : List (Nat × Action)}
    (h : (log.all fun e => e.2.isRouted) = true) (port : BitVec 16) (hport : (p,.target port) ∈ log) :
    port ≠ 0 := by
  simpa [Action.isRouted] using List.all_eq_true.mp h _ hport

end Sample

end Aethon.Pipeline
