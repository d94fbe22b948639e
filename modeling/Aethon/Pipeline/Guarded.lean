import Aethon.Pipeline.Lifetimes

/-!
# Lifetimes with a guard that looks back

A condition on a packet may speak of what the session has been told so far. A packet makes one
move at most, so its session and the actions before it are those of the state that the packet
meets, and an invariant may use a guard on both.
-/

namespace Aethon.Pipeline

open Framework TcpAssemblerEngine

variable {cfg : Config} {p : Nat} {Live : TcpStreamSession → List Action → Prop}
  {Done : List Action → Prop}

/-- A packet that is answered with the session at `p` has found it there. -/
theorem meets_session {st : State} {f : TcpFrame} {engine : TcpAssemblerEngine}
    {res : TcpAssemblyResult} {s₀ : TcpStreamSession} (hlocated : st.engine.Located)
    (hmeets : st.engine.Meets f.call s₀)
    (hpacket : st.engine.processPacket f.call = .ok (engine,res)) (hp : res.session = some p) :
    st.engine.heap.mem p = some s₀ ∧ s₀.key = f.packet.key := by
  obtain ⟨t,q,hclean,hfind,hs⟩ := hmeets
  obtain ⟨t',ht',hwf,hshrinks⟩ := hlocated.wf.cleanup f.call.nowNs
  rw [hclean] at ht'
  cases ht'
  have hst := hwf.owns.wf.find_stored hfind
  have hq : q = p := by
    obtain ⟨t',ht',hcase⟩ := processPacket_cases hpacket
    rw [hclean] at ht'
    cases ht'
    cases hcase with
    | ignored => cases hp
    | opened m b hsyn hroom hnone =>
      rw [hfind] at hnone
      cases hnone
    | kept q' s s' r hfind' =>
      rw [hfind] at hfind'
      cases hfind'
      exact Option.some.inj hp
    | removed => cases hp
  subst hq
  exact ⟨(hshrinks _ _ hst).2.symm.trans hs,hwf.owns.holds hst hs⟩

/-- The rules for an invariant of the session at `p` whose packets meet the guard `Q` on the
session, on its actions so far and on the frame. -/
structure Guarded (cfg : Config) (Q : TcpStreamSession → List Action → TcpFrame → Prop) (p : Nat)
    (Live : TcpStreamSession → List Action → Prop) (Done : List Action → Prop) : Prop where
  born : ∀ (w : World) (f : TcpFrame) (c : Conn), w.heap.next = p →
    handleResult cfg f ((w.opened f).conn p (.opened f.packet f.call.nowNs))
      (w.openedResult f) = .ok (c,.reply) → Live c.session c.log
  kept : ∀ (w : World) (s₀ s : TcpStreamSession) (f : TcpFrame) (res : TcpAssemblyResult)
    (c : Conn) (verdict : Verdict) (acts : List Action), Live s₀ acts → f.headersOk = true →
    Q s₀ acts f → Takes s₀ f p s res → handleResult cfg f (w.conn p s) res = .ok (c,verdict) →
    verdict.closes res = false → Live c.session (acts ++ c.log)
  closed : ∀ (w : World) (s₀ s : TcpStreamSession) (f : TcpFrame) (res : TcpAssemblyResult)
    (c : Conn) (verdict : Verdict) (acts : List Action), Live s₀ acts → f.headersOk = true →
    Q s₀ acts f → Takes s₀ f p s res → handleResult cfg f (w.conn p s) res = .ok (c,verdict) →
    verdict.closes res = true → Done (acts ++ verdict.finalActions c)
  event : ∀ (w : World) (s : TcpStreamSession) (fd : Nat) (ev : BackendEvent) (c : Conn)
    (acts : List Action), Live s acts → (w.conn p s).onBackendEvent fd ev = (c,false) →
    Live c.session (acts ++ c.log)
  hungUp : ∀ (w : World) (s : TcpStreamSession) (fd : Nat) (ev : BackendEvent) (c : Conn)
    (acts : List Action), Live s acts → (w.conn p s).onBackendEvent fd ev = (c,true) →
    Done (acts ++ c.log)
  freed : ∀ s acts, Live s acts → Done acts

/-- The guard on what the worker loop does next. -/
def Guard (Q : TcpStreamSession → List Action → TcpFrame → Prop) (p : Nat) (st : State)
    (outs : List Output) (ev : Event) : Prop :=
  ∀ f s, ev = .packet f → st.engine.heap.mem p = some s → s.key = f.packet.key →
    Q s (traceOf p (actionsOf outs)) f

instance (Q : TcpStreamSession → List Action → TcpFrame → Prop)
    [∀ s acts f, Decidable (Q s acts f)] (p : Nat) (st : State) (outs : List Output) (ev : Event) :
    Decidable (Guard Q p st outs ev) :=
  match ev, h : st.engine.heap.mem p with
  | .packet f, some s => decidable_of_iff
      (s.key = f.packet.key → Q s (traceOf p (actionsOf outs)) f) (by simp [Guard,h])
  | .packet _, none => isTrue (by simp [Guard,h])
  | .backend _, _ => isTrue fun _ _ hev => (by cases hev)
  | .completion _, _ => isTrue fun _ _ hev => (by cases hev)

namespace Guarded

variable {Q : TcpStreamSession → List Action → TcpFrame → Prop}

/-- A backend event is not guarded. -/
theorem lifetime (rule : Guarded cfg Q p Live Done) :
    Lifetime cfg { packet := fun _ _ _ _ _ _ => False } p Live Done where
  born := rule.born
  kept := fun _ _ _ _ _ _ _ _ _ _ _ _ hc => hc.elim
  closed := fun _ _ _ _ _ _ _ _ _ _ _ _ hc => hc.elim
  event := fun w s fd ev c acts h hrun _ => rule.event w s fd ev c acts h hrun
  hungUp := fun w s fd ev c acts h hrun _ => rule.hungUp w s fd ev c acts h hrun
  freed := rule.freed

/-- The session as the packet meets it. -/
def Here (Live : TcpStreamSession → List Action → Prop) (p : Nat) (st : State)
    (trace : List Action) (s : TcpStreamSession) (acts : List Action) : Prop :=
  Live s acts ∧ st.engine.heap.mem p = some s ∧ acts = trace

/-- Only the frame `f` is handled, and the session at `p` has its key. -/
def frameOnly (p : Nat) (st : State) (f : TcpFrame) : CallCondition where
  packet := fun q f' _ _ _ _ => q = p → f' = f ∧ f.headersOk = true ∧
    ∀ s, st.engine.heap.mem p = some s → s.key = f.packet.key
  event := fun _ _ => False

theorem moveRule (rule : Guarded cfg Q p Live Done) {st : State} {f : TcpFrame}
    {trace : List Action} (hguard : ∀ s, st.engine.heap.mem p = some s →
      s.key = f.packet.key → Q s trace f) :
    MoveRule cfg (frameOnly p st f) p (Here Live p st trace) Live Done where
  same := fun _ _ h => h.1
  born := rule.born
  kept := by
    rintro w s₀ s f' res c verdict acts ⟨hlive,hs,rfl⟩ htakes hrun hopen hc
    obtain ⟨rfl,hheaders,hkey⟩ := hc rfl
    exact rule.kept w s₀ s f' res c verdict acts hlive hheaders (hguard s₀ hs (hkey s₀ hs)) htakes
      hrun hopen
  closed := by
    rintro w s₀ s f' res c verdict acts ⟨hlive,hs,rfl⟩ htakes hrun hclose hc
    obtain ⟨rfl,hheaders,hkey⟩ := hc rfl
    exact rule.closed w s₀ s f' res c verdict acts hlive hheaders (hguard s₀ hs (hkey s₀ hs)) htakes
      hrun hclose
  event := fun _ _ _ _ _ _ _ _ hc => hc.elim
  hungUp := fun _ _ _ _ _ _ _ _ hc => hc.elim
  freed := fun s acts h => rule.freed s acts h.1

theorem packet (rule : Guarded cfg Q p Live Done) {st st' : State} {f : TcpFrame}
    {log : List (Nat × Action)} {out : Output} (hlocated : st.engine.Located)
    (hguard : ∀ s, st.engine.heap.mem p = some s → s.key = f.packet.key → Q s (traceOf p log) f)
    (h : Lived Live Done p st.world.heap (traceOf p log))
    (hstep : handleTcpPacket cfg st f = .ok (st',out)) :
    Lived Live Done p st'.world.heap (traceOf p (log ++ out.actions)) := by
  have hrule := rule.moveRule hguard
  have hmeets : FrameMeets cfg (frameOnly p st f) st f := by
    intro engine res q s₀ s c verdict hheaders hmeets _ hpacket hq _ _ hqp
    subst hqp
    refine ⟨rfl,hheaders,?_⟩
    intro s hs
    obtain ⟨hmem,hkey⟩ := meets_session hlocated hmeets hpacket hq
    rw [hs] at hmem
    cases hmem
    exact hkey
  have hhere : Lived (Here Live p st (traceOf p log)) Done p st.world.heap (traceOf p log) :=
    h.mono fun s hs hlive => ⟨hlive,hs,rfl⟩
  obtain ⟨w,hfrees,hmove⟩ := handleTcpPacket_move hmeets hstep
  have hfreed : Lived (Here Live p st (traceOf p log)) Done p w.heap (traceOf p log) := by
    clear hmove
    induction hfrees with
    | refl => exact hhere
    | step _ hs ih => exact ih.free hrule.freed hs
  rcases hmove with ⟨hnil,hsame⟩ | hmove
  · rw [hnil,List.append_nil,hsame]
    exact hfreed.mono fun s _ => hrule.same s _
  · exact hrule.move hfreed hmove

/-- An invariant of the session at `p` holds in every run whose packets meet the guard. -/
theorem run (rule : Guarded cfg Q p Live Done) {txPool : List Nat} {events : List Event}
    {st : State} {outs : List Output}
    (hguard : During (Guard Q p) (step cfg) (State.new txPool) events)
    (hrun : runOut (step cfg) (State.new txPool) events = .ok (st,outs)) :
    Lived Live Done p st.world.heap (traceOf p (actionsOf outs)) := by
  have hend := runOut_during
    (I := fun st outs => st.engine.Located ∧
      Lived Live Done p st.world.heap (traceOf p (actionsOf outs)))
    (by
      intro st ev st' out outs hi hc hstep
      refine ⟨step_located hi.1 hstep,?_⟩
      rw [actionsOf,List.flatMap_append,List.flatMap_singleton]
      cases ev with
      | packet f =>
        exact rule.packet hi.1 (fun s hs hkey => hc f s rfl hs hkey) hi.2 hstep
      | backend evs =>
        have hmeets : EventMeets cfg { packet := fun _ _ _ _ _ _ => False } st (.backend evs) :=
          ⟨fun _ h => (by cases h),fun _ _ => Along.of_always (fun _ _ _ _ => trivial) _ _⟩
        exact (step_moves hi.1 hmeets hstep).invariant
          (I := fun w log => Lived Live Done p w.heap (traceOf p log))
          (fun _ _ _ _ h hmove => rule.lifetime.moveRule.move h hmove) hi.2
      | completion addrs =>
        cases hstep
        rw [List.append_nil]
        exact hi.2)
    ⟨new_located,Lived.empty p⟩ hguard hrun
  exact hend.2

end Guarded

end Aethon.Pipeline
