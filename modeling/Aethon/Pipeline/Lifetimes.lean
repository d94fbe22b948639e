import Aethon.Framework.Lived
import Aethon.Pipeline.Steps

/-!
# Lifetimes of sessions

A session is opened once at its address, served, and deleted, and its actions are the part of
the log with its address. An invariant of a session and its own actions that its opening
establishes and that every call keeps therefore holds of every session in every run.
-/

namespace Aethon.Pipeline

open Framework

/-- The actions of the session at `p`. -/
def traceOf (p : Nat) (log : List (Nat × Action)) : List Action := ofSession (fun a => [a]) p log

section Trace

variable (p : Nat) (log log' : List (Nat × Action))

theorem traceOf_nil : traceOf p [] = [] := rfl

theorem traceOf_append : traceOf p (log ++ log') = traceOf p log ++ traceOf p log' :=
  ofSession_append ..

theorem ofSession_eq_trace {β : Type} (g : Action → List β) :
    ofSession g p log = (traceOf p log).flatMap g := by
  simp only [traceOf,ofSession,List.flatMap_assoc]
  congr 1
  funext e
  split_ifs <;> simp

theorem traceOf_self (addr : Nat) (acts : List Action) :
    traceOf addr (acts.map fun a => (addr,a)) = acts := by
  simp [traceOf,ofSession,List.flatMap_map]

theorem traceOf_other {addr : Nat} (acts : List Action) (h : addr ≠ p) :
    traceOf p (acts.map fun a => (addr,a)) = [] := by
  simp [traceOf,ofSession,h]

end Trace

/-- The actions of a call, with the RST that a reset ends it with. -/
def Verdict.finalActions (verdict : Verdict) (c : Conn) : List Action :=
  if verdict = .reset then c.log ++ [.rst] else c.log

theorem Verdict.finalLog_eq (verdict : Verdict) (c : Conn) :
    verdict.finalLog c = (verdict.finalActions c).map fun a => (c.addr,a) := by
  unfold Verdict.finalLog Verdict.finalActions
  split_ifs
  · rfl
  · rfl

/-- The rules for an invariant of the session at `p`: `Live` is for the session and its actions
while it is open, `Done` for its actions after that. -/
structure Lifetime (cfg : Config) (C : CallCondition) (p : Nat)
    (Live : TcpStreamSession → List Action → Prop) (Done : List Action → Prop) : Prop where
  born : ∀ (w : World) (f : TcpFrame) (c : Conn), w.heap.next = p →
    handleResult cfg f ((w.opened f).conn p (.opened f.packet f.call.nowNs))
      (w.openedResult f) = .ok (c,.reply) → Live c.session c.log
  kept : ∀ (w : World) (s₀ s : TcpStreamSession) (f : TcpFrame) (res : TcpAssemblyResult)
    (c : Conn) (verdict : Verdict) (acts : List Action), Live s₀ acts → Takes s₀ f p s res →
    handleResult cfg f (w.conn p s) res = .ok (c,verdict) → verdict.closes res = false →
    C.packet p f s res c verdict → Live c.session (acts ++ c.log)
  closed : ∀ (w : World) (s₀ s : TcpStreamSession) (f : TcpFrame) (res : TcpAssemblyResult)
    (c : Conn) (verdict : Verdict) (acts : List Action), Live s₀ acts → Takes s₀ f p s res →
    handleResult cfg f (w.conn p s) res = .ok (c,verdict) → verdict.closes res = true →
    C.packet p f s res c verdict → Done (acts ++ verdict.finalActions c)
  event : ∀ (w : World) (s : TcpStreamSession) (fd : Nat) (ev : BackendEvent) (c : Conn)
    (acts : List Action), Live s acts → (w.conn p s).onBackendEvent fd ev = (c,false) →
    C.event (w.conn p s) ev → Live c.session (acts ++ c.log)
  hungUp : ∀ (w : World) (s : TcpStreamSession) (fd : Nat) (ev : BackendEvent) (c : Conn)
    (acts : List Action), Live s acts → (w.conn p s).onBackendEvent fd ev = (c,true) →
    C.event (w.conn p s) ev → Done (acts ++ c.log)
  freed : ∀ s acts, Live s acts → Done acts

/-- The rules for one move: `Pre` is for the session before it and `Live` for the session after
it. -/
structure MoveRule (cfg : Config) (C : CallCondition) (p : Nat)
    (Pre Live : TcpStreamSession → List Action → Prop) (Done : List Action → Prop) : Prop where
  same : ∀ s acts, Pre s acts → Live s acts
  born : ∀ (w : World) (f : TcpFrame) (c : Conn), w.heap.next = p →
    handleResult cfg f ((w.opened f).conn p (.opened f.packet f.call.nowNs))
      (w.openedResult f) = .ok (c,.reply) → Live c.session c.log
  kept : ∀ (w : World) (s₀ s : TcpStreamSession) (f : TcpFrame) (res : TcpAssemblyResult)
    (c : Conn) (verdict : Verdict) (acts : List Action), Pre s₀ acts → Takes s₀ f p s res →
    handleResult cfg f (w.conn p s) res = .ok (c,verdict) → verdict.closes res = false →
    C.packet p f s res c verdict → Live c.session (acts ++ c.log)
  closed : ∀ (w : World) (s₀ s : TcpStreamSession) (f : TcpFrame) (res : TcpAssemblyResult)
    (c : Conn) (verdict : Verdict) (acts : List Action), Pre s₀ acts → Takes s₀ f p s res →
    handleResult cfg f (w.conn p s) res = .ok (c,verdict) → verdict.closes res = true →
    C.packet p f s res c verdict → Done (acts ++ verdict.finalActions c)
  event : ∀ (w : World) (s : TcpStreamSession) (fd : Nat) (ev : BackendEvent) (c : Conn)
    (acts : List Action), Pre s acts → (w.conn p s).onBackendEvent fd ev = (c,false) →
    C.event (w.conn p s) ev → Live c.session (acts ++ c.log)
  hungUp : ∀ (w : World) (s : TcpStreamSession) (fd : Nat) (ev : BackendEvent) (c : Conn)
    (acts : List Action), Pre s acts → (w.conn p s).onBackendEvent fd ev = (c,true) →
    C.event (w.conn p s) ev → Done (acts ++ c.log)
  freed : ∀ s acts, Pre s acts → Done acts

theorem Lifetime.moveRule {cfg : Config} {C : CallCondition} {p : Nat}
    {Live : TcpStreamSession → List Action → Prop} {Done : List Action → Prop}
    (rule : Lifetime cfg C p Live Done) : MoveRule cfg C p Live Live Done :=
  ⟨fun _ _ h => h,rule.born,rule.kept,rule.closed,rule.event,rule.hungUp,rule.freed⟩

/-- Every move keeps to the rules. -/
theorem MoveRule.move {cfg : Config} {C : CallCondition} {p : Nat}
    {Pre Live : TcpStreamSession → List Action → Prop} {Done : List Action → Prop}
    (rule : MoveRule cfg C p Pre Live Done) {w w' : World} {log acts : List (Nat × Action)}
    (h : Lived Pre Done p w.heap (traceOf p log)) (hmove : Move cfg C w acts w') :
    Lived Live Done p w'.heap (traceOf p (log ++ acts)) := by
  have hquiet (hnext : w.heap.next ≤ w'.heap.next) (hmem : w'.heap.mem p = w.heap.mem p)
      (hacts : traceOf p acts = []) : Lived Live Done p w'.heap (traceOf p (log ++ acts)) := by
    rw [traceOf_append,hacts,List.append_nil]
    exact (h.mono fun s _ => rule.same s _).other hnext hmem
  rw [traceOf_append] at hquiet ⊢
  cases hmove with
  | free q s hs =>
    rw [traceOf_nil,List.append_nil]
    exact (h.free rule.freed hs).mono fun s _ => rule.same s _
  | born f c hrun =>
    have haddr : c.addr = w.heap.next := handleResult_addr hrun
    have hnew : (w.opened f).heap.mem w.heap.next = some (.opened f.packet f.call.nowNs) :=
      Heap.alloc_mem_self w.heap _
    by_cases hp : p = w.heap.next
    · subst hp
      refine .stays c.session ?_ ?_
      · change ((w.opened f).heap.set c.addr c.session).mem w.heap.next = some c.session
        rw [haddr]
        exact Heap.set_mem_self _ _ hnew
      · rw [h.unborn le_rfl,List.nil_append,Conn.tagged,← haddr,traceOf_self]
        exact rule.born w f c rfl hrun
    · refine hquiet (Nat.le_succ _) ?_ ?_
      · change ((w.opened f).heap.set c.addr c.session).mem p = w.heap.mem p
        rw [haddr,Heap.set_mem_of_ne _ _ hp]
        exact Heap.alloc_mem_of_ne w.heap _ hp
      · rw [Conn.tagged,haddr]
        exact traceOf_other p c.log (Ne.symm hp)
  | kept q s₀ s f res c verdict hs htakes hrun hopen hc =>
    have haddr : c.addr = q := handleResult_addr hrun
    subst haddr
    by_cases hq : c.addr = p
    · subst hq
      refine .stays c.session (Heap.set_mem_self w.heap c.session hs) ?_
      rw [Conn.tagged,traceOf_self]
      exact rule.kept w s₀ s f res c verdict _ (h.live s₀ hs) htakes hrun hopen hc
    · exact hquiet le_rfl (Heap.set_mem_of_ne w.heap c.session (Ne.symm hq))
        (traceOf_other p c.log hq)
  | closed q s₀ s f res c verdict hs htakes hrun hclose hc =>
    have haddr : c.addr = q := handleResult_addr hrun
    subst haddr
    rw [Verdict.finalLog_eq] at hquiet ⊢
    by_cases hq : c.addr = p
    · subst hq
      refine .gone (w.heap.lt_next hs) (Heap.free_mem_self _ _) ?_
      rw [traceOf_self]
      exact rule.closed w s₀ s f res c verdict _ (h.live s₀ hs) htakes hrun hclose hc
    · refine hquiet le_rfl ?_ (traceOf_other p _ hq)
      exact (Heap.free_mem_of_ne _ (Ne.symm hq)).trans
        (Heap.set_mem_of_ne w.heap c.session (Ne.symm hq))
  | event q s fd ev c hs hfd hrun hc =>
    have haddr := (onBackendEvent_acts (R := fun _ _ => True) (c := w.conn q s) ev hfd).addr
    rw [hrun] at haddr
    change c.addr = q at haddr
    subst haddr
    by_cases hq : c.addr = p
    · subst hq
      refine .stays c.session (Heap.set_mem_self w.heap c.session hs) ?_
      rw [Conn.tagged,traceOf_self]
      exact rule.event w s fd ev c _ (h.live s hs) hrun hc
    · exact hquiet le_rfl (Heap.set_mem_of_ne w.heap c.session (Ne.symm hq))
        (traceOf_other p c.log hq)
  | hungUp q s fd ev c hs hfd hrun hc =>
    have haddr := (onBackendEvent_acts (R := fun _ _ => True) (c := w.conn q s) ev hfd).addr
    rw [hrun] at haddr
    change c.addr = q at haddr
    subst haddr
    by_cases hq : c.addr = p
    · subst hq
      refine .gone (w.heap.lt_next hs) (Heap.free_mem_self _ _) ?_
      rw [Conn.tagged,traceOf_self]
      exact rule.hungUp w s fd ev c _ (h.live s hs) hrun hc
    · refine hquiet le_rfl ?_ (traceOf_other p c.log hq)
      exact (Heap.free_mem_of_ne _ (Ne.symm hq)).trans
        (Heap.set_mem_of_ne w.heap c.session (Ne.symm hq))
  | completion frames => exact hquiet le_rfl rfl rfl

/-- An invariant of the session at `p` holds in every run that meets its condition. -/
theorem Lifetime.run {cfg : Config} {C : CallCondition} {p : Nat}
    {Live : TcpStreamSession → List Action → Prop} {Done : List Action → Prop}
    (rule : Lifetime cfg C p Live Done) {txPool : List Nat} {events : List Event} {st : State}
    {outs : List Output}
    (hmeets : Along (EventMeets cfg C) (step cfg) (State.new txPool) events)
    (hrun : runOut (step cfg) (State.new txPool) events = .ok (st,outs)) :
    Lived Live Done p st.world.heap (traceOf p (actionsOf outs)) := by
  have hnew : Lived Live Done p (State.new txPool).world.heap (traceOf p []) := Lived.empty p
  have hend := (run_moves TcpAssemblerEngine.new_located hmeets hrun).invariant
    (I := fun w log => Lived Live Done p w.heap (traceOf p log))
    (fun _ _ _ _ h hmove => rule.moveRule.move h hmove) hnew
  rwa [List.nil_append] at hend

end Aethon.Pipeline
