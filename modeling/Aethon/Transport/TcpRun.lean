import Aethon.Transport.TcpEngine
import Aethon.Transport.TcpStream

/-!
# Runs of the TCP assembler

The session invariants carried through whole runs of the engine, with any packets of other
connections, expiries and failed allocations in between.
-/

namespace Aethon.TcpAssemblerEngine

open Framework SingleThreadHashMap TcpStreamSession

/-- The session that a call finds after its cleanup. -/
def Meets (e : TcpAssemblerEngine) (c : PacketCall) (s : TcpStreamSession) : Prop :=
  ∃ t p, e.cleanup c.nowNs = .ok t ∧ t.sessions.find c.packet.key = .ok (some p) ∧
    t.heap.mem p = some s

/-- The session that `Meets` is about, computed. -/
def met (e : TcpAssemblerEngine) (c : PacketCall) : Option TcpStreamSession :=
  match e.cleanup c.nowNs with
  | .error _ => none
  | .ok t =>
      match t.sessions.find c.packet.key with
      | .ok (some p) => t.heap.mem p
      | _ => none

theorem Meets.met {e : TcpAssemblerEngine} {c : PacketCall} {s : TcpStreamSession}
    (h : e.Meets c s) : e.met c = some s := by
  obtain ⟨t,p,ht,hfind,hs⟩ := h
  simp only [TcpAssemblerEngine.met,ht,hfind,hs]

/-- A SYN that the flood guard turns away before any lookup. -/
def Refused (e : TcpAssemblerEngine) (c : PacketCall) : Prop :=
  c.packet.has thSyn = true ∧ c.packet.has thAck = false ∧
    ∃ t, e.cleanup c.nowNs = .ok t ∧ t.sessions.size ≥ maxActiveTcpSession

section Fate

variable {I : TcpKey → TcpStreamSession → Prop} {e : TcpAssemblerEngine} {c : PacketCall}
  {s s' : TcpStreamSession} {res : TcpAssemblyResult}

theorem not_refused (h : c.packet.has thSyn = false) : ¬ e.Refused c := by
  intro hr
  rw [hr.1] at h
  cases h

theorem Meets.lookup (h : e.Meets c s) (hopen : ¬ e.Refused c) :
    ∃ t p, e.cleanup c.nowNs = .ok t ∧ t.sessions.find c.packet.key = .ok (some p) ∧
      t.heap.mem p = some s ∧ e.processPacket c = t.updateSession c p := by
  obtain ⟨t,p,ht,hfind,hs⟩ := h
  have hfull : ¬ (c.packet.has thSyn = true ∧ (!c.packet.has thAck) = true ∧
      t.sessions.size ≥ maxActiveTcpSession) := by
    intro hc
    exact hopen ⟨hc.1,by simpa using hc.2.1,t,ht,hc.2.2⟩
  refine ⟨t,p,ht,hfind,hs,?_⟩
  simp only [processPacket,ht,bind,Except.bind,hfull,if_false,hfind]

/-- A session that survives the packet is stored, with its new contents, at the only address
of its key. -/
theorem Meets.kept (h : e.Meets c s) (hwf : EngineWf I e) (hopen : ¬ e.Refused c)
    (hon : s.onPacket c.packet c.nowNs c.garbage = (some s',res)) :
    ∃ u p, e.processPacket c = .ok (u,portsOf c.packet res (some p)) ∧
      u.sessions.Stored c.packet.key p ∧ u.heap.mem p = some s' ∧
      ∀ q, u.sessions.Stored c.packet.key q → q = p := by
  obtain ⟨t,p,ht,hfind,hs,hp⟩ := h.lookup hopen
  obtain ⟨t',ht',hwft,_⟩ := hwf.cleanup c.nowNs
  rw [ht] at ht'
  cases ht'
  have hst := hwft.owns.wf.find_stored hfind
  refine ⟨{ t with heap := t.heap.set p s' },p,?_,hst,t.heap.set_mem_self s' hs,
    fun q hq => hwft.owns.wf.stored_unique hq hst⟩
  rw [hp]
  simp only [updateSession,hs,hon]
  rfl

/-- A session that the packet ends is no longer stored. -/
theorem Meets.removed (h : e.Meets c s) (hwf : EngineWf I e) (hopen : ¬ e.Refused c)
    (hon : s.onPacket c.packet c.nowNs c.garbage = (none,res)) :
    ∃ u, e.processPacket c = .ok (u,portsOf c.packet res none) ∧
      ∀ p, ¬ u.sessions.Stored c.packet.key p := by
  obtain ⟨t,p,ht,hfind,hs,hp⟩ := h.lookup hopen
  obtain ⟨t',ht',hwft,_⟩ := hwf.cleanup c.nowNs
  rw [ht] at ht'
  cases ht'
  obtain ⟨u,hdel,_,_,_,hiff,_⟩ := hwft.deleteSession (hwft.owns.wf.find_stored hfind) s
  refine ⟨u,?_,fun q hq => ((hiff _ q).mp hq).1 rfl⟩
  rw [hp]
  simp only [updateSession,hs,hon,bind,Except.bind,hdel]
  rfl

/-- A refused SYN leaves the session alone. -/
theorem Meets.refused (h : e.Meets c s) (hwf : EngineWf I e) (hrefused : e.Refused c) :
    ∃ u p, e.processPacket c = .ok (u,portsOf c.packet {} none) ∧
      u.sessions.Stored c.packet.key p ∧ u.heap.mem p = some s := by
  obtain ⟨t,p,ht,hfind,hs⟩ := h
  obtain ⟨hsyn,hack,t',ht',hfull⟩ := hrefused
  rw [ht] at ht'
  cases ht'
  obtain ⟨t',ht',hwft,_⟩ := hwf.cleanup c.nowNs
  rw [ht] at ht'
  cases ht'
  refine ⟨t,p,?_,hwft.owns.wf.find_stored hfind,hs⟩
  simp only [processPacket,ht,bind,Except.bind,hsyn,hack,Bool.not_false,hfull,and_self,if_true]
  rfl

theorem onEstablished_isSyn (s : TcpStreamSession) (pkt : TcpPacket) (garbage : Nat → UInt8) :
    (s.onEstablished pkt garbage).2.isSyn = false := by
  have hfin : ∀ (t : TcpStreamSession) (r : TcpAssemblyResult), r.isSyn = false →
      (t.onFin pkt r).2.isSyn = false := by
    intro t r hr
    unfold onFin
    split_ifs <;> exact hr
  unfold onEstablished
  split_ifs
  · split
    · rfl
    · rfl
    · rfl
    · exact hfin _ _ rfl
  · exact hfin _ _ rfl

theorem onPacket_isSyn (h : (s.onPacket c.packet c.nowNs c.garbage).2.isSyn = true) :
    c.packet.has thSyn = true ∧ c.packet.has thRst = false := by
  unfold onPacket at h
  dsimp only at h
  split at h
  · cases h
  · rename_i hrst
    split at h
    · rename_i hsyn
      exact ⟨hsyn,by simpa using hrst⟩
    · exfalso
      split_ifs at h
      all_goals
        try rw [onEstablished_isSyn] at h
        cases h

/-- A refused call has no session in its result. -/
theorem not_refused_of_session {u : TcpAssemblerEngine} {p : Nat}
    (h : e.processPacket c = .ok (u,res)) (hp : res.session = some p) : ¬ e.Refused c := by
  rintro ⟨hflag,hack,t,ht,hfull⟩
  simp only [processPacket,ht,bind,Except.bind,hflag,hack,Bool.not_false,hfull,and_self,
    if_true] at h
  cases h
  cases hp

end Fate

/-- `process_packet`, with the key of the packet beside the result. -/
def observe (e : TcpAssemblerEngine) (c : PacketCall) :
    Checked (TcpAssemblerEngine × (TcpKey × TcpAssemblyResult)) := do
  let (u,res) ← e.processPacket c
  return (u,(c.packet.key,res))

theorem observe_ok {e u : TcpAssemblerEngine} {c : PacketCall} {o : TcpKey × TcpAssemblyResult} :
    e.observe c = .ok (u,o) ↔ e.processPacket c = .ok (u,o.2) ∧ o.1 = c.packet.key := by
  rw [observe,bind_ok_iff]
  constructor
  · intro h
    obtain ⟨⟨v,res⟩,hp,hret⟩ := h
    cases hret
    exact ⟨hp,rfl⟩
  · intro h
    obtain ⟨hp,hkey⟩ := h
    refine ⟨(u,o.2),hp,?_⟩
    rw [← hkey]
    rfl

/-- Engines that packets can lead to from a new one. -/
def Reachable (e : TcpAssemblerEngine) : Prop :=
  ∃ calls outs, runOut observe new calls = .ok (e,outs)

/-- A call keeps the table and the heap in step. -/
theorem EngineWf.processPacket {e u : TcpAssemblerEngine} {c : PacketCall}
    {res : TcpAssemblyResult} (h : EngineWf (fun _ _ => True) e)
    (hp : e.processPacket c = .ok (u,res)) : EngineWf (fun _ _ => True) u := by
  obtain ⟨t,ht,hcase⟩ := processPacket_cases hp
  obtain ⟨t',ht',hwft,_⟩ := h.cleanup c.nowNs
  rw [ht] at ht'
  cases ht'
  exact hcase.engineWf hwft (fun _ _ _ h => h) (fun _ _ h => h) (fun _ => trivial)
    fun _ _ _ _ _ _ _ _ _ => trivial

theorem Reachable.engineWf {e : TcpAssemblerEngine} (h : Reachable e) :
    EngineWf (fun _ _ => True) e := by
  obtain ⟨calls,outs,hr⟩ := h
  apply runOut_invariant (C := fun _ _ => True) (I := fun e _ => EngineWf (fun _ _ => True) e) _
    calls new e [] outs (new_engineWf _) (Along.of_forall calls new fun _ _ => trivial) hr
  intro e c t o _ hwf _ hstep
  exact hwf.processPacket (observe_ok.mp hstep).1

/-- Bytes handed out for one key, in order. -/
def delivered (key : TcpKey) (outs : List (TcpKey × TcpAssemblyResult)) : List UInt8 :=
  outs.flatMap fun o => if o.1 = key then handedOut o.2 else []

theorem delivered_append (key : TcpKey) (outs outs' : List (TcpKey × TcpAssemblyResult)) :
    delivered key (outs ++ outs') = delivered key outs ++ delivered key outs' :=
  List.flatMap_append

theorem delivered_singleton (key : TcpKey) (o : TcpKey × TcpAssemblyResult) :
    delivered key [o] = if o.1 = key then handedOut o.2 else [] := by
  simp [delivered]

theorem handedOut_portsOf (pkt : TcpPacket) (res : TcpAssemblyResult) (p : Option Nat) :
    handedOut (portsOf pkt res p) = handedOut res := rfl

/-- The call meets no session of `key` whose fast path would pass over marks in the ring. -/
def PassesNoMark (key : TcpKey) (e : TcpAssemblerEngine) (c : PacketCall) : Prop :=
  c.packet.key = key → ∀ s, e.Meets c s → s.takesData c.packet = true →
    s.fastPath c.packet.seq c.packet.payload = true →
    s.marksPassed c.packet.seq c.packet.payload = false

/-- A SYN for which a new session is opened. -/
def Opens (e : TcpAssemblerEngine) (c : PacketCall) (u : TcpAssemblerEngine) : Prop :=
  (∀ s, ¬ e.Meets c s) ∧ ∃ res, e.processPacket c = .ok (u,res) ∧ res.isSyn = true

section Stream

variable {S : List UInt8} {isn : BitVec 32} {key : TcpKey} {e u : TcpAssemblerEngine}
  {c : PacketCall}

theorem Opens.faithful (h : Opens e c u) (hwf : EngineWf (fun _ _ => True) e) (S : List UInt8) :
    EngineWf (fun k s => k = c.packet.key → Faithful S c.packet.seq [] s) u := by
  obtain ⟨hnone,res,hp,hsyn⟩ := h
  obtain ⟨t,ht,hcase⟩ := processPacket_cases hp
  obtain ⟨t',ht',hwft,_⟩ := hwf.cleanup c.nowNs
  rw [ht] at ht'
  cases ht'
  cases hcase with
  | ignored => cases hsyn
  | opened m b hs hroom hfind hput =>
    obtain ⟨b',m',hput',hshape,_,ho⟩ := hwft.owns.insert
      (J := fun k s => k = c.packet.key → Faithful S c.packet.seq [] s)
      (a := .opened c.packet c.nowNs) (ne_emptyKey_of_find hfind) hroom
      (fun k s hk _ hkey => absurd hkey hk) (fun _ => Faithful.opened S c.packet c.nowNs)
    rw [hput] at hput'
    cases hput'
    exact ⟨ho,hshape.1.trans hwft.emptyKey⟩
  | kept p s s' r hfind hs hon => exact absurd ⟨t,p,ht,hfind,hs⟩ (hnone s)
  | removed p s r v hfind hs hon hdel => exact absurd ⟨t,p,ht,hfind,hs⟩ (hnone s)

/-- One call of a run in which the packets of `key` carry slices of `S`. -/
theorem faithful_step {d : List UInt8} {o : TcpKey × TcpAssemblyResult}
    (hS : S.length < 2 ^ 31) (hwf : EngineWf (fun k s => k = key → Faithful S isn d s) e)
    (hd : d <+: S) (hpkt : c.packet.key = key → StreamPacket S isn c.packet)
    (hq : PassesNoMark key e c) (hstep : e.observe c = .ok (u,o)) :
    EngineWf (fun k s => k = key →
        Faithful S isn (d ++ if o.1 = key then handedOut o.2 else []) s) u ∧
      (d ++ if o.1 = key then handedOut o.2 else []) <+: S := by
  obtain ⟨hp,hkey⟩ := observe_ok.mp hstep
  obtain ⟨t,ht,hcase⟩ := processPacket_cases hp
  obtain ⟨t',ht',hwft,_⟩ := hwf.cleanup c.nowNs
  rw [ht] at ht'
  cases ht'
  rw [hkey]
  by_cases hk : c.packet.key = key
  · simp only [hk,if_true]
    have hpkt := hpkt hk
    have hmeet : ∀ p s, t.sessions.find c.packet.key = .ok (some p) → t.heap.mem p = some s →
        Faithful S isn d s ∧ (s.takesData c.packet = true →
          s.fastPath c.packet.seq c.packet.payload = true →
          s.marksPassed c.packet.seq c.packet.payload = false) := by
      intro p s hfind hs
      exact ⟨hwft.owns.holds (hwft.owns.wf.find_stored hfind) hs hk,
        hq hk s ⟨t,p,ht,hfind,hs⟩⟩
    generalize o.2 = res at *
    cases hcase with
    | ignored =>
      simp only [handedOut_portsOf]
      exact ⟨by simpa [handedOut] using hwft,by simpa [handedOut] using hd⟩
    | opened m b hs hroom hfind hput =>
      rw [hpkt.noSyn] at hs
      cases hs
    | kept p s s' r hfind hs hon =>
      obtain ⟨hf,hmq⟩ := hmeet p s hfind hs
      have hnext : Faithful S isn (d ++ handedOut r) s' := by
        rcases hf.onPacket hS hpkt hmq with ⟨t',r',hon',hnext⟩ | ⟨r',hon',_⟩
        · rw [hon] at hon'
          cases hon'
          exact hnext
        · rw [hon] at hon'
          cases hon'
      refine ⟨⟨hwft.owns.set (hwft.owns.wf.find_stored hfind) ?_ fun _ => hnext,
        hwft.emptyKey⟩,?_⟩
      · intro k s₁ hne _ hkk
        exact absurd (hkk.trans hk.symm) hne
      · simp only [handedOut_portsOf]
        rw [hnext.delivered]
        exact List.take_prefix _ _
    | removed p s r v hfind hs hon hdel =>
      obtain ⟨hf,hmq⟩ := hmeet p s hfind hs
      have hempty : handedOut r = [] := by
        rcases hf.onPacket hS hpkt hmq with ⟨t',r',hon',_⟩ | ⟨r',hon',hempty⟩
        · rw [hon] at hon'
          cases hon'
        · rw [hon] at hon'
          cases hon'
          exact hempty
      obtain ⟨v',hdel',hwfv,_⟩ := hwft.deleteSession (hwft.owns.wf.find_stored hfind) s
      rw [hdel] at hdel'
      cases hdel'
      simp only [handedOut_portsOf,hempty,List.append_nil]
      exact ⟨hwfv,hd⟩
  · simp only [hk,if_false,List.append_nil]
    refine ⟨hcase.engineWf hwft (fun _ _ _ h => h) (fun _ _ h => h)
      (fun _ hkk => absurd hkk hk) ?_,hd⟩
    intro p s s' r _ _ _ _ _ hkk
    exact absurd hkk hk

end Stream

/-- In every run after a SYN has opened a session of `key`, in which the packets of `key`
carry slices of `S` and no fast path passes over marks, the bytes handed out for `key` are a
prefix of `S`. -/
theorem stream_integrity (S : List UInt8) (hS : S.length < 2 ^ 31) (e₀ e₁ u : TcpAssemblerEngine)
    (h₀ : EngineWf (fun _ _ => True) e₀) (syn : PacketCall) (hopen : Opens e₀ syn e₁)
    (calls : List PacketCall) (outs : List (TcpKey × TcpAssemblyResult))
    (hpkts : ∀ c ∈ calls, c.packet.key = syn.packet.key →
      StreamPacket S syn.packet.seq c.packet)
    (hq : Along (PassesNoMark syn.packet.key) observe e₁ calls)
    (hr : runOut observe e₁ calls = .ok (u,outs)) : delivered syn.packet.key outs <+: S := by
  have hpktsAlong : Along (fun _ c => c.packet.key = syn.packet.key →
      StreamPacket S syn.packet.seq c.packet) observe e₁ calls := Along.of_forall calls e₁ hpkts
  have hinv := runOut_invariant
    (C := fun e c => PassesNoMark syn.packet.key e c ∧
      (c.packet.key = syn.packet.key → StreamPacket S syn.packet.seq c.packet))
    (I := fun e os => EngineWf (fun k s => k = syn.packet.key →
        Faithful S syn.packet.seq (delivered syn.packet.key os) s) e ∧
      delivered syn.packet.key os <+: S)
    (by
      intro e c t o os hi hc hs
      rw [delivered_append,delivered_singleton]
      exact faithful_step hS hi.1 hi.2 hc.2 hc.1 hs)
    calls e₁ u [] outs ⟨hopen.faithful h₀ S, List.nil_prefix⟩
    (hq.and hpktsAlong) hr
  simpa using hinv.2

/-- The call takes the fast path only where the gap filler would agree with it. -/
def StaysQuiet (e : TcpAssemblerEngine) (c : PacketCall) : Prop :=
  ∀ s, e.Meets c s → s.takesData c.packet = true →
    s.fastPath c.packet.seq c.packet.payload = true →
    s.fastPathQuiet c.packet.seq c.packet.payload = true

/-- The fast path and the gap filler agree on the data of the call. -/
def AgreesOn (e : TcpAssemblerEngine) (c : PacketCall) : Prop :=
  0 < c.packet.payload.length → ∀ s, e.Meets c s → s.takesData c.packet = true →
    s.fastPath c.packet.seq c.packet.payload = true →
    s.PathsAgree c.packet.seq c.packet.payload c.garbage

theorem StaysQuiet.agreesOn {e : TcpAssemblerEngine} {c : PacketCall} (h : e.StaysQuiet c) :
    e.AgreesOn c := by
  intro hpos s hmeet htake hfast
  exact fastPathQuiet_agree hpos c.packet.payload_lt c.garbage hfast (h s hmeet htake hfast)

theorem nextClear_step {e u : TcpAssemblerEngine} {c : PacketCall}
    {o : TcpKey × TcpAssemblyResult} (hwf : EngineWf (fun _ s => s.NextClear) e)
    (hq : e.StaysQuiet c) (hstep : e.observe c = .ok (u,o)) :
    EngineWf (fun _ s => s.NextClear) u := by
  obtain ⟨hp,_⟩ := observe_ok.mp hstep
  obtain ⟨t,ht,hcase⟩ := processPacket_cases hp
  obtain ⟨t',ht',hwft,_⟩ := hwf.cleanup c.nowNs
  rw [ht] at ht'
  cases ht'
  apply hcase.engineWf hwft (fun _ _ _ h => h) (fun _ _ h => h)
  · intro _ _
    rfl
  · intro p s s' r hfind hs _ hclear hon
    exact hclear.onPacket (hq s ⟨t,p,ht,hfind,hs⟩) hon

/-- In every run whose fast paths are all quiet, every open session has a clear bit at
`rcv_nxt` in every state reached, and each fast path agrees with the gap filler. -/
theorem nothing_withheld (calls : List PacketCall) (u : TcpAssemblerEngine)
    (outs : List (TcpKey × TcpAssemblyResult)) (hq : Along StaysQuiet observe new calls)
    (hr : runOut observe new calls = .ok (u,outs)) :
    (∀ key p s, u.sessions.Stored key p → u.heap.mem p = some s → s.state = .established →
      s.bit 0 = false) ∧ Along AgreesOn observe new calls := by
  refine ⟨?_,hq.mono (fun _ _ h => h.agreesOn) calls new⟩
  have hwf := runOut_invariant (I := fun e _ => EngineWf (fun _ s => s.NextClear) e)
    (fun e c t o _ hi hc hs => nextClear_step hi hc hs) calls new u [] outs (new_engineWf _) hq hr
  intro key p s hst hs hstate
  exact hwf.owns.holds hst hs (Or.inr hstate)

section Sample

/-- A call with a packet of one fixed connection, at time 0, with a zeroed ring. -/
def sampleCall (flags : BitVec 8) (seq : BitVec 32) (payload : List UInt8)
    (h : payload.length < 65536) : PacketCall :=
  ⟨⟨1,2,3,4,seq,flags,[],payload,h⟩,0,true,fun _ => 0⟩

theorem nil_length_lt : ([] : List UInt8).length < 65536 := by decide

theorem byte_length_lt (b : UInt8) : [b].length < 65536 := by simp

/-- The sample segment with one byte of data. -/
def byteCall (flags : BitVec 8) (seq : BitVec 32) (b : UInt8) : PacketCall :=
  sampleCall flags seq [b] (byte_length_lt b)

def sampleSyn : PacketCall := sampleCall thSyn 0 [] nil_length_lt

theorem sampleCall_has (flags : BitVec 8) (seq : BitVec 32) (payload : List UInt8)
    (h : payload.length < 65536) (flag : BitVec 8) :
    (sampleCall flags seq payload h).packet.has flag = decide (flags &&& flag ≠ 0#8) := rfl

/-- The table in which only the connection of `sampleSyn` is stored. -/
def sampleSessions : SingleThreadHashMap TcpKey Nat :=
  { (.new kEmptyTcpKey tcpKeyHasher 0 17 : SingleThreadHashMap TcpKey Nat) with
    cells := Function.update (fun _ => ⟨kEmptyTcpKey,0⟩) (tcpKeyHasher ⟨1,2,3,4⟩ &&& 131071)
      ⟨⟨1,2,3,4⟩,1⟩
    size := 1 }

/-- The engine whose only session is `s`, opened by `sampleSyn`. -/
def sampleEngine (s : TcpStreamSession) : TcpAssemblerEngine where
  sessions := sampleSessions
  heap := (Heap.empty.alloc s).2
  kernel := .empty
  lastCleanupNs := 0

/-- The session that `sampleSyn` opens. -/
def sampleStart : TcpStreamSession := .opened sampleSyn.packet 0

theorem sampleSyn_run :
    new.observe sampleSyn = .ok (sampleEngine sampleStart,
      (sampleSyn.packet.key,portsOf sampleSyn.packet { isSyn := true } (some 1))) := rfl

theorem sampleSyn_opens :
    Opens new sampleSyn (sampleEngine sampleStart) := by
  refine ⟨?_,_,(observe_ok.mp sampleSyn_run).1,rfl⟩
  intro s hs
  obtain ⟨t,p,ht,hfind,_⟩ := hs
  have hclean : new.cleanup sampleSyn.nowNs = .ok new := rfl
  have hnone : new.sessions.find sampleSyn.packet.key = .ok none := by decide +kernel
  rw [hclean] at ht
  cases ht
  rw [hnone] at hfind
  cases hfind

variable {s s' : TcpStreamSession} {c : PacketCall}

theorem sampleEngine_find (s : TcpStreamSession) :
    (sampleEngine s).sessions.find ⟨1,2,3,4⟩ = .ok (some 1) := by
  change sampleSessions.find ⟨1,2,3,4⟩ = .ok (some 1)
  decide +kernel

theorem sampleEngine_cleanup (s : TcpStreamSession) :
    (sampleEngine s).cleanup 0 = .ok (sampleEngine s) := by
  have hclock : ¬ (0 - (sampleEngine s).lastCleanupNs > tcpCleanupIntervalNs) := by
    change ¬ (0#64 - 0#64 > tcpCleanupIntervalNs)
    decide
  rw [cleanup,if_neg hclock]
  rfl

theorem sampleEngine_mem (s : TcpStreamSession) : (sampleEngine s).heap.mem 1 = some s := rfl

theorem sampleEngine_stored (s : TcpStreamSession) :
    (sampleEngine s).sessions.Stored ⟨1,2,3,4⟩ 1 := by
  change sampleSessions.Stored ⟨1,2,3,4⟩ 1
  exact ⟨tcpKeyHasher ⟨1,2,3,4⟩ &&& 131071,by decide +kernel,by decide +kernel⟩

theorem sampleEngine_meets (hkey : c.packet.key = ⟨1,2,3,4⟩) (hnow : c.nowNs = 0) :
    (sampleEngine s).Meets c s' ↔ s' = s := by
  unfold Meets
  rw [hkey,hnow,sampleEngine_cleanup]
  constructor
  · intro h
    obtain ⟨t,p,ht,hfind,hs⟩ := h
    cases ht
    rw [sampleEngine_find] at hfind
    cases hfind
    rw [sampleEngine_mem] at hs
    cases hs
    rfl
  · intro h
    subst h
    exact ⟨_,1,rfl,sampleEngine_find s',rfl⟩

theorem sampleEngine_set (s s' : TcpStreamSession) :
    { sampleEngine s with heap := (sampleEngine s).heap.set 1 s' } = sampleEngine s' := by
  have hheap : (sampleEngine s).heap.set 1 s' = (sampleEngine s').heap := by
    apply Heap.ext
    · funext q
      rw [Heap.set_mem,sampleEngine_mem]
      by_cases hq : q = 1
      · subst hq
        rfl
      · rw [if_neg hq]
        exact ((Heap.empty : Heap TcpStreamSession).alloc_mem_of_ne s hq).trans
          ((Heap.empty : Heap TcpStreamSession).alloc_mem_of_ne s' hq).symm
    · rfl
  rw [hheap]
  rfl

/-- A packet of the only session of the engine that does not end it. -/
theorem sampleEngine_step {res : TcpAssemblyResult} (hkey : c.packet.key = ⟨1,2,3,4⟩)
    (hnow : c.nowNs = 0) (hon : s.onPacket c.packet c.nowNs c.garbage = (some s',res)) :
    (sampleEngine s).observe c =
      .ok (sampleEngine s',(c.packet.key,portsOf c.packet res (some 1))) := by
  have hsize : ¬ (sampleEngine s).sessions.size ≥ maxActiveTcpSession := by
    change ¬ 1 ≥ maxActiveTcpSession
    decide
  apply observe_ok.mpr
  refine ⟨?_,rfl⟩
  rw [← sampleEngine_set s s']
  simp only [processPacket,hnow,sampleEngine_cleanup,bind,Except.bind,hsize,and_false,if_false,
    hkey,sampleEngine_find,updateSession,sampleEngine_mem]
  rw [← hnow,hon]
  rfl

/-- Packets that meet one session after the other, as long as it stays open. -/
def sessionRun : TcpStreamSession → List PacketCall →
    Option (TcpStreamSession × List (TcpKey × TcpAssemblyResult))
  | s, [] => some (s,[])
  | s, c :: cs =>
      match s.onPacket c.packet c.nowNs c.garbage with
      | (none,_) => none
      | (some s',res) =>
          (sessionRun s' cs).map fun out =>
            (out.1,(c.packet.key,portsOf c.packet res (some 1)) :: out.2)

def sessionAfter (s : TcpStreamSession) (cs : List PacketCall) : TcpStreamSession :=
  ((sessionRun s cs).map Prod.fst).getD s

def outputs (s : TcpStreamSession) (cs : List PacketCall) : List (TcpKey × TcpAssemblyResult) :=
  ((sessionRun s cs).map Prod.snd).getD []

theorem sessionRun_eq (s : TcpStreamSession) (cs : List PacketCall)
    (h : (sessionRun s cs).isSome = true) :
    sessionRun s cs = some (sessionAfter s cs,outputs s cs) := by
  obtain ⟨out,hout⟩ := Option.isSome_iff_exists.mp h
  simp [sessionAfter,outputs,hout]

/-- The test `P` holds of every packet in the session it meets, and the session stays open. -/
def sessionAlong (P : TcpStreamSession → PacketCall → Bool) :
    TcpStreamSession → List PacketCall → Bool
  | _, [] => true
  | s, c :: cs =>
      P s c && match s.onPacket c.packet c.nowNs c.garbage with
      | (none,_) => false
      | (some s',_) => sessionAlong P s' cs

theorem sampleEngine_run {outs : List (TcpKey × TcpAssemblyResult)} (calls : List PacketCall)
    (hcalls : ∀ c ∈ calls, c.packet.key = ⟨1,2,3,4⟩ ∧ c.nowNs = 0)
    (h : sessionRun s calls = some (s',outs)) :
    runOut observe (sampleEngine s) calls = .ok (sampleEngine s',outs) := by
  induction calls generalizing s outs with
  | nil =>
    cases h
    rfl
  | cons c calls ih =>
    obtain ⟨hkey,hnow⟩ := hcalls c (by simp)
    rw [sessionRun] at h
    split at h
    · cases h
    · rename_i t res hon
      obtain ⟨⟨v,rest⟩,hrest,hout⟩ := Option.map_eq_some_iff.mp h
      cases hout
      exact (runOut_cons ..).mpr ⟨_,_,_,sampleEngine_step hkey hnow hon,
        ih (fun c hc => hcalls c (by simp [hc])) hrest,rfl⟩

theorem sampleEngine_along {C : TcpAssemblerEngine → PacketCall → Prop}
    {P : TcpStreamSession → PacketCall → Bool}
    (hC : ∀ s c, c.packet.key = ⟨1,2,3,4⟩ → c.nowNs = 0 → P s c = true → C (sampleEngine s) c)
    (calls : List PacketCall) (hcalls : ∀ c ∈ calls, c.packet.key = ⟨1,2,3,4⟩ ∧ c.nowNs = 0)
    (h : sessionAlong P s calls = true) : Along C observe (sampleEngine s) calls := by
  induction calls generalizing s with
  | nil => trivial
  | cons c calls ih =>
    obtain ⟨hkey,hnow⟩ := hcalls c (by simp)
    rw [sessionAlong,Bool.and_eq_true] at h
    refine ⟨hC s c hkey hnow h.1,?_⟩
    intro t o hstep
    have hrest := h.2
    split at hrest
    · cases hrest
    · rename_i s' res hon
      rw [sampleEngine_step hkey hnow hon] at hstep
      cases hstep
      exact ih (fun c hc => hcalls c (by simp [hc])) hrest

/-- A run from a new engine that starts with `sampleSyn`. -/
theorem sample_run (calls : List PacketCall)
    (hcalls : ∀ c ∈ calls, c.packet.key = ⟨1,2,3,4⟩ ∧ c.nowNs = 0)
    (h : (sessionRun sampleStart calls).isSome = true) :
    runOut observe new (sampleSyn :: calls) = .ok (sampleEngine (sessionAfter sampleStart calls),
      (sampleSyn.packet.key,portsOf sampleSyn.packet { isSyn := true } (some 1)) ::
        outputs sampleStart calls) :=
  (runOut_cons ..).mpr ⟨_,_,_,sampleSyn_run,
    sampleEngine_run calls hcalls (sessionRun_eq sampleStart calls h),rfl⟩

end Sample

theorem sampleCall_stream {S : List UInt8} {isn seq : BitVec 32} {payload : List UInt8}
    (h : payload.length < 65536) (hslice : SliceOf S isn seq payload) :
    StreamPacket S isn (sampleCall thAck seq payload h).packet where
  ack := (sampleCall_has ..).trans (by decide)
  noSyn := (sampleCall_has ..).trans (by decide)
  noRst := (sampleCall_has ..).trans (by decide)
  noFin := (sampleCall_has ..).trans (by decide)
  slice := hslice

/-- The three segments of a short stream, the last two in the wrong order. -/
def shortCalls : List PacketCall :=
  [sampleCall thAck 1 [5] (by decide),sampleCall thAck 3 [7] (by decide),
    sampleCall thAck 2 [6] (by decide)]

theorem stream_integrity_short :
    delivered sampleSyn.packet.key (outputs sampleStart shortCalls) <+:
      [5,6,7] := by
  apply stream_integrity [5,6,7] (by decide) new _ _ (new_engineWf _) sampleSyn sampleSyn_opens
    shortCalls
  · intro c hc _
    simp only [shortCalls,List.mem_cons,List.not_mem_nil,or_false] at hc
    rcases hc with rfl | rfl | rfl
    · exact sampleCall_stream _ ⟨0,rfl,by decide,rfl⟩
    · exact sampleCall_stream _ ⟨2,rfl,by decide,rfl⟩
    · exact sampleCall_stream _ ⟨1,rfl,by decide,rfl⟩
  · apply sampleEngine_along (P := fun s c => !s.takesData c.packet ||
      !s.fastPath c.packet.seq c.packet.payload || !s.marksPassed c.packet.seq c.packet.payload)
    · intro s c hkey hnow hP _ s' hmeet htake hfast
      rw [(sampleEngine_meets hkey hnow).mp hmeet] at htake hfast ⊢
      simpa [htake,hfast] using hP
    · decide
    · decide +kernel
  · exact sampleEngine_run shortCalls (by decide) (sessionRun_eq _ _ (by decide +kernel))

theorem nothing_withheld_short :
    (∀ key p s, (sampleEngine (sessionAfter sampleStart shortCalls)).sessions.Stored key p →
      (sampleEngine (sessionAfter sampleStart shortCalls)).heap.mem p = some s →
      s.state = .established → s.bit 0 = false) ∧
      Along AgreesOn observe new (sampleSyn :: shortCalls) := by
  apply nothing_withheld (sampleSyn :: shortCalls) _ _ _
    (sample_run shortCalls (by decide) (by decide +kernel))
  refine ⟨fun s hmeet => absurd hmeet (sampleSyn_opens.1 s),?_⟩
  intro t o hstep
  rw [sampleSyn_run] at hstep
  cases hstep
  apply sampleEngine_along (P := fun s c => !s.takesData c.packet ||
    !s.fastPath c.packet.seq c.packet.payload || s.fastPathQuiet c.packet.seq c.packet.payload)
  · intro s c hkey hnow hP s' hmeet htake hfast
    rw [(sampleEngine_meets hkey hnow).mp hmeet] at htake hfast ⊢
    simpa [htake,hfast] using hP
  · decide
  · decide +kernel

/-- A byte ahead of the stream, then the two bytes in front of it. The second of these takes
the fast path. -/
def withheldCalls : List PacketCall :=
  [sampleCall thAck 3 [7] (by decide),sampleCall thAck 1 [5] (by decide),
    sampleCall thAck 2 [6] (by decide)]

/-- The last packet is accepted and the session stays open, but the byte at `rcv_nxt` is
already in the ring, and the gap filler would have handed it out. -/
theorem withholds_byte :
    ∃ u outs s, runOut observe new (sampleSyn :: withheldCalls) = .ok (u,outs) ∧
      u.heap.mem 1 = some s ∧ u.sessions.Stored ⟨1,2,3,4⟩ 1 ∧ s.state = .established ∧
      delivered ⟨1,2,3,4⟩ outs = [5,6] ∧ s.bit 0 = true := by
  have hrun := sample_run withheldCalls (by decide) (by decide +kernel)
  exact ⟨_,_,_,hrun,sampleEngine_mem _,sampleEngine_stored _,by decide +kernel,
    by decide +kernel,by decide +kernel⟩

/-- A segment at `rcv_nxt` of a session that counts nothing as waiting. -/
theorem onPacket_inOrder {s : TcpStreamSession} {pkt : TcpPacket} (nowNs : BitVec 64)
    (garbage : Nat → UInt8) (htake : s.takesData pkt = true)
    (hfin : pkt.has thFin = false) (hcount : s.outOfOrderCount = 0#16)
    (hseq : pkt.seq = s.rcvNxt) (hpos : 0 < pkt.payload.length) :
    s.onPacket pkt nowNs garbage =
      (some { s.awake nowNs with rcvNxt := s.rcvNxt + BitVec.ofNat 32 pkt.payload.length },
      { isReady := true, payload := pkt.payload }) := by
  have hlen := pkt.payload_lt
  have hin : (s.awake nowNs).inWindow pkt.seq pkt.payload = true := by
    have hsub : s.rcvNxt + BitVec.ofNat 32 pkt.payload.length - s.rcvNxt =
        BitVec.ofNat 32 pkt.payload.length := by
      rw [BitVec.add_comm,BitVec.add_sub_cancel]
    simp only [inWindow,awake,hseq,TcpSeq.diff,TcpSeq.lte_eq,hsub,BitVec.sub_self,
      BitVec.zero_add,BitVec.toNat_ofNat,tcpWindowSize,Bool.and_eq_true,decide_eq_true_eq,
      Bool.not_eq_true',decide_eq_false_iff_not]
    omega
  have hplaced : (s.awake nowNs).Placed pkt.seq pkt.payload 0 0 := by
    refine ⟨?_,hpos,?_,?_,Or.inl rfl⟩
    · simp [trim,awake,hseq,TcpSeq.lt]
    · simp only [List.drop_zero,tcpWindowSize]
      omega
    · simp [awake,hseq]
  have hreceive := receiveData_placed hplaced hin garbage
  rw [if_pos ⟨rfl,hcount⟩] at hreceive
  rw [onPacket_takesData nowNs garbage htake,onEstablished,if_pos hpos,hreceive]
  simp only [deliver,List.drop_zero]
  exact onFin_none _ hfin

section Stale

/-- A stream longer than the ring: 65536 ones and 21 twos. -/
def longStream : List UInt8 := List.replicate 65536 1 ++ List.replicate 21 2

/-- Segments of `longStream` at the positions 10 and 0, then 1 and 40001, then 65556 and
65536. The third passes over the mark that the first leaves. -/
def earlyCalls : List PacketCall :=
  [sampleCall thAck 11 [1] (by decide),sampleCall thAck 1 [1] (by decide)]

def onesCall (seq : BitVec 32) (n : Nat) (h : n < 65536) : PacketCall :=
  sampleCall thAck seq (List.replicate n 1) (by rwa [List.length_replicate])

def lateCalls : List PacketCall :=
  [sampleCall thAck 65557 [2] (by decide),
    sampleCall thAck 65537 (List.replicate 10 2) (by decide)]

def longCalls : List PacketCall :=
  earlyCalls ++ ([onesCall 2 40000 (by decide),onesCall 40002 25535 (by decide)] ++ lateCalls)

/-- The session after the early calls; its ring still has the mark at position 10. -/
def markedSession : TcpStreamSession := sessionAfter sampleStart earlyCalls

theorem markedSession_fields :
    markedSession.state = .established ∧ markedSession.lastSeenNs = 0 ∧
      markedSession.outOfOrderCount = 0#16 ∧ markedSession.rcvNxt = BitVec.ofNat 32 2 := by
  decide +kernel

theorem longStream_ones (pos n : Nat) (h : pos + n ≤ 65536) :
    SliceOf longStream 0 (0 + 1 + BitVec.ofNat 32 pos) (List.replicate n 1) := by
  refine ⟨pos,rfl,?_,?_⟩
  · rw [longStream,List.length_append,List.length_replicate,List.length_replicate,
      List.length_replicate]
    omega
  · rw [List.length_replicate,longStream,
      List.drop_append_of_le_length (by rw [List.length_replicate]; omega),List.drop_replicate,
      List.take_append_of_le_length (by rw [List.length_replicate]; omega),List.take_replicate,
      Nat.min_eq_left (by omega)]

theorem longStream_twos (pos n : Nat) (h : pos + n ≤ 21) :
    SliceOf longStream 0 (0 + 1 + BitVec.ofNat 32 (65536 + pos)) (List.replicate n 2) := by
  refine ⟨65536 + pos,rfl,?_,?_⟩
  · rw [longStream,List.length_append,List.length_replicate,List.length_replicate,
      List.length_replicate]
    omega
  · rw [List.length_replicate,longStream,← List.drop_drop,
      List.drop_left' List.length_replicate,List.drop_replicate,List.take_replicate,
      Nat.min_eq_left (by omega)]

/-- An in-order segment of ones advances a quiet session and leaves its ring alone. -/
theorem onPacket_ones {s : TcpStreamSession} (hstate : s.state = .established)
    (hseen : s.lastSeenNs = 0) (hcount : s.outOfOrderCount = 0#16) (start n : Nat)
    (h : n < 65536) (hpos : 0 < n) :
    { s with rcvNxt := BitVec.ofNat 32 start }.onPacket
        (onesCall (BitVec.ofNat 32 start) n h).packet 0 (fun _ => 0) =
      (some { s with rcvNxt := BitVec.ofNat 32 (start + n) },
        { isReady := true, payload := List.replicate n 1 }) := by
  have htake : { s with rcvNxt := BitVec.ofNat 32 start }.takesData
      (onesCall (BitVec.ofNat 32 start) n h).packet = true := by
    simp only [takesData,hstate,onesCall,sampleCall_has]
    rfl
  have hlen : (onesCall (BitVec.ofNat 32 start) n h).packet.payload.length = n :=
    List.length_replicate
  have hfin : (onesCall (BitVec.ofNat 32 start) n h).packet.has thFin = false := by
    rw [onesCall,sampleCall_has]
    rfl
  rw [onPacket_inOrder 0 (fun _ => 0) htake hfin hcount rfl (by rwa [hlen]),hlen,awake,
    BitVec.ofNat_add,← hstate,← hseen]
  rfl

theorem ones_run : ∃ outs,
    runOut observe (sampleEngine markedSession)
        [onesCall 2 40000 (by decide),onesCall 40002 25535 (by decide)] =
      .ok (sampleEngine { markedSession with rcvNxt := BitVec.ofNat 32 65537 },outs) ∧
    delivered ⟨1,2,3,4⟩ outs = List.replicate 65535 1 := by
  obtain ⟨hstate,hseen,hcount,hnxt⟩ := markedSession_fields
  have hstart : markedSession = { markedSession with rcvNxt := BitVec.ofNat 32 2 } := by
    rw [← hnxt]
  have hfirst := onPacket_ones hstate hseen hcount 2 40000 (by decide) (by decide)
  rw [← hstart] at hfirst
  have hsecond := onPacket_ones hstate hseen hcount 40002 25535 (by decide) (by decide)
  refine ⟨_,(runOut_cons ..).mpr ⟨_,_,_,sampleEngine_step rfl rfl hfirst,
    (runOut_cons ..).mpr ⟨_,_,_,sampleEngine_step rfl rfl hsecond,rfl,rfl⟩,rfl⟩,?_⟩
  have hkey : ∀ seq n h, (onesCall seq n h).packet.key = ⟨1,2,3,4⟩ := fun _ _ _ => rfl
  simp only [delivered,List.flatMap_cons,List.flatMap_nil,hkey,if_true,portsOf,handedOut,
    List.append_nil,List.replicate_append_replicate]

/-- The last byte that `longCalls` gets is the byte at position 10, where the stream has the
byte at position 65546. -/
theorem long_run : ∃ u outs,
    runOut observe (sampleEngine sampleStart) longCalls = .ok (u,outs) ∧
    delivered ⟨1,2,3,4⟩ outs = List.replicate 65536 1 ++ [2,2,2,2,2,2,2,2,2,2,1] := by
  have hearly := sampleEngine_run earlyCalls (by decide)
    (sessionRun_eq sampleStart earlyCalls (by decide +kernel))
  obtain ⟨outs,hones,honesOut⟩ := ones_run
  have hlate := sampleEngine_run lateCalls (by decide)
    (sessionRun_eq { markedSession with rcvNxt := BitVec.ofNat 32 65537 } lateCalls
      (by decide +kernel))
  have hearlyOut : delivered ⟨1,2,3,4⟩ (outputs sampleStart earlyCalls) =
      List.replicate 1 1 := by
    decide +kernel
  have hlateOut : delivered ⟨1,2,3,4⟩
      (outputs { markedSession with rcvNxt := BitVec.ofNat 32 65537 } lateCalls) =
      [2,2,2,2,2,2,2,2,2,2,1] := by
    decide +kernel
  refine ⟨_,_,(runOut_append ..).mpr ⟨_,_,_,hearly,
    (runOut_append ..).mpr ⟨_,_,_,hones,hlate,rfl⟩,rfl⟩,?_⟩
  rw [delivered_append,delivered_append,hearlyOut,honesOut,hlateOut,← List.append_assoc,
    List.replicate_append_replicate]

/-- The run of `longCalls` hands out bytes that are not a prefix of the stream. -/
theorem delivers_stale_byte :
    longStream.length < 2 ^ 31 ∧
      Opens new sampleSyn (sampleEngine sampleStart) ∧
      (∀ c ∈ longCalls, c.packet.key = sampleSyn.packet.key ∧
        StreamPacket longStream sampleSyn.packet.seq c.packet) ∧
      ∃ u outs,
        runOut observe (sampleEngine sampleStart) longCalls = .ok (u,outs) ∧
          ¬ delivered sampleSyn.packet.key outs <+: longStream := by
  obtain ⟨u,outs,hrun,hout⟩ := long_run
  refine ⟨?_,sampleSyn_opens,?_,u,outs,hrun,?_⟩
  · rw [longStream,List.length_append,List.length_replicate,List.length_replicate]
    decide
  · intro c hc
    simp only [longCalls,earlyCalls,lateCalls,List.cons_append,List.nil_append,List.mem_cons,
      List.not_mem_nil,or_false] at hc
    rcases hc with rfl | rfl | rfl | rfl | rfl | rfl
    · exact ⟨rfl,sampleCall_stream _ (longStream_ones 10 1 (by decide))⟩
    · exact ⟨rfl,sampleCall_stream _ (longStream_ones 0 1 (by decide))⟩
    · exact ⟨rfl,sampleCall_stream _ (longStream_ones 1 40000 (by decide))⟩
    · exact ⟨rfl,sampleCall_stream _ (longStream_ones 40001 25535 (by decide))⟩
    · exact ⟨rfl,sampleCall_stream _ (longStream_twos 20 1 (by decide))⟩
    · exact ⟨rfl,sampleCall_stream _ (longStream_twos 0 10 (by decide))⟩
  · have hkey : sampleSyn.packet.key = ⟨1,2,3,4⟩ := rfl
    rw [hkey,hout,longStream, List.prefix_append_right_inj]
    decide

end Stale

end Aethon.TcpAssemblerEngine
