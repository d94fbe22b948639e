import Aethon.Container.OwnedTable
import Aethon.Transport.UdpSession

/-!
# Runs of the UDP assembler

The engine invariant ties every stored session to the fragments it has accepted, for any
interleaving of keys, expiries and failed allocations. A completed datagram is then sound as
long as no accepted fragment ends beyond the most recent MF = 0 fragment.
-/

namespace Aethon

open Framework Fragment

namespace UDPassemblerEngine

open SingleThreadHashMap

/-- Every stored session holds what the fragments in the log of its key wrote. -/
structure EngineWf (e : UDPassemblerEngine) (logs : FragmentKey → List Fragment) : Prop where
  owns : Owns maxActiveDgramSessions e.sessions e.heap fun k s => s.Built (logs k)
  emptyKey : e.sessions.emptyKey = kEmptyFragmentKey

theorem new_engineWf (logs : FragmentKey → List Fragment) : EngineWf new logs where
  owns := owns_new kEmptyFragmentKey fragmentKeyHasher 17 (by decide)
  emptyKey := rfl

variable {e : UDPassemblerEngine} {logs : FragmentKey → List Fragment} {key : FragmentKey}

theorem EngineWf.built (h : EngineWf e logs) {p : Nat} {s : ReassemblySession}
    (hst : e.sessions.Stored key p) (hs : e.heap.mem p = some s) : s.Built (logs key) :=
  h.owns.holds hst hs

/-- Sessions of `u` are those of `e`, apart from some that were dropped. -/
def Shrinks (e u : UDPassemblerEngine) : Prop :=
  ∀ k p, u.sessions.Stored k p → e.sessions.Stored k p ∧ u.heap.mem p = e.heap.mem p

theorem Shrinks.trans {e u v : UDPassemblerEngine} (h : Shrinks e u) (h' : Shrinks u v) :
    Shrinks e v := by
  intro k p hst
  have hv := h' k p hst
  have hu := h k p hv.1
  exact ⟨hu.1,hv.2.trans hu.2⟩

theorem EngineWf.purgeCell (h : EngineWf e logs) (nowNs : BitVec 64) {i : Nat}
    (hi : i < e.sessions.capacity) :
    ∃ u, purgeCell nowNs e i = .ok u ∧ EngineWf u logs ∧ Shrinks e u ∧
      u.sessions.capacity = e.sessions.capacity := by
  have hskip : ∃ u, (pure e : Checked UDPassemblerEngine) = .ok u ∧ EngineWf u logs ∧
      Shrinks e u ∧ u.sessions.capacity = e.sessions.capacity :=
    ⟨e,rfl,h,fun _ _ hst => ⟨hst,rfl⟩,rfl⟩
  unfold UDPassemblerEngine.purgeCell
  by_cases hskipped : (e.sessions.cells i).key = kEmptyFragmentKey ∨ (e.sessions.cells i).val = 0
  · simpa only [hskipped,if_true] using hskip
  · simp only [hskipped,if_false]
    have hst : e.sessions.Stored (e.sessions.cells i).key (e.sessions.cells i).val := by
      refine ⟨i,hi,(entry_eq_some ..).mpr ⟨?_,rfl⟩⟩
      rw [h.emptyKey]
      exact fun hc => hskipped (Or.inl hc)
    obtain ⟨s,hs,_⟩ := h.owns.live _ _ hst
    simp only [hs]
    by_cases hx : isExpired nowNs s = true
    · obtain ⟨b,m',he,hshape,hiff,ho⟩ := h.owns.erase_free hst
      simp only [hx,if_true,he]
      refine ⟨_,rfl,⟨ho,hshape.1.trans h.emptyKey⟩,?_,hshape.2.2⟩
      intro k p hk
      have hk' := (hiff k p).mp hk
      refine ⟨hk'.2,e.heap.free_mem_of_ne ?_⟩
      intro hp
      subst hp
      exact hk'.1 (h.owns.inj _ _ _ hk'.2 hst)
    · simpa only [hx,Bool.false_eq_true,if_false] using hskip

/-- `purged_expired` always returns and only drops sessions. -/
theorem EngineWf.purgedExpired (h : EngineWf e logs) (nowNs : BitVec 64) :
    ∃ u, e.purgedExpired nowNs = .ok u ∧ EngineWf u logs ∧ Shrinks e u := by
  obtain ⟨u,hu,hwf,hsh,_⟩ := foldlM_invariant
    (I := fun u => EngineWf u logs ∧ Shrinks e u ∧ u.sessions.capacity = e.sessions.capacity)
    (List.range e.sessions.capacity)
    (by
      intro t i hi ht
      obtain ⟨hwf,hsh,hcap⟩ := ht
      obtain ⟨u,hu,hwf',hsh',hcap'⟩ :=
        hwf.purgeCell nowNs (show i < t.sessions.capacity by simpa [hcap] using hi)
      exact ⟨u,hu,hwf',hsh.trans hsh',hcap'.trans hcap⟩)
    e ⟨h,fun _ _ hst => ⟨hst,rfl⟩,rfl⟩
  exact ⟨u,hu,hwf,hsh⟩

/-- The cleanup always returns and only drops sessions. -/
theorem EngineWf.cleanup (h : EngineWf e logs) (nowNs : BitVec 64) :
    ∃ u, e.cleanup nowNs = .ok u ∧ EngineWf u logs ∧ Shrinks e u := by
  unfold UDPassemblerEngine.cleanup
  split_ifs
  · obtain ⟨u,hu,hwf,hsh⟩ := h.purgedExpired nowNs
    refine ⟨{ u with lastCleanupNs := nowNs },?_,⟨hwf.owns,hwf.emptyKey⟩,hsh⟩
    rw [bind_ok_iff]
    exact ⟨u,hu,rfl⟩
  · exact ⟨e,rfl,h,fun _ _ hst => ⟨hst,rfl⟩⟩

/-- Log of a session after it was given one more fragment; a rejected fragment ends it. -/
def extendLog (s : ReassemblySession) (log : List Fragment) (f : Fragment) : List Fragment :=
  if (s.addFragment f).1 then log ++ [f] else []

/-- What a call reports about a session that is complete. -/
def completedResult (p : Nat) (s : ReassemblySession) : AssemblyResult where
  isComplete := true
  srcPort := s.bufferWord 0
  dstPort := s.bufferWord 2
  payload := (List.range (s.totalExpectedLen - 8)).map fun i => s.buffer (8 + i)
  completedSession := some p

/-- The three ways in which `process_fragment` ends for a session. -/
theorem EngineWf.feedSession (h : EngineWf e logs) {p : Nat} {s : ReassemblySession}
    (hst : e.sessions.Stored key p) (hs : e.heap.mem p = some s) (f : Fragment) :
    ∃ u res, e.feedSession key p f = .ok (u,res) ∧
      EngineWf u (Function.update logs key (extendLog s (logs key) f)) ∧
      u.lastCleanupNs = e.lastCleanupNs ∧
      (∀ k q, u.sessions.Stored k q ↔ e.sessions.Stored k q ∧
        (k ≠ key ∨ (s.addFragment f).1 = true ∧ (s.addFragment f).2.isComplete = false)) ∧
      ((s.addFragment f).1 = true → u.heap.mem p = some (s.addFragment f).2) ∧
      res = if (s.addFragment f).1 && (s.addFragment f).2.isComplete then
        completedResult p (s.addFragment f).2 else {} := by
  have hb := h.built hst hs
  have hne := hst.ne_emptyKey
  unfold UDPassemblerEngine.feedSession
  simp only [hs]
  cases hacc : (s.addFragment f).1 with
  | false =>
    obtain ⟨b,m',he,hshape,hiff,ho⟩ := h.owns.erase_free hst
    simp only [Bool.not_false,if_true,he]
    refine ⟨_,_,rfl,⟨ho.change ?_,hshape.1.trans h.emptyKey⟩,rfl,?_,by simp,by simp⟩
    · intro k q s' hk _ hI
      rwa [Function.update_of_ne ((hiff k q).mp hk).1]
    · intro k q
      simpa [and_comm] using hiff k q
  | true =>
    have hb' := hb.addFragment hacc
    have hset := h.owns.set hst (J := fun k s' => s'.Built
        (Function.update logs key (extendLog s (logs key) f) k)) (a := (s.addFragment f).2)
      (by
        intro k s' hk hI
        rwa [Function.update_of_ne hk])
      (by simpa [extendLog,hacc] using hb')
    have hmem : (e.heap.set p (s.addFragment f).2).mem p = some (s.addFragment f).2 :=
      e.heap.set_mem_self _ hs
    simp only [Bool.not_true,Bool.false_eq_true,if_false]
    cases hc : (s.addFragment f).2.isComplete with
    | false =>
      simp only [Bool.false_eq_true,if_false]
      exact ⟨_,_,rfl,⟨hset,h.emptyKey⟩,rfl,by simp,fun _ => hmem,by simp⟩
    | true =>
      obtain ⟨b,m',he,hshape,hiff,ho⟩ := hset.erase hne
      obtain ⟨hlo,hhi⟩ := hb'.total_bounds hc
      have hlen : ((s.addFragment f).2.totalExpectedLen + (2 ^ 32 - 8)) % 2 ^ 32 =
          (s.addFragment f).2.totalExpectedLen - 8 := by omega
      simp only [if_true,he,hlen]
      refine ⟨_,_,rfl,⟨ho,hshape.1.trans h.emptyKey⟩,rfl,?_,fun _ => hmem,by
        simp [completedResult]⟩
      intro k q
      simpa [and_comm] using hiff k q

/-- Fragments accepted by the key's session once the call is handled, given those accepted
before it. -/
def acceptedLog (key : FragmentKey) (e : UDPassemblerEngine) (log : List Fragment)
    (c : FragmentCall) : Checked (List Fragment) := do
  let e ← e.cleanup c.nowNs
  match ← e.sessions.find key with
  | some p =>
      match e.heap.mem p with
      | none => .error .danglingPointer
      | some s => return extendLog s log c.fragment
  | none =>
      if e.sessions.size < maxActiveDgramSessions ∧ c.allocated then
        return extendLog { createdAtNs := c.nowNs } [] c.fragment
      else return log

variable {t : UDPassemblerEngine} {c : FragmentCall}

/-- A call that finds a session feeds it. -/
theorem EngineWf.call_found (h : EngineWf t logs)
    (ht : e.cleanup c.nowNs = .ok t) {p : Nat} (hf : t.sessions.find key = .ok (some p)) :
    ∃ s, t.sessions.Stored key p ∧ t.heap.mem p = some s ∧
      processFragment key e c = t.feedSession key p c.fragment ∧
      ∀ log, acceptedLog key e log c = .ok (extendLog s log c.fragment) := by
  have hst := h.owns.wf.find_stored hf
  obtain ⟨s,hs,_⟩ := h.owns.live key p hst
  refine ⟨s,hst,hs,?_,?_⟩
  · rw [processFragment,ht]
    simp only [bind,Except.bind,hf]
  · intro log
    rw [acceptedLog,ht]
    simp only [bind,Except.bind,hf,hs]
    rfl

/-- A call that finds no session, with a slot and memory for one, feeds a new session. -/
theorem EngineWf.call_new (h : EngineWf t logs) (hne : key ≠ kEmptyFragmentKey)
    (ht : e.cleanup c.nowNs = .ok t) (hf : t.sessions.find key = .ok none)
    (hroom : t.sessions.size < maxActiveDgramSessions) (halloc : c.allocated = true) :
    ∃ t' p, processFragment key e c = t'.feedSession key p c.fragment ∧
      (∀ log, acceptedLog key e log c =
        .ok (extendLog { createdAtNs := c.nowNs } [] c.fragment)) ∧
      EngineWf t' (Function.update logs key []) ∧
      t'.heap.mem p = some { createdAtNs := c.nowNs } ∧
      t'.lastCleanupNs = t.lastCleanupNs ∧
      ∀ k q, t'.sessions.Stored k q ↔ (k = key ∧ q = p) ∨ (k ≠ key ∧ t.sessions.Stored k q) := by
  obtain ⟨b,m',he,hshape,hst,ho⟩ := h.owns.insert (a := { createdAtNs := c.nowNs })
    (J := fun k s => s.Built (Function.update logs key [] k))
    (show key ≠ t.sessions.emptyKey by rwa [h.emptyKey]) hroom
    (by
      intro k s hk hb
      rwa [Function.update_of_ne hk])
    (by simpa using ReassemblySession.built_new c.nowNs)
  refine ⟨{ t with sessions := m', heap := (t.heap.alloc { createdAtNs := c.nowNs }).2 },_,?_,?_,
    ⟨ho,hshape.1.trans h.emptyKey⟩,t.heap.alloc_mem_self _,rfl,hst⟩
  · have hsize : ¬ t.sessions.size ≥ maxActiveDgramSessions := not_le.mpr hroom
    rw [processFragment,ht]
    simp only [bind,Except.bind,hf,hsize,halloc,he,Bool.not_true,Bool.false_eq_true,if_false]
  · intro log
    rw [acceptedLog,ht]
    simp only [bind,Except.bind,hf,hroom,halloc,and_self,if_true]
    rfl

/-- A call without a slot or memory for a new session changes nothing else. -/
theorem call_refused (ht : e.cleanup c.nowNs = .ok t) (hf : t.sessions.find key = .ok none)
    (hfull : ¬ (t.sessions.size < maxActiveDgramSessions ∧ c.allocated = true)) :
    processFragment key e c = .ok (t,{}) ∧ ∀ log, acceptedLog key e log c = .ok log := by
  constructor
  · rw [processFragment,ht]
    simp only [bind,Except.bind,hf]
    split_ifs with hsize halloc
    · rfl
    · rfl
    · exact absurd ⟨not_le.mp hsize,by simpa using halloc⟩ hfull
  · intro log
    rw [acceptedLog,ht]
    simp only [bind,Except.bind,hf,hfull,if_false]
    rfl

theorem extendLog_built {s : ReassemblySession} {log : List Fragment} {f : Fragment}
    (hb : s.Built log) (hacc : (s.addFragment f).1 = true) :
    (s.addFragment f).2.Built (extendLog s log f) := by
  rw [extendLog,if_pos hacc]
  exact hb.addFragment hacc

/-- The results a call may report for a session with a given log. -/
def Reports (u : UDPassemblerEngine) (log : List Fragment) (res : AssemblyResult) : Prop :=
  res.isComplete = true → ∃ p s, s.Built log ∧ s.isComplete = true ∧
    u.heap.mem p = some s ∧ res = completedResult p s

theorem EngineWf.feedSession_reports (h : EngineWf e logs) {p : Nat} {s : ReassemblySession}
    (hst : e.sessions.Stored key p) (hs : e.heap.mem p = some s) (f : Fragment) :
    ∃ u res, e.feedSession key p f = .ok (u,res) ∧
      EngineWf u (Function.update logs key (extendLog s (logs key) f)) ∧
      Reports u (extendLog s (logs key) f) res := by
  obtain ⟨u,res,hfeed,hwf,_,_,hmem,hres⟩ := h.feedSession hst hs f
  refine ⟨u,res,hfeed,hwf,?_⟩
  intro hc
  rw [hres] at hc
  split_ifs at hc with hboth
  · rw [Bool.and_eq_true] at hboth
    refine ⟨p,_,extendLog_built (h.built hst hs) hboth.1,hboth.2,hmem hboth.1,?_⟩
    rw [hres,if_pos (by simp [hboth.1,hboth.2])]

/-- One call always returns, keeps the invariant, and reports only complete sessions. -/
theorem EngineWf.processFragment (h : EngineWf e logs) (hne : key ≠ kEmptyFragmentKey)
    (c : FragmentCall) :
    ∃ u res log, processFragment key e c = .ok (u,res) ∧
      acceptedLog key e (logs key) c = .ok log ∧
      EngineWf u (Function.update logs key log) ∧ Reports u log res := by
  obtain ⟨t,ht,hwf,_⟩ := h.cleanup c.nowNs
  obtain ⟨slot,hf⟩ := t.sessions.find_ok key (by rwa [hwf.emptyKey])
  cases slot with
  | some p =>
    obtain ⟨s,hst,hs,hcall,hlog⟩ := hwf.call_found ht hf
    obtain ⟨u,res,hfeed,hwf',hrep⟩ := hwf.feedSession_reports hst hs c.fragment
    exact ⟨u,res,_,hcall.trans hfeed,hlog _,hwf',hrep⟩
  | none =>
    by_cases hfull : t.sessions.size < maxActiveDgramSessions ∧ c.allocated = true
    · obtain ⟨t',p,hcall,hlog,hwf',hmem,_,hst⟩ := hwf.call_new hne ht hf hfull.1 hfull.2
      obtain ⟨u,res,hfeed,hwfu,hrep⟩ :=
        hwf'.feedSession_reports ((hst key p).mpr (Or.inl ⟨rfl,rfl⟩)) hmem c.fragment
      rw [Function.update_self] at hwfu hrep
      rw [Function.update_idem] at hwfu
      exact ⟨u,res,_,hcall.trans hfeed,hlog _,hwfu,hrep⟩
    · obtain ⟨hcall,hlog⟩ := call_refused ht hf hfull
      refine ⟨t,{},_,hcall,hlog _,?_,by simp [Reports]⟩
      rwa [Function.update_eq_self]

/-- The address of a completed session is not in the table any more. -/
theorem EngineWf.feedSession_unstored (h : EngineWf e logs) {p q : Nat} {s : ReassemblySession}
    {f : Fragment} {u : UDPassemblerEngine} {res : AssemblyResult}
    (hst : e.sessions.Stored key p) (hs : e.heap.mem p = some s)
    (hrun : e.feedSession key p f = .ok (u,res)) (hq : res.completedSession = some q) :
    ∀ k, ¬u.sessions.Stored k q := by
  obtain ⟨u',res',hfeed,_,_,hstored,_,hres⟩ := h.feedSession hst hs f
  rw [hrun] at hfeed
  cases hfeed
  rw [hres] at hq
  split_ifs at hq with hdone
  simp only [Bool.and_eq_true] at hdone
  cases hq
  intro k hk
  obtain ⟨hk',hother⟩ := (hstored k p).mp hk
  rcases hother with hne | ⟨_,hopen⟩
  · exact hne (h.owns.inj k key p hk' hst)
  · rw [hdone.2] at hopen
    cases hopen

theorem EngineWf.processFragment_unstored (h : EngineWf e logs) (hne : key ≠ kEmptyFragmentKey)
    {c : FragmentCall} {u : UDPassemblerEngine} {res : AssemblyResult} {q : Nat}
    (hrun : UDPassemblerEngine.processFragment key e c = .ok (u,res))
    (hq : res.completedSession = some q) : ∀ k, ¬u.sessions.Stored k q := by
  obtain ⟨t,ht,hwf,_⟩ := h.cleanup c.nowNs
  obtain ⟨slot,hf⟩ := t.sessions.find_ok key (by rwa [hwf.emptyKey])
  cases slot with
  | some p =>
    obtain ⟨s,hst,hs,hcall,_⟩ := hwf.call_found ht hf
    exact hwf.feedSession_unstored hst hs (hcall.symm.trans hrun) hq
  | none =>
    by_cases hfull : t.sessions.size < maxActiveDgramSessions ∧ c.allocated = true
    · obtain ⟨t',p,hcall,_,hwf',hmem,_,hst⟩ := hwf.call_new hne ht hf hfull.1 hfull.2
      exact hwf'.feedSession_unstored ((hst key p).mpr (Or.inl ⟨rfl,rfl⟩)) hmem
        (hcall.symm.trans hrun) hq
    · rw [(call_refused ht hf hfull).1] at hrun
      cases hrun
      cases hq

/-- A call, together with the fragments accepted by the session it fed and, when it reports
a datagram, that session. -/
structure Observation where
  log : List Fragment
  result : AssemblyResult
  session : Option ReassemblySession

/-- `process_fragment` with the accepted fragments of every key recorded. -/
def observe (st : UDPassemblerEngine × (FragmentKey → List Fragment))
    (call : FragmentKey × FragmentCall) :
    Checked ((UDPassemblerEngine × (FragmentKey → List Fragment)) × Observation) := do
  let log ← acceptedLog call.1 st.1 (st.2 call.1) call.2
  let (e,res) ← processFragment call.1 st.1 call.2
  return ((e,Function.update st.2 call.1 log),⟨log,res,res.completedSession.bind e.heap.mem⟩)

/-- The call reports no datagram, or each byte of the datagram is that of the first accepted
fragment that covers its position. -/
def Sound (o : Observation) : Prop :=
  o.result.isComplete = true → ∃ s, o.session = some s ∧
    o.result.payload = (List.range o.result.payload.length).map (fun i => s.buffer (8 + i)) ∧
    ∀ p < o.result.payload.length + 8, ∃ f, firstCover o.log p = some f ∧ s.buffer p = f.byteAt p

/-- Some accepted fragment ends beyond the most recent one with MF = 0. -/
def overhang (log : List Fragment) : Bool :=
  log.any fun f => (lastStop log).any fun T => T < f.stop

/-- The fragment leaves no overhang in the session that the call feeds. -/
def NoOverhang (st : UDPassemblerEngine × (FragmentKey → List Fragment))
    (call : FragmentKey × FragmentCall) : Prop :=
  ∀ log, acceptedLog call.1 st.1 (st.2 call.1) call.2 = .ok log → overhang log = false

theorem sound_of_reports {u : UDPassemblerEngine} {log : List Fragment} {res : AssemblyResult}
    (h : Reports u log res) (hno : overhang log = false) :
    Sound ⟨log,res,res.completedSession.bind u.heap.mem⟩ := by
  intro hc
  obtain ⟨p,s,hb,hcomplete,hmem,rfl⟩ := h hc
  have hlen : (completedResult p s).payload.length = s.totalExpectedLen - 8 := by
    simp [completedResult]
  have hlo := (hb.total_bounds hcomplete).1
  refine ⟨s,hmem,by simp [completedResult],?_⟩
  intro q hq
  apply hb.complete_sound hcomplete ?_ q (by simp only [hlen] at hq; omega)
  intro f hf
  rw [overhang,hb.total_eq hcomplete] at hno
  simpa using List.any_eq_false.mp hno f hf

/-- A call with the sentinel key aborts. -/
theorem processFragment_sentinel (h : EngineWf e logs) (c : FragmentCall) :
    processFragment kEmptyFragmentKey e c =
      .error (.safeCheck "Cannot search for EmptyKey!") := by
  obtain ⟨t,ht,hwf,_⟩ := h.cleanup c.nowNs
  rw [processFragment,ht]
  simp only [bind,Except.bind,SingleThreadHashMap.find,hwf.emptyKey,safeCheck,ne_eq,
    not_true_eq_false,if_false]

theorem observe_step {st st' : UDPassemblerEngine × (FragmentKey → List Fragment)}
    {call : FragmentKey × FragmentCall} {o : Observation} (h : EngineWf st.1 st.2)
    (hs : observe st call = .ok (st',o)) :
    EngineWf st'.1 st'.2 ∧ (NoOverhang st call → Sound o) := by
  simp only [observe,bind_ok_iff] at hs
  obtain ⟨log,hlog,⟨u,res⟩,hcall,hret⟩ := hs
  cases hret
  have hne : call.1 ≠ kEmptyFragmentKey := by
    intro hkey
    rw [hkey,processFragment_sentinel h call.2] at hcall
    cases hcall
  obtain ⟨u',res',log',hcall',hlog',hwf,hrep⟩ := h.processFragment hne call.2
  rw [hcall] at hcall'
  rw [hlog] at hlog'
  cases hcall'
  cases hlog'
  exact ⟨hwf,fun hno => sound_of_reports hrep (hno log hlog)⟩

/-- In every run from a new engine whose calls leave no overhang, every reported datagram
is sound. -/
theorem run_sound (calls : List (FragmentKey × FragmentCall))
    (u : UDPassemblerEngine × (FragmentKey → List Fragment)) (outs : List Observation)
    (hno : Along NoOverhang observe (new,fun _ => []) calls)
    (hr : runOut observe (new,fun _ => []) calls = .ok (u,outs)) :
    ∀ o ∈ outs, Sound o := by
  have hinv := runOut_invariant
    (I := fun st (os : List Observation) => EngineWf st.1 st.2 ∧ ∀ o ∈ os, Sound o)
    (by
      intro st call st' o os hi hc hs
      obtain ⟨hwf,hsound⟩ := observe_step hi.1 hs
      refine ⟨hwf,?_⟩
      intro o' ho'
      rcases List.mem_append.mp ho' with ho' | ho'
      · exact hi.2 o' ho'
      · rw [List.mem_singleton.mp ho']
        exact hsound hc)
    calls (new,fun _ => []) u [] outs ⟨new_engineWf _,by simp⟩ hno hr
  simpa using hinv.2

def sampleKey : FragmentKey := ⟨1,2,3,17⟩

/-- A datagram of 16 bytes in two fragments. -/
def wholeCalls : List (FragmentKey × FragmentCall) :=
  [(sampleKey,⟨⟨8,List.replicate 8 7,false,by decide,by decide⟩,0,true⟩),
    (sampleKey,⟨⟨0,List.replicate 8 9,true,by decide,by decide⟩,0,true⟩)]

theorem run_sound_whole :
    ∃ u outs, Along NoOverhang observe (new,fun _ => []) wholeCalls ∧
      runOut observe (new,fun _ => []) wholeCalls = .ok (u,outs) ∧
      outs.map (fun o => o.result.isComplete) = [false,true] ∧ ∀ o ∈ outs, Sound o := by
  have hrun : ∃ u outs, runOut observe (new,fun _ => []) wholeCalls = .ok (u,outs) ∧
      outs.map (fun o => o.result.isComplete) = [false,true] := ⟨_,_,rfl,by decide +kernel⟩
  obtain ⟨u,outs,hr,hc⟩ := hrun
  have hno : Along NoOverhang observe (new,fun _ => []) wholeCalls := by
    refine ⟨?_,?_⟩
    · intro log hlog
      cases hlog
      rfl
    · intro t b hb
      cases hb
      refine ⟨?_,fun _ _ _ => trivial⟩
      intro log hlog
      cases hlog
      rfl
  exact ⟨u,outs,hno,hr,hc,run_sound _ u outs hno hr⟩

/-- A fragment past the end and a last fragment that leaves bytes 0 to 7 out. -/
def overhangCalls : List (FragmentKey × FragmentCall) :=
  [(sampleKey,⟨⟨16,List.replicate 16 7,true,by decide,by decide⟩,0,true⟩),
    (sampleKey,⟨⟨8,List.replicate 8 9,false,by decide,by decide⟩,0,true⟩)]

/-- The engine reports a datagram of 16 bytes whose first byte no fragment carried. -/
theorem run_reports_uncovered :
    ∃ u outs, runOut observe (new,fun _ => []) overhangCalls = .ok (u,outs) ∧
      ¬ ∀ o ∈ outs, Sound o := by
  have hrun : ∃ u o o', runOut observe (new,fun _ => []) overhangCalls = .ok (u,[o,o']) ∧
      o'.result.isComplete = true ∧ firstCover o'.log 0 = none := ⟨_,_,_,rfl,rfl,rfl⟩
  obtain ⟨u,o,o',hr,hc,hnone⟩ := hrun
  refine ⟨u,[o,o'],hr,?_⟩
  intro hall
  obtain ⟨s,_,_,hcover⟩ := hall o' (by simp) hc
  obtain ⟨f,hf,_⟩ := hcover 0 (by omega)
  rw [hnone] at hf
  cases hf

end UDPassemblerEngine

end Aethon
