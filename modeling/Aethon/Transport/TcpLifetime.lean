import Aethon.Framework.Lived
import Aethon.Transport.TcpRun

/-!
# Lives of TCP sessions

The calls of `process_packet` that return a session are its history. A session is opened by a
SYN, each later call of its history takes a packet of its 4-tuple in, and `rcv_nxt` counts the
bytes that the history has delivered. Data comes out only behind an ACK of the client, and
nothing comes out behind a FIN.
-/

namespace Aethon

open Framework

namespace TcpStreamSession

section Progress

variable {s t : TcpStreamSession} {pkt : TcpPacket} {garbage : Nat → UInt8}

/-- An accepted segment moves `rcv_nxt` by the bytes that come out. -/
theorem receiveData_advance {seq : BitVec 32} {payload : List UInt8}
    {ready : Option (List UInt8)} (hpos : 0 < payload.length) (hlen : payload.length < 65536)
    (h : s.receiveData seq payload garbage = .accepted t ready) :
    t.state = s.state ∧ t.rcvNxt = s.rcvNxt + BitVec.ofNat 32 (ready.getD []).length ∧
      (ready = none ∨ 0 < (ready.getD []).length) := by
  cases receiveData_accepted hpos hlen h with
  | delivered k hp _ => exact ⟨rfl,rfl,Or.inr hp.nonempty⟩
  | buffered => exact ⟨rfl,(BitVec.add_zero _).symm,Or.inl rfl⟩
  | drained k n _ bytes hp hd =>
    have hbytes : bytes.length = n := by simp [hd.bytes]
    rw [Option.getD_some,hbytes]
    exact ⟨hd.state,hd.rcvNxt,Or.inr hd.pos⟩

/-- What a packet does to the stream of a session that it does not end: nothing, it delivers
bytes, or it delivers the last bytes. -/
inductive Progress (s : TcpStreamSession) (pkt : TcpPacket) (t : TcpStreamSession)
    (res : TcpAssemblyResult) : Prop where
  | still (hstate : t.state = s.state) (hnxt : t.rcvNxt = s.rcvNxt)
      (hready : res.isReady = false) (hpayload : res.payload = [])
      (hopen : res.isClosed = false)
  | fed (htakes : s.takesData pkt = true) (hstate : t.state = .established)
      (hnxt : t.rcvNxt = s.rcvNxt + BitVec.ofNat 32 (handedOut res).length)
      (hall : handedOut res = res.payload) (hopen : res.isClosed = false)
  | finished (htakes : s.takesData pkt = true) (hstate : t.state = .closing)
      (hnxt : t.rcvNxt = s.rcvNxt + BitVec.ofNat 32 (handedOut res).length + 1)
      (hall : handedOut res = res.payload) (hclosed : res.isClosed = true)

theorem onFin_progress {v : TcpStreamSession} {r res : TcpAssemblyResult}
    (htakes : s.takesData pkt = true) (hstate : v.state = .established)
    (hnxt : v.rcvNxt = s.rcvNxt + BitVec.ofNat 32 (handedOut r).length)
    (hall : handedOut r = r.payload) (hopen : r.isClosed = false)
    (h : v.onFin pkt r = (some t,res)) : s.Progress pkt t res := by
  unfold onFin at h
  split_ifs at h
  · cases h
  · cases h
    refine .finished htakes rfl ?_ hall rfl
    change v.rcvNxt + 1 = _
    rw [hnxt]
    rfl
  · cases h
    exact .fed htakes hstate hnxt hall hopen

theorem onPacket_progress {nowNs : BitVec 64} {res : TcpAssemblyResult}
    (h : s.onPacket pkt nowNs garbage = (some t,res)) : s.Progress pkt t res := by
  cases htakes : s.takesData pkt with
  | false =>
    rcases onPacket_other nowNs garbage htakes with ⟨_,hon⟩ | ⟨_,r,hon,hready,hpayload,hopen⟩
    · rw [hon] at h
      cases h
    · rw [hon] at h
      cases h
      exact .still rfl rfl hready hpayload hopen
  | true =>
    have hsame : s.Progress pkt (s.awake nowNs) {} :=
      .fed htakes rfl (BitVec.add_zero _).symm rfl rfl
    rw [onPacket_takesData nowNs garbage htakes] at h
    unfold onEstablished at h
    split_ifs at h with hpos
    · cases hr : (s.awake nowNs).receiveData pkt.seq pkt.payload garbage with
      | outOfWindow =>
        rw [hr] at h
        cases h
        exact hsame
      | duplicate =>
        rw [hr] at h
        cases h
        exact .fed htakes rfl (BitVec.add_zero _).symm rfl rfl
      | conflict =>
        rw [hr] at h
        cases h
      | accepted v ready =>
        rw [hr] at h
        obtain ⟨hstate,hnxt,_⟩ := receiveData_advance hpos pkt.payload_lt hr
        have hall : handedOut { isReady := ready.isSome, payload := ready.getD [] } =
            ready.getD [] := by
          cases ready with
          | none => rfl
          | some bytes => rfl
        refine onFin_progress htakes hstate ?_ hall rfl h
        rw [hall]
        exact hnxt
    · exact onFin_progress htakes rfl (BitVec.add_zero _).symm rfl rfl h

theorem onFin_gone {r res : TcpAssemblyResult} (h : s.onFin pkt r = (none,res)) :
    r.payload.length = 0 ∧ res.isReady = r.isReady := by
  unfold onFin at h
  split at h
  · simp only [Prod.mk.injEq,ite_eq_left_iff,reduceCtorEq,imp_false,not_not] at h
    exact ⟨h.1,by rw [← h.2]⟩
  · cases h

/-- A packet that ends the session delivers nothing. -/
theorem onPacket_none {nowNs : BitVec 64} {res : TcpAssemblyResult}
    (h : s.onPacket pkt nowNs garbage = (none,res)) : res.isReady = false := by
  cases htakes : s.takesData pkt with
  | false =>
    rcases onPacket_other nowNs garbage htakes with ⟨_,hon⟩ | ⟨_,r,hon,_⟩
    · rw [hon] at h
      cases h
      rfl
    · rw [hon] at h
      cases h
  | true =>
    rw [onPacket_takesData nowNs garbage htakes] at h
    unfold onEstablished at h
    split_ifs at h with hpos
    · cases hr : (s.awake nowNs).receiveData pkt.seq pkt.payload garbage with
      | outOfWindow =>
        rw [hr] at h
        cases h
      | duplicate =>
        rw [hr] at h
        cases h
      | conflict =>
        rw [hr] at h
        cases h
        rfl
      | accepted v ready =>
        rw [hr] at h
        obtain ⟨_,_,hready⟩ := receiveData_advance hpos pkt.payload_lt hr
        obtain ⟨hempty,hsame⟩ := onFin_gone h
        rw [hsame]
        rcases hready with rfl | hbytes
        · rfl
        · exact absurd hempty hbytes.ne'
    · exact (onFin_gone h).2

end Progress

end TcpStreamSession

namespace TcpAssemblerEngine

open TcpStreamSession

/-- `process_packet`, with the call beside its result. -/
def record (e : TcpAssemblerEngine) (c : PacketCall) :
    Checked (TcpAssemblerEngine × (PacketCall × TcpAssemblyResult)) := do
  let (u,res) ← e.processPacket c
  return (u,(c,res))

theorem record_ok {e u : TcpAssemblerEngine} {c : PacketCall}
    {o : PacketCall × TcpAssemblyResult} :
    e.record c = .ok (u,o) ↔ e.processPacket c = .ok (u,o.2) ∧ o.1 = c := by
  rw [record,bind_ok_iff]
  constructor
  · rintro ⟨⟨v,res⟩,hp,hret⟩
    cases hret
    exact ⟨hp,rfl⟩
  · rintro ⟨hp,rfl⟩
    exact ⟨(u,o.2),hp,rfl⟩

/-- The calls that return the session at `p`, with their results. -/
def historyOf (p : Nat) (log : List (PacketCall × TcpAssemblyResult)) :
    List (PacketCall × TcpAssemblyResult) :=
  log.filter fun o => o.2.session = some p

theorem historyOf_append (p : Nat) (log log' : List (PacketCall × TcpAssemblyResult)) :
    historyOf p (log ++ log') = historyOf p log ++ historyOf p log' := List.filter_append ..

theorem historyOf_self {p : Nat} {o : PacketCall × TcpAssemblyResult}
    (h : o.2.session = some p) : historyOf p [o] = [o] := by
  simp [historyOf,h]

theorem historyOf_other {p : Nat} {o : PacketCall × TcpAssemblyResult}
    (h : o.2.session ≠ some p) : historyOf p [o] = [] := by
  simp [historyOf,h]

/-- The rules for an invariant of the session at `p` and its history: `Live` while the session
is open, `Done` after that. -/
structure SessionRule (p : Nat)
    (Live : TcpStreamSession → List (PacketCall × TcpAssemblyResult) → Prop)
    (Done : List (PacketCall × TcpAssemblyResult) → Prop) : Prop where
  opened : ∀ c : PacketCall, c.packet.has thSyn = true →
    Live (.opened c.packet c.nowNs) [(c,portsOf c.packet { isSyn := true } (some p))]
  kept : ∀ (s t : TcpStreamSession) (c : PacketCall) (r : TcpAssemblyResult)
    (history : List (PacketCall × TcpAssemblyResult)), Live s history →
    s.key = c.packet.key → s.onPacket c.packet c.nowNs c.garbage = (some t,r) →
    Live t (history ++ [(c,portsOf c.packet r (some p))])
  freed : ∀ s history, Live s history → Done history

section Rule

variable {p : Nat} {Live : TcpStreamSession → List (PacketCall × TcpAssemblyResult) → Prop}
  {Done : List (PacketCall × TcpAssemblyResult) → Prop} {e t u : TcpAssemblerEngine}
  {c : PacketCall} {res : TcpAssemblyResult} {log : List (PacketCall × TcpAssemblyResult)}

/-- Every stored session stands under its own key. -/
abbrev Keyed (e : TcpAssemblerEngine) : Prop := EngineWf (fun k s => s.key = k) e

theorem deleteSession_heap {key : TcpKey} {q : Nat} {s : TcpStreamSession}
    (h : e.deleteSession key q s = .ok u) : u.heap = e.heap.free q := by
  obtain ⟨_,_,hret⟩ := (bind_ok_iff ..).mp h
  cases hret
  rfl

theorem SessionRule.step (rule : SessionRule p Live Done) (hkeyed : Keyed t)
    (h : Lived Live Done p t.heap (historyOf p log)) (hcase : StepCase t c u res) :
    Lived Live Done p u.heap (historyOf p (log ++ [(c,res)])) := by
  rw [historyOf_append]
  cases hcase with
  | ignored =>
    rw [historyOf_other (by simp [portsOf]),List.append_nil]
    exact h
  | opened m b hsyn hroom hnone hput =>
    by_cases hp : p = t.heap.next
    · subst hp
      refine .stays (.opened c.packet c.nowNs) (Heap.alloc_mem_self t.heap _) ?_
      rw [h.unborn le_rfl,List.nil_append,historyOf_self (by rfl)]
      exact rule.opened c hsyn
    · rw [historyOf_other (by simpa [portsOf,Heap.alloc_fst] using Ne.symm hp),List.append_nil]
      exact h.other (Nat.le_succ _) (Heap.alloc_mem_of_ne t.heap _ hp)
  | kept q s s' r hfind hs hon =>
    by_cases hp : p = q
    · subst hp
      refine .stays s' (Heap.set_mem_self t.heap s' hs) ?_
      rw [historyOf_self (by rfl)]
      have hkey := hkeyed.owns.holds (hkeyed.owns.wf.find_stored hfind) hs
      exact rule.kept s s' c r _ (h.live s hs) hkey hon
    · rw [historyOf_other (by simpa [portsOf] using Ne.symm hp),List.append_nil]
      exact h.other le_rfl (Heap.set_mem_of_ne t.heap s' hp)
  | removed q s r v hfind hs hon hdel =>
    rw [historyOf_other (by simp [portsOf]),List.append_nil,deleteSession_heap hdel]
    exact h.free rule.freed hs

theorem Keyed.cleanup (h : Keyed e) (hrun : e.cleanup c.nowNs = .ok t) : Keyed t := by
  obtain ⟨t',ht',hwf,_⟩ := EngineWf.cleanup h c.nowNs
  rw [hrun] at ht'
  cases ht'
  exact hwf

theorem Keyed.step (h : Keyed t) (hcase : StepCase t c u res) : Keyed u := by
  apply hcase.engineWf h (fun _ _ _ hk => hk) (fun _ _ hk => hk) (fun _ => rfl)
  intro q s s' r _ _ _ hk hon
  obtain ⟨_,_,_,_,_,rfl⟩ := onPacket_updated hon
  exact hk

/-- An invariant of the session at `p` holds in every run. -/
theorem SessionRule.run (rule : SessionRule p Live Done) {calls : List PacketCall}
    (hrun : runOut record new calls = .ok (u,log)) :
    Lived Live Done p u.heap (historyOf p log) := by
  have hend := runOut_invariant (C := fun _ _ => True)
    (I := fun e log => Keyed e ∧ Lived Live Done p e.heap (historyOf p log))
    (by
      intro e c u o log hi _ hstep
      obtain ⟨hp,rfl⟩ := record_ok.mp hstep
      obtain ⟨t,ht,hcase⟩ := processPacket_cases hp
      have hlived := cleanup_preserves
        (P := fun v => Lived Live Done p v.heap (historyOf p log))
        (fun v key q s v' hv hs _ hdel => by
          rw [deleteSession_heap hdel]
          exact hv.free rule.freed hs) (fun _ hv => hv) hi.2 ht
      have hkeyed := hi.1.cleanup ht
      exact ⟨hkeyed.step hcase,rule.step hkeyed hlived hcase⟩)
    calls new u [] log ⟨new_engineWf _,Lived.empty p⟩
    (Along.of_always (fun _ _ => trivial) calls new) hrun
  exact hend.2

end Rule

/-- The packet of the call acknowledges and does not synchronise. -/
def PacketCall.acks (c : PacketCall) : Bool := !c.packet.has thSyn && c.packet.has thAck

/-- Bytes that the history has delivered. -/
def deliveredBytes (history : List (PacketCall × TcpAssemblyResult)) : List UInt8 :=
  history.flatMap fun o => handedOut o.2

theorem deliveredBytes_snoc (history : List (PacketCall × TcpAssemblyResult))
    (o : PacketCall × TcpAssemblyResult) :
    deliveredBytes (history ++ [o]) = deliveredBytes history ++ handedOut o.2 := by
  simp [deliveredBytes]

/-- Data comes out after, or with, an ACK. -/
def BehindAck (before : List (PacketCall × TcpAssemblyResult))
    (o : PacketCall × TcpAssemblyResult) : Prop :=
  o.2.isReady = true → ∃ a ∈ before ++ [o], PacketCall.acks a.1 = true

/-- Nothing comes out after a FIN. -/
def QuietAfterFin (before : List (PacketCall × TcpAssemblyResult))
    (o : PacketCall × TcpAssemblyResult) : Prop :=
  (∃ a ∈ before, a.2.isClosed = true) → o.2.isReady = false ∧ o.2.payload = []

/-- What `rcv_nxt` should be after the history. -/
def expectedNext (s : TcpStreamSession) (history : List (PacketCall × TcpAssemblyResult)) :
    BitVec 32 :=
  s.isn + 1 + BitVec.ofNat 32 (deliveredBytes history).length +
    if s.state = .closing then 1 else 0

/-- The account of an open session. -/
structure Accounted (s : TcpStreamSession) (history : List (PacketCall × TcpAssemblyResult)) :
    Prop where
  first : ∃ o rest, history = o :: rest ∧ o.1.packet.has thSyn = true ∧ s.isn = o.1.packet.seq
  key : ∀ o ∈ history, o.1.packet.key = s.key
  phase : s.state ≠ .closed
  acked : s.state ≠ .synSent → ∃ a ∈ history, PacketCall.acks a.1 = true
  next : s.rcvNxt = expectedNext s history
  closing : s.state = .closing ↔ ∃ a ∈ history, a.2.isClosed = true
  gate : Each BehindAck history
  quiet : Each QuietAfterFin history

namespace Accounted

variable {s t : TcpStreamSession} {history : List (PacketCall × TcpAssemblyResult)}
  {c : PacketCall} {r : TcpAssemblyResult} {p : Nat}

theorem opened (hsyn : c.packet.has thSyn = true) :
    Accounted (.opened c.packet c.nowNs)
      [(c,portsOf c.packet { isSyn := true } (some p))] where
  first := ⟨_,[],rfl,hsyn,rfl⟩
  key := by simp [TcpStreamSession.opened]
  phase := by simp [TcpStreamSession.opened]
  acked := by simp [TcpStreamSession.opened]
  next := by simp [expectedNext,deliveredBytes,handedOut,portsOf,TcpStreamSession.opened]
  closing := by simp [TcpStreamSession.opened,portsOf]
  gate := Each.nil.snoc (by simp [BehindAck,portsOf])
  quiet := Each.nil.snoc (by simp [QuietAfterFin])

/-- A packet that reaches the data part comes after, or with, an ACK, and before the FIN. -/
theorem takesData (h : Accounted s history) (htakes : s.takesData c.packet = true) :
    (∃ a ∈ history ++ [(c,r)], PacketCall.acks a.1 = true) ∧ s.state ≠ .closing := by
  simp only [TcpStreamSession.takesData,Bool.and_eq_true,Bool.not_eq_true',Bool.or_eq_true,
    decide_eq_true_eq] at htakes
  obtain ⟨⟨_,hsyn⟩,hstate⟩ := htakes
  rcases hstate with hstate | ⟨hstate,hack⟩
  · obtain ⟨a,ha,hacks⟩ := h.acked (by simp [hstate])
    exact ⟨⟨a,by simp [ha],hacks⟩,by simp [hstate]⟩
  · refine ⟨⟨_,List.mem_append_right _ (List.mem_singleton_self _),?_⟩,by simp [hstate]⟩
    simp [PacketCall.acks,hsyn,hack]

/-- One more call with the session: what is left to show of the new account. -/
theorem extend (h : Accounted s history) (hkey : s.key = c.packet.key) (hupdated : s.Updated t)
    (hphase : t.state ≠ .closed)
    (hacked : t.state ≠ .synSent → ∃ a ∈ history ++ [(c,r)], PacketCall.acks a.1 = true)
    (hnext : t.rcvNxt = s.isn + 1 + BitVec.ofNat 32 (deliveredBytes history).length +
      BitVec.ofNat 32 (handedOut r).length + if t.state = .closing then 1 else 0)
    (hclosing : t.state = .closing ↔ ∃ a ∈ history ++ [(c,r)], a.2.isClosed = true)
    (hgate : BehindAck history (c,r)) (hquiet : QuietAfterFin history (c,r)) :
    Accounted t (history ++ [(c,r)]) := by
  obtain ⟨_,_,_,_,_,ht⟩ := hupdated
  have htkey : t.key = s.key := by rw [ht]
  have htisn : t.isn = s.isn := by rw [ht]
  refine ⟨?_,?_,hphase,hacked,?_,hclosing,h.gate.snoc hgate,h.quiet.snoc hquiet⟩
  · obtain ⟨o,rest,rfl,hsyn,hisn⟩ := h.first
    exact ⟨o,_,List.cons_append,hsyn,htisn.trans hisn⟩
  · intro o ho
    rw [htkey]
    rcases List.mem_append.mp ho with hold | hnew
    · exact h.key o hold
    · rw [List.mem_singleton.mp hnew]
      exact hkey.symm
  · rw [hnext,expectedNext,htisn,deliveredBytes_snoc,List.length_append,BitVec.ofNat_add,
      BitVec.add_assoc (s.isn + 1)]

theorem kept (h : Accounted s history) (hkey : s.key = c.packet.key)
    (hon : s.onPacket c.packet c.nowNs c.garbage = (some t,r)) :
    Accounted t (history ++ [(c,portsOf c.packet r (some p))]) := by
  have hupdated := onPacket_updated hon
  have hnext := h.next
  rw [expectedNext] at hnext
  cases onPacket_progress hon with
  | still hstate hnxt hready hpayload hopen =>
    have hnone : handedOut r = [] := by simp [handedOut,hready]
    refine h.extend hkey hupdated (hstate ▸ h.phase) ?_ ?_ ?_ ?_ fun _ => ⟨hready,hpayload⟩
    · intro hne
      obtain ⟨a,ha,hacks⟩ := h.acked (hstate ▸ hne)
      exact ⟨a,List.mem_append_left _ ha,hacks⟩
    · rw [hnxt,hnext,hstate,handedOut_portsOf,hnone]
      simp
    · rw [hstate,h.closing]
      simp [portsOf,hopen]
    · intro hyes
      cases hready.symm.trans hyes
  | fed htakes hstate hnxt _ hopen =>
    obtain ⟨hacked,hbefore⟩ := h.takesData (r := portsOf c.packet r (some p)) htakes
    have hnotFin : ¬ ∃ a ∈ history, a.2.isClosed = true := fun hfin =>
      hbefore (h.closing.mpr hfin)
    refine h.extend hkey hupdated (by simp [hstate]) (fun _ => hacked) ?_ ?_ (fun _ => hacked)
      fun hfin => absurd hfin hnotFin
    · rw [hnxt,hnext,handedOut_portsOf]
      simp [hbefore,hstate]
    · simp only [hstate,reduceCtorEq,false_iff]
      rintro ⟨a,ha,hclosed⟩
      rcases List.mem_append.mp ha with hold | hnew
      · exact hnotFin ⟨a,hold,hclosed⟩
      · rw [List.mem_singleton.mp hnew] at hclosed
        cases hopen.symm.trans hclosed
  | finished htakes hstate hnxt _ hclosed =>
    obtain ⟨hacked,hbefore⟩ := h.takesData (r := portsOf c.packet r (some p)) htakes
    refine h.extend hkey hupdated (by simp [hstate]) (fun _ => hacked) ?_ ?_ (fun _ => hacked)
      fun hfin => absurd (h.closing.mpr hfin) hbefore
    · rw [hnxt,hnext,handedOut_portsOf]
      simp [hbefore,hstate]
    · simp only [hstate,true_iff]
      exact ⟨_,List.mem_append_right _ (List.mem_singleton_self _),hclosed⟩

end Accounted

/-- What the history of a session says after its end. -/
structure Ordered (history : List (PacketCall × TcpAssemblyResult)) : Prop where
  first : ∀ o rest, history = o :: rest →
    o.1.packet.has thSyn = true ∧ ∀ a ∈ rest, a.1.packet.key = o.1.packet.key
  gate : Each BehindAck history
  quiet : Each QuietAfterFin history

theorem Ordered.nil : Ordered [] where
  first := by simp
  gate := Each.nil
  quiet := Each.nil

theorem Accounted.ordered {s : TcpStreamSession}
    {history : List (PacketCall × TcpAssemblyResult)} (h : Accounted s history) :
    Ordered history where
  first := by
    intro o rest heq
    obtain ⟨o',rest',heq',hsyn,_⟩ := h.first
    rw [heq] at heq'
    cases heq'
    refine ⟨hsyn,?_⟩
    intro a ha
    rw [h.key a (by simp [heq,ha]),h.key o (by simp [heq])]
  gate := h.gate
  quiet := h.quiet

theorem accounted_rule (p : Nat) : SessionRule p Accounted Ordered where
  opened := fun _ hsyn => Accounted.opened hsyn
  kept := fun _ _ _ _ _ h hkey hon => h.kept hkey hon
  freed := fun _ _ h => h.ordered

/-- A result without a session delivers nothing. -/
theorem processPacket_unnamed {e u : TcpAssemblerEngine} {c : PacketCall}
    {res : TcpAssemblyResult} (h : e.processPacket c = .ok (u,res)) (hnone : res.session = none) :
    res.isReady = false := by
  obtain ⟨t,_,hcase⟩ := processPacket_cases h
  cases hcase with
  | ignored => rfl
  | opened => cases hnone
  | kept => cases hnone
  | removed q s r v hfind hs hon hdel =>
    change r.isReady = false
    exact onPacket_none hon

/-- Handshake and accounting of the session at `p`, in a run that has led to `e` with `log` and
that goes on with `later`. -/
structure HandshakeAndAccount (p : Nat) (e : TcpAssemblerEngine)
    (log later : List (PacketCall × TcpAssemblyResult)) : Prop where
  opening : ∀ o rest, historyOf p log = o :: rest →
    o.1.packet.has thSyn = true ∧ ∀ a ∈ rest, a.1.packet.key = o.1.packet.key
  gate : ∀ before o after, historyOf p log = before ++ o :: after → o.2.isReady = true →
    ∃ a ∈ before ++ [o], a.1.packet.has thSyn = false ∧ a.1.packet.has thAck = true
  account : ∀ s, e.heap.mem p = some s → ∃ o rest, historyOf p log = o :: rest ∧
    s.key = o.1.packet.key ∧ s.isn = o.1.packet.seq ∧ s.state ≠ .closed ∧
    s.rcvNxt = s.isn + 1 + BitVec.ofNat 32 (deliveredBytes (historyOf p log)).length +
      if s.state = .closing then 1 else 0
  quiet : ∀ s, e.heap.mem p = some s → s.state = .closing →
    ∀ o ∈ historyOf p later, o.2.isReady = false ∧ o.2.payload = []

/-- Every session is opened by a SYN, delivers behind an ACK, counts what it delivers, and is
quiet once it is closing. -/
theorem handshake_and_account (calls more : List PacketCall) (e u : TcpAssemblerEngine)
    (log later : List (PacketCall × TcpAssemblyResult)) (p : Nat)
    (hrun : runOut record new calls = .ok (e,log))
    (hmore : runOut record e more = .ok (u,later)) :
    HandshakeAndAccount p e log later ∧
      ∀ o ∈ log, o.2.session = none → o.2.isReady = false := by
  have hlived := (accounted_rule p).run hrun
  have hend : Ordered (historyOf p log ++ historyOf p later) := by
    rw [← historyOf_append]
    have hwhole := (runOut_append ..).mpr ⟨e,log,later,hrun,hmore,rfl⟩
    exact ((accounted_rule p).run hwhole).ended (accounted_rule p).freed Ordered.nil
  have hordered := hlived.ended (accounted_rule p).freed Ordered.nil
  refine ⟨⟨hordered.first,?_,?_,?_⟩,?_⟩
  · intro before o after heq hready
    obtain ⟨a,ha,hacks⟩ := hordered.gate before o after heq hready
    simp only [PacketCall.acks,Bool.and_eq_true,Bool.not_eq_true'] at hacks
    exact ⟨a,ha,hacks⟩
  · intro s hs
    have haccount := hlived.live s hs
    obtain ⟨o,rest,heq,_,hisn⟩ := haccount.first
    exact ⟨o,rest,heq,(haccount.key o (by simp [heq])).symm,hisn,haccount.phase,haccount.next⟩
  · intro s hs hstate o ho
    obtain ⟨a,ha,hclosed⟩ := (hlived.live s hs).closing.mp hstate
    obtain ⟨before,after,heq⟩ := List.append_of_mem ho
    apply hend.quiet (historyOf p log ++ before) o after
    · rw [heq,List.append_assoc]
    · exact ⟨a,List.mem_append_left _ ha,hclosed⟩
  · exact runOut_forall (fun _ _ _ _ hstep => processPacket_unnamed (record_ok.mp hstep).1) hrun

/-- A handshake, a byte, and a FIN with another byte. -/
def closingCalls : List PacketCall :=
  [sampleSyn,byteCall thAck 1 5,byteCall (thFin ||| thAck) 2 6]

def afterClosing : List PacketCall := [byteCall thAck 4 7]

theorem handshake_and_account_closing : ∃ e u log later,
    runOut record new closingCalls = .ok (e,log) ∧
    runOut record e afterClosing = .ok (u,later) ∧
    deliveredBytes (historyOf 1 log) = [5,6] ∧ (historyOf 1 later).length = 1 ∧
    (e.heap.mem 1).map (fun s => (s.state,s.rcvNxt)) = some (.closing,4) ∧
    HandshakeAndAccount 1 e log later ∧
    ∀ o ∈ log, o.2.session = none → o.2.isReady = false :=
  ⟨_,_,_,_,rfl,rfl,by decide +kernel,by decide +kernel,by decide +kernel,
    handshake_and_account closingCalls afterClosing _ _ _ _ 1 rfl rfl⟩

end TcpAssemblerEngine

end Aethon
