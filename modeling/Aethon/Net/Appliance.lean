import Aethon.Ebpf.XdpProgram
import Aethon.Framework.Sharded
import Aethon.Net.Sentinel
import Aethon.Transport.UdpInterleaved

/-!
# The appliance

The XDP program in front of one worker for each queue. A frame that the program redirects goes to
the worker of the socket, if the kernel delivers it there: which frames received on one queue it
delivers to the socket of another is left open.
-/

namespace Aethon.Net

open Framework Ebpf Pipeline UDPassemblerEngine

inductive NetEvent where
  | arrival (rxQueueIndex : BitVec 32) (env : RxEnv) (pkt : Nat → UInt8) (len : Nat)
  | backend (queue : Nat) (txBuffer : Nat → UInt8) (events : List BackendEvent)
  | completion (queue : Nat) (addrs : List Nat)

/-- What the appliance is set up with: the maps of the program, the frames that the kernel delivers,
and the configuration of the workers. -/
structure Appliance where
  maps : XdpMaps
  delivers : BitVec 32 → Nat → Bool
  cfg : Config := {}
  hostIps : List (BitVec 32) := []

namespace Appliance

variable (a : Appliance)

/-- The worker that an event goes to, and what the worker sees of it. -/
def route : NetEvent → Option (Nat × WorkerEvent)
  | .arrival rxQueueIndex env pkt len =>
      (aethonXdpProgMain a.maps rxQueueIndex pkt len).queue.bind fun q =>
        if a.delivers rxQueueIndex q then some (q,.packet env pkt len) else none
  | .backend q txBuffer events => some (q,.backend txBuffer events)
  | .completion q addrs => some (q,.completion addrs)

def step : (Nat → Worker) → NetEvent → Checked ((Nat → Worker) × Option (Nat × RxReport)) :=
  routed a.route (workerStep a.cfg a.hostIps)

end Appliance

section Fragments

variable (hostIps : List (BitVec 32))

/-- The worker takes the packet for a fragment of a datagram. -/
def isDatagramFragment (pkt : Nat → UInt8) (len : Nat) : Bool :=
  acceptsIpv4 pkt len && isForThisHost pkt hostIps && protocol pkt = ipprotoUdp &&
    (moreFragments pkt || fragOffset pkt ≠ 0)

def fragmentCallOf (env : RxEnv) (pkt : Nat → UInt8) : FragmentCall :=
  ⟨fragmentOf pkt,env.nowNs,env.allocated⟩

/-- The fragment with key `key` that an event brings. -/
def Appliance.fragmentIn (a : Appliance) (key : FragmentKey) : NetEvent → Option Fragment
  | .arrival _ _ pkt len =>
      if isDatagramFragment a.hostIps pkt len ∧ fragmentKeyOf pkt = key then some (fragmentOf pkt)
      else none
  | _ => none

/-- The queue of the fragments with key `key`. -/
def Appliance.keyQueue (a : Appliance) (key : FragmentKey) : Nat :=
  (key.srcIp.toNat + key.dstIp.toNat) % (dynamicNumQueues a.maps).toNat

variable {hostIps} {pkt : Nat → UInt8} {len : Nat} {a : Appliance}

theorem route_arrival {env : RxEnv} {q : Nat} {rxQueueIndex : BitVec 32} {wev : WorkerEvent}
    (h : a.route (.arrival rxQueueIndex env pkt len) = some (q,wev)) :
    (aethonXdpProgMain a.maps rxQueueIndex pkt len).queue = some q ∧ wev = .packet env pkt len := by
  obtain ⟨p,hp,hdelivered⟩ := Option.bind_eq_some_iff.mp h
  split_ifs at hdelivered
  cases hdelivered
  exact ⟨hp,rfl⟩

structure DatagramFragment (hostIps : List (BitVec 32)) (pkt : Nat → UInt8) (len : Nat) : Prop where
  accepted : acceptsIpv4 pkt len = true
  forHost : isForThisHost pkt hostIps = true
  udp : protocol pkt = ipprotoUdp
  fragmented : moreFragments pkt = true ∨ fragOffset pkt ≠ 0

theorem isDatagramFragment_iff :
    isDatagramFragment hostIps pkt len = true ↔ DatagramFragment hostIps pkt len := by
  simp only [isDatagramFragment,Bool.and_eq_true,Bool.or_eq_true,decide_eq_true_eq]
  constructor
  · rintro ⟨⟨⟨haccept,hhost⟩,hudp⟩,hpart⟩
    exact ⟨haccept,hhost,hudp,hpart⟩
  · rintro ⟨haccept,hhost,hudp,hpart⟩
    exact ⟨⟨⟨haccept,hhost⟩,hudp⟩,hpart⟩

theorem acceptsIpv4_ip (h : acceptsIpv4 pkt len = true) : etherType pkt = etherTypeIp := by
  simp only [acceptsIpv4,Bool.and_eq_true,decide_eq_true_eq] at h
  exact h.1.1.1

/-- The queue of a fragment is that of its key. -/
theorem DatagramFragment.targetQueue (h : DatagramFragment hostIps pkt len) (a : Appliance)
    (rxQueueIndex : BitVec 32) :
    (targetQueue a.maps rxQueueIndex pkt).toNat = a.keyQueue (fragmentKeyOf pkt) :=
  targetQueue_fragment (acceptsIpv4_ip h.accepted) (isFragment_iff.mpr h.fragmented) rxQueueIndex

theorem fragmentIn_eq_some {key : FragmentKey} {rxQueueIndex : BitVec 32} {env : RxEnv}
    {f : Fragment} : a.fragmentIn key (.arrival rxQueueIndex env pkt len) = some f ↔
      DatagramFragment a.hostIps pkt len ∧ fragmentKeyOf pkt = key ∧ fragmentOf pkt = f := by
  simp only [Appliance.fragmentIn,← isDatagramFragment_iff]
  split_ifs with hfragment
  · simp [hfragment]
  · constructor
    · intro hnone
      cases hnone
    · rintro ⟨hboth,hkey,_⟩
      exact absurd ⟨hboth,hkey⟩ hfragment

/-- A fragment that reaches a worker reaches that of its key. -/
theorem route_fragment {key : FragmentKey} {ev : NetEvent} {f : Fragment} {q : Nat}
    {wev : WorkerEvent} (hfragment : a.fragmentIn key ev = some f)
    (hroute : a.route ev = some (q,wev)) :
    q = a.keyQueue key ∧ ∃ env pkt len, wev = .packet env pkt len ∧
      DatagramFragment a.hostIps pkt len ∧ fragmentKeyOf pkt = key ∧ fragmentOf pkt = f := by
  cases ev with
  | backend q txBuffer events => cases hfragment
  | completion q addrs => cases hfragment
  | arrival rxQueueIndex env pkt len =>
    obtain ⟨hdatagram,hkey,hf⟩ := fragmentIn_eq_some.mp hfragment
    obtain ⟨hp,rfl⟩ := route_arrival hroute
    refine ⟨?_,env,pkt,len,rfl,hdatagram,hkey,hf⟩
    rw [(redirected_of_queue hp).target,hdatagram.targetQueue a rxQueueIndex,hkey]

end Fragments

section Workers

variable {cfg : Config} {hostIps : List (BitVec 32)} {w w' : Worker} {pkt : Nat → UInt8}
  {len : Nat} {env : RxEnv} {key : FragmentKey} {done : List Fragment} {report : RxReport}
  {D : List UInt8}

theorem DatagramFragment.rxPacket_eq (h : DatagramFragment hostIps pkt len) (cfg : Config)
    (env : RxEnv) (w : Worker) {u : UDPassemblerEngine} {res : AssemblyResult}
    (hcall : processFragment (fragmentKeyOf pkt) w.udp (fragmentCallOf env pkt) = .ok (u,res)) :
    rxPacket cfg env w pkt len hostIps = .ok ({ w with udp := releaseCompleted u res },
      { scanned := (fragmentPathScan res).toList }) := by
  have hwhole : ¬(!moreFragments pkt ∧ fragOffset pkt = 0) := by
    rintro ⟨hmore,hoff⟩
    rcases h.fragmented with htrue | hne
    · simp [htrue] at hmore
    · exact hne hoff
  rw [rxPacket,if_pos h.accepted,if_pos ⟨h.forHost,h.udp⟩,onUdp,if_neg hwhole]
  exact (bind_ok_iff ..).mpr ⟨_,hcall,rfl⟩

/-- A packet that is no fragment of a datagram leaves the reassembly alone. -/
theorem rxPacket_udp_eq (h : isDatagramFragment hostIps pkt len = false)
    (hrun : rxPacket cfg env w pkt len hostIps = .ok (w',report)) : w'.udp = w.udp := by
  unfold rxPacket at hrun
  split_ifs at hrun with haccept hudp htcp hicmp
  · have hwhole : !moreFragments pkt ∧ fragOffset pkt = 0 := by
      simpa [isDatagramFragment,haccept,hudp.1,hudp.2] using h
    rw [onUdp,if_pos hwhole] at hrun
    cases hrun
    rfl
  · obtain ⟨⟨tcp,out⟩,_,hret⟩ := (bind_ok_iff ..).mp hrun
    cases hret
    rfl
  all_goals
    cases hrun
    rfl

theorem releaseCompleted_gathers {e u : UDPassemblerEngine} {k : FragmentKey} {c : FragmentCall}
    {res : AssemblyResult} (h : Gathers key u done) (he : DatagramsWf e)
    (hk : k ≠ kEmptyFragmentKey) (hcall : processFragment k e c = .ok (u,res)) :
    Gathers key (releaseCompleted u res) done := by
  obtain ⟨logs,hwf⟩ := he
  unfold releaseCompleted
  split
  · rename_i p hp
    exact h.free (hwf.processFragment_unstored hk hcall hp)
  · exact h

theorem datagramsWf_of_gathers {e : UDPassemblerEngine} (h : Gathers key e done) :
    DatagramsWf e := by
  obtain ⟨logs,hwf,_⟩ := h
  exact ⟨logs,hwf⟩

/-- The datagram of `key` is not disturbed by what worker `w` does next: the cleanup finds its
session young enough, and its own fragments find memory, a slot and the session. -/
def Undisturbed (hostIps : List (BitVec 32)) (key : FragmentKey) (w : Worker) : WorkerEvent → Prop
  | .packet env pkt len => isDatagramFragment hostIps pkt len = true →
      Spares key env.nowNs w.udp ∧
        (fragmentKeyOf pkt = key → Admits key w.udp (fragmentCallOf env pkt))
  | _ => True

/-- The event brings no fragment with key `key`. -/
def Foreign (hostIps : List (BitVec 32)) (key : FragmentKey) : WorkerEvent → Prop
  | .packet _ pkt len => isDatagramFragment hostIps pkt len = true → fragmentKeyOf pkt ≠ key
  | _ => True

theorem workerStep_foreign {ev : WorkerEvent} (h : Gathers key w.udp done)
    (hforeign : Foreign hostIps key ev) (hcalm : Undisturbed hostIps key w ev)
    (hrun : workerStep cfg hostIps w ev = .ok (w',report)) : Gathers key w'.udp done := by
  cases ev with
  | packet env pkt len =>
    cases hfragment : isDatagramFragment hostIps pkt len with
    | false =>
      rw [rxPacket_udp_eq hfragment hrun]
      exact h
    | true =>
      have hdatagram := isDatagramFragment_iff.mp hfragment
      have hk := fragmentKeyOf_ne hdatagram.udp
      obtain ⟨u,res,hcall,hu⟩ := h.other (c := fragmentCallOf env pkt) (hforeign hfragment) hk
        (hcalm hfragment).1
      have hstep := hdatagram.rxPacket_eq cfg env w hcall
      rw [workerStep,hstep] at hrun
      cases hrun
      exact releaseCompleted_gathers hu (datagramsWf_of_gathers h) hk hcall
  | backend txBuffer events =>
    obtain ⟨⟨tcp,out⟩,_,hret⟩ := (bind_ok_iff ..).mp hrun
    cases hret
    exact h
  | completion addrs =>
    cases hrun
    exact h

/-- A fragment of the datagram: if it is the first to complete the datagram, the worker scans what
it scans of a datagram that arrives whole, and otherwise it scans nothing. -/
theorem workerStep_own (cfg : Config) (h : Gathers key w.udp done)
    (hdatagram : DatagramFragment hostIps pkt len) (hkey : fragmentKeyOf pkt = key)
    (hcalm : Undisturbed hostIps key w (.packet env pkt len))
    (hall : ∀ g ∈ done ++ [fragmentOf pkt], FragmentOf D g) (hlen : done.length < 64)
    (hlo : 8 ≤ D.length) (hhi : D.length ≤ 65535) :
    ∃ w' report, workerStep cfg hostIps w (.packet env pkt len) = .ok (w',report) ∧
      ((Covers D (done ++ [fragmentOf pkt]) ∧ report.scanned = (fastPathScan D).toList) ∨
        (¬Covers D (done ++ [fragmentOf pkt]) ∧ report.scanned = [] ∧
          Gathers key w'.udp (done ++ [fragmentOf pkt]))) := by
  subst hkey
  obtain ⟨hspares,hadmits⟩ := hcalm (isDatagramFragment_iff.mpr hdatagram)
  have hk := fragmentKeyOf_ne hdatagram.udp
  obtain ⟨u,res,hcall,hres⟩ :=
    h.own (c := fragmentCallOf env pkt) hk hspares (hadmits rfl) hall hlen hlo hhi
  refine ⟨_,_,hdatagram.rxPacket_eq cfg env w hcall,?_⟩
  rcases hres with ⟨hcovers,hdelivers,_⟩ | ⟨hcovers,hopen,hgathers⟩
  · exact Or.inl ⟨hcovers,congrArg Option.toList (hdelivers.scan hlo)⟩
  · refine Or.inr ⟨hcovers,?_,releaseCompleted_gathers hgathers (datagramsWf_of_gathers h) hk hcall⟩
    simp only [fragmentPathScan,hopen]
    rfl

end Workers

section System

variable {a : Appliance} {key : FragmentKey} {done : List Fragment} {D : List UInt8}

/-- The datagram of `key` is not disturbed by the next event of the appliance. -/
def Appliance.Calm (a : Appliance) (key : FragmentKey) (ws : Nat → Worker) (ev : NetEvent) : Prop :=
  ∀ wev, a.route ev = some (a.keyQueue key,wev) →
    Undisturbed a.hostIps key (ws (a.keyQueue key)) wev

/-- The fragments of `key` reach a worker. -/
def Appliance.Delivered (a : Appliance) (key : FragmentKey) (ev : NetEvent) : Prop :=
  (a.fragmentIn key ev).isSome = true → (a.route ev).isSome = true

theorem foreign_of_fragmentIn {ev : NetEvent} {q : Nat} {wev : WorkerEvent}
    (hnone : a.fragmentIn key ev = none) (hroute : a.route ev = some (q,wev)) :
    Foreign a.hostIps key wev := by
  cases ev with
  | backend q txBuffer events =>
    cases hroute
    trivial
  | completion q addrs =>
    cases hroute
    trivial
  | arrival rxQueueIndex env pkt len =>
    obtain ⟨_,rfl⟩ := route_arrival hroute
    intro hfragment hkey
    rw [Appliance.fragmentIn,if_pos ⟨hfragment,hkey⟩] at hnone
    cases hnone

/-- An event that brings no fragment of `key`. -/
theorem applianceStep_foreign {ws ws' : Nat → Worker} {ev : NetEvent} {o : Option (Nat × RxReport)}
    (h : Gathers key (ws (a.keyQueue key)).udp done) (hnone : a.fragmentIn key ev = none)
    (hcalm : a.Calm key ws ev) (hstep : a.step ws ev = .ok (ws',o)) :
    Gathers key (ws' (a.keyQueue key)).udp done := by
  cases hroute : a.route ev with
  | none =>
    rw [Appliance.step,routed_none hroute] at hstep
    cases hstep
    exact h
  | some p =>
    obtain ⟨q,wev⟩ := p
    obtain ⟨w,report,hw,rfl,rfl⟩ := (routed_some hroute ..).mp hstep
    by_cases hq : q = a.keyQueue key
    · subst hq
      rw [Function.update_self]
      exact workerStep_foreign h (foreign_of_fragmentIn hnone hroute) (hcalm wev hroute) hw
    · rw [Function.update_of_ne (Ne.symm hq)]
      exact h

/-- An event that brings a fragment of `key`. -/
theorem applianceStep_own {ws : Nat → Worker} {ev : NetEvent} {f : Fragment}
    (h : Gathers key (ws (a.keyQueue key)).udp done) (hfragment : a.fragmentIn key ev = some f)
    (hdelivered : a.Delivered key ev) (hcalm : a.Calm key ws ev)
    (hall : ∀ g ∈ done ++ [f], FragmentOf D g) (hlen : done.length < 64) (hlo : 8 ≤ D.length)
    (hhi : D.length ≤ 65535) :
    ∃ ws' report, a.step ws ev = .ok (ws',some (a.keyQueue key,report)) ∧
      ((Covers D (done ++ [f]) ∧ report.scanned = (fastPathScan D).toList) ∨
        (¬Covers D (done ++ [f]) ∧ report.scanned = [] ∧
          Gathers key (ws' (a.keyQueue key)).udp (done ++ [f]))) := by
  obtain ⟨⟨q,wev⟩,hroute⟩ := Option.isSome_iff_exists.mp (hdelivered (by rw [hfragment]; rfl))
  obtain ⟨rfl,env,pkt,len,rfl,hdatagram,hkey,rfl⟩ := route_fragment hfragment hroute
  obtain ⟨w,report,hw,hresult⟩ := workerStep_own a.cfg h hdatagram hkey (hcalm _ hroute)
    hall hlen hlo hhi
  refine ⟨_,report,(routed_some hroute ..).mpr ⟨w,report,hw,rfl,rfl⟩,?_⟩
  rw [Function.update_self]
  exact hresult

/-- Every worker of the appliance runs by itself on what is routed to it, in the order of arrival.
No fragment of a TCP segment is among it, and the fragments with one key are all at one worker. -/
theorem shards_independent (a : Appliance) (pools : Nat → List Nat) (events : List NetEvent)
    (ws : Nat → Worker) (outs : List (Option (Nat × RxReport)))
    (hrun : runOut a.step (fun q => .new (pools q)) events = .ok (ws,outs)) (q : Nat) :
    runOut (workerStep a.cfg a.hostIps) (.new (pools q))
        (events.filterMap fun ev => only q (a.route ev)) =
      .ok (ws q,outs.filterMap (only q)) ∧
    ∀ env pkt len, .packet env pkt len ∈ events.filterMap (fun ev => only q (a.route ev)) →
      q < (dynamicNumQueues a.maps).toNat ∧
        (etherType pkt = etherTypeIp → protocol pkt = ipprotoTcp → isFragment pkt = false) ∧
        (DatagramFragment a.hostIps pkt len → q = a.keyQueue (fragmentKeyOf pkt)) := by
  refine ⟨runOut_routed hrun q,?_⟩
  intro env pkt len hmem
  obtain ⟨ev,_,honly⟩ := List.mem_filterMap.mp hmem
  obtain ⟨⟨p,wev⟩,hroute,hpq⟩ := Option.bind_eq_some_iff.mp honly
  split_ifs at hpq with hq
  cases hpq
  dsimp only at hq
  subst hq
  cases ev with
  | backend q txBuffer events => cases hroute
  | completion q addrs => cases hroute
  | arrival rxQueueIndex env pkt len =>
    obtain ⟨hp,hpacket⟩ := route_arrival hroute
    cases hpacket
    have hredirected := redirected_of_queue hp
    refine ⟨?_,hredirected.whole,?_⟩
    · rw [hredirected.target]
      exact targetQueue_lt ..
    · intro hdatagram
      rw [hredirected.target,hdatagram.targetQueue]

/-- At every worker the pointers in both tables are live and no two keys share one. A TCP session
that has a backend or has left `SYN_SENT` is found by its key, although other lookups may miss. -/
theorem sessions_owned (a : Appliance) (pools : Nat → List Nat) (events : List NetEvent)
    (ws : Nat → Worker) (outs : List (Option (Nat × RxReport)))
    (hrun : runOut a.step (fun q => .new (pools q)) events = .ok (ws,outs)) (q : Nat) :
    (ws q).tcp.engine.sessions.Owns maxActiveTcpSession (ws q).tcp.engine.heap
      (fun key s => s.key = key) ∧
    (∀ p s, (ws q).tcp.engine.heap.mem p = some s → TcpAssemblerEngine.Settled s →
      (ws q).tcp.engine.sessions.find s.key = .ok (some p)) ∧
    ∃ logs : FragmentKey → List Fragment, (ws q).udp.sessions.Owns maxActiveDgramSessions
      (ws q).udp.heap fun key s => s.Built (logs key) := by
  obtain ⟨⟨logs,hudp⟩,htcp⟩ := Worker.Reached.wf ⟨pools q,_,_,runOut_routed hrun q⟩
  exact ⟨htcp.wf.owns,htcp.settled,logs,hudp.owns⟩

/-- As long as the fragments do not cover the datagram, their worker holds them all. -/
theorem run_gathers {events : List NetEvent} {ws ws' : Nat → Worker}
    {outs : List (Option (Nat × RxReport))} (h : Gathers key (ws (a.keyQueue key)).udp done)
    (hrun : runOut a.step ws events = .ok (ws',outs))
    (hdelivered : ∀ ev ∈ events, a.Delivered key ev)
    (hcalm : Along (a.Calm key) a.step ws events)
    (hall : ∀ f ∈ done ++ events.filterMap (a.fragmentIn key), FragmentOf D f)
    (hlen : (done ++ events.filterMap (a.fragmentIn key)).length ≤ 64) (hlo : 8 ≤ D.length)
    (hhi : D.length ≤ 65535)
    (hnot : ¬Covers D (done ++ events.filterMap (a.fragmentIn key))) :
    Gathers key (ws' (a.keyQueue key)).udp (done ++ events.filterMap (a.fragmentIn key)) := by
  induction events generalizing ws done outs with
  | nil =>
    cases hrun
    simpa using h
  | cons ev events ih =>
    obtain ⟨ws₁,o,rest,hstep,hrest,rfl⟩ := (runOut_cons ..).mp hrun
    have hcalm₁ := hcalm.2 ws₁ o hstep
    obtain ⟨hev,hdelivered⟩ := List.forall_mem_cons.mp hdelivered
    cases hfragment : a.fragmentIn key ev with
    | none =>
      rw [List.filterMap_cons_none hfragment] at hall hlen hnot ⊢
      exact ih (applianceStep_foreign h hfragment hcalm.1 hstep) hrest hdelivered hcalm₁ hall hlen
        hnot
    | some f =>
      rw [List.filterMap_cons_some hfragment,List.append_cons] at hall hlen hnot ⊢
      have hearlier : ∀ g ∈ done ++ [f], g ∈ done ++ [f] ++ events.filterMap (a.fragmentIn key) :=
        fun g hg => List.mem_append_left _ hg
      have hroom : done.length < 64 := by
        simp only [List.length_append,List.length_singleton] at hlen
        omega
      obtain ⟨ws₂,report,hstep₂,hresult⟩ := applianceStep_own h hfragment hev hcalm.1
        (fun g hg => hall g (hearlier g hg)) hroom hlo hhi
      rw [hstep] at hstep₂
      cases hstep₂
      rcases hresult with ⟨hcovers,_⟩ | ⟨_,_,hgathers⟩
      · exact absurd (hcovers.mono hearlier) hnot
      · exact ih hgathers hrest hdelivered hcalm₁ hall hlen hnot

section Sample

/-- A fragment from 10.0.0.1 to 10.0.0.2. -/
def fragmentFrame (offHigh offLow checkHigh checkLow : UInt8) (payload : List UInt8) : List UInt8 :=
  [0,0,0,0,0,0,0,0,0,0,0,0,0x08,0x00,
    0x45,0,0,28,0,7,offHigh,offLow,64,17,checkHigh,checkLow,10,0,0,1,10,0,0,2] ++ payload

def headPkt : Nat → UInt8 := bufferOf (fragmentFrame 0x20 0 70 200 [16,0,0,53,0,16,0,0])

def tailPkt : Nat → UInt8 := bufferOf (fragmentFrame 0 1 102 199 [1,2,3,4,5,6,7,8])

def sampleWhole : List UInt8 := [16,0,0,53,0,16,0,0,1,2,3,4,5,6,7,8]

def samplePair : FragmentKey := ⟨0x0100000a,0x0200000a,7,17⟩

def twoQueues : Appliance where
  maps := ⟨some 2,fun q => decide (q < 2)⟩
  delivers := fun _ _ => true

theorem fragmentIn_head : twoQueues.fragmentIn samplePair (.arrival 0 {} headPkt 42) =
    some (fragmentOf headPkt) :=
  fragmentIn_eq_some.mpr ⟨isDatagramFragment_iff.mp (by decide +kernel),by decide +kernel,rfl⟩

theorem fragmentIn_tail : twoQueues.fragmentIn samplePair (.arrival 1 {} tailPkt 42) =
    some (fragmentOf tailPkt) :=
  fragmentIn_eq_some.mpr ⟨isDatagramFragment_iff.mp (by decide +kernel),by decide +kernel,rfl⟩

theorem fragmentOf_head : FragmentOf sampleWhole (fragmentOf headPkt) := by
  constructor <;> decide +kernel

theorem fragmentOf_tail : FragmentOf sampleWhole (fragmentOf tailPkt) := by
  constructor <;> decide +kernel

theorem head_not_covers : ¬Covers sampleWhole [fragmentOf headPkt] := by
  intro hcovers
  obtain ⟨f,hf,_,hstop⟩ := hcovers 8 (by decide)
  rw [List.mem_singleton.mp hf] at hstop
  exact absurd hstop (by decide +kernel)

theorem both_cover : Covers sampleWhole [fragmentOf headPkt,fragmentOf tailPkt] := by
  intro p hp
  by_cases hlow : p < 8
  · refine ⟨fragmentOf headPkt,by simp,?_,?_⟩
    · exact Nat.zero_le p
    · exact lt_of_lt_of_le hlow (by decide +kernel)
  · refine ⟨fragmentOf tailPkt,by simp,?_,?_⟩
    · exact le_trans (by decide +kernel) (Nat.not_lt.mp hlow)
    · exact lt_of_lt_of_le hp (by decide +kernel)

/-- Before the first cleanup a table with few sessions disturbs nothing. -/
theorem calm_early {ws : Nat → Worker} (hwf : DatagramsWf (ws (a.keyQueue key)).udp)
    (hclock : (ws (a.keyQueue key)).udp.lastCleanupNs = 0)
    (hsize : (ws (a.keyQueue key)).udp.sessions.size ≤ 64) (rxQueueIndex : BitVec 32)
    (pkt : Nat → UInt8) (len : Nat) :
    a.Calm key ws (.arrival rxQueueIndex {} pkt len) := by
  have hidle : ¬(0 : BitVec 64) - (ws (a.keyQueue key)).udp.lastCleanupNs > cleanupIntervalNs := by
    rw [hclock]
    decide
  intro wev hroute
  obtain ⟨_,rfl⟩ := route_arrival hroute
  obtain ⟨logs,hwf⟩ := hwf
  intro _
  refine ⟨fun hdue => absurd hdue hidle,fun _ => hwf.admits_of_few rfl ?_⟩
  intro t ht
  have hsame := (if_neg hidle).symm.trans ht
  cases hsame
  exact hsize

theorem tail_run : ∃ ws o,
    runOut twoQueues.step (fun _ => .new []) [.arrival 1 {} tailPkt 42] = .ok (ws,[o]) := by
  obtain ⟨ws,o,hstep⟩ : ∃ ws o, twoQueues.step (fun _ => .new []) (.arrival 1 {} tailPkt 42) =
      .ok (ws,o) := ⟨_,_,rfl⟩
  exact ⟨ws,o,(runOut_cons ..).mpr ⟨ws,o,[],hstep,rfl,rfl⟩⟩

/-- A fragment received on queue 1 is at the worker of queue 0. -/
theorem shards_independent_one :
    ∃ ws outs, runOut twoQueues.step (fun _ => .new []) [.arrival 1 {} tailPkt 42] = .ok (ws,outs) ∧
      runOut (workerStep {} []) (.new []) [.packet {} tailPkt 42] =
        .ok (ws 0,outs.filterMap (only 0)) := by
  obtain ⟨ws,o,hrun⟩ := tail_run
  have hroute : [NetEvent.arrival 1 {} tailPkt 42].filterMap
      (fun ev => only 0 (twoQueues.route ev)) = [.packet {} tailPkt 42] := rfl
  have hworker := (shards_independent twoQueues (fun _ => []) _ ws [o] hrun 0).1
  rw [hroute] at hworker
  exact ⟨ws,[o],hrun,hworker⟩

theorem sessions_owned_one :
    ∃ ws outs, runOut twoQueues.step (fun _ => .new []) [.arrival 1 {} tailPkt 42] = .ok (ws,outs) ∧
      ∃ logs : FragmentKey → List Fragment, (ws 0).udp.sessions.Owns maxActiveDgramSessions
        (ws 0).udp.heap fun key s => s.Built (logs key) := by
  obtain ⟨ws,o,hrun⟩ := tail_run
  exact ⟨ws,[o],hrun,(sessions_owned twoQueues (fun _ => []) _ ws [o] hrun 0).2.2⟩

end Sample

end System

end Aethon.Net
