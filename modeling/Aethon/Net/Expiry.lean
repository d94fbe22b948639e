import Aethon.Container.Sweep
import Aethon.Net.Sentinel

/-!
# Expiry

`purged_expired` of both assemblers, for every table that a worker can reach. The walk skips the
session that a deletion moves into the cell it is at, so it drops exactly the expired sessions if
no expired session takes the place of another.
-/

namespace Aethon

open Framework SingleThreadHashMap

namespace TcpAssemblerEngine

/-- The table holds the session `s` under a key. -/
def Holds (e : TcpAssemblerEngine) (key : TcpKey) (s : TcpStreamSession) : Prop :=
  e.sessions.HoldsObject e.heap key s

/-- The session is older than three seconds in SYN_SENT, or than thirty in another state. -/
def Overdue (nowNs : BitVec 64) (s : TcpStreamSession) : Prop :=
  nowNs.toNat - s.lastSeenNs.toNat > if s.state = .synSent then 3 * 10 ^ 9 else 30 * 10 ^ 9

/-- `u` holds exactly the sessions of `e` that are not overdue, as they were. -/
def Purged (e : TcpAssemblerEngine) (nowNs : BitVec 64) (u : TcpAssemblerEngine) : Prop :=
  ∀ key s, u.Holds key s ↔ e.Holds key s ∧ ¬Overdue nowNs s

/-- When the walk removes an expired session, the first session behind it that may move into its
cell is not expired. -/
def ReplacedByLive (e : TcpAssemblerEngine) (nowNs : BitVec 64) : Prop :=
  WalkMeets (fun s => isExpired nowNs s = true) (purgeCell nowNs) sessions heap e
    e.sessions.capacity

/-- The probe path of no expired session leads over the end of the table. -/
def NoExpiredWrap (e : TcpAssemblerEngine) (nowNs : BitVec 64) : Prop :=
  NoWrap (fun s => isExpired nowNs s = true) e.sessions e.heap

variable {e u : TcpAssemblerEngine} {nowNs : BitVec 64}

theorem isExpired_iff {s : TcpStreamSession} (h : s.lastSeenNs.toNat ≤ nowNs.toNat) :
    isExpired nowNs s = true ↔ Overdue nowNs s := by
  have hage : (nowNs - s.lastSeenNs).toNat = nowNs.toNat - s.lastSeenNs.toNat :=
    BitVec.toNat_sub_of_le (BitVec.le_def.mpr h)
  unfold isExpired Overdue
  dsimp only
  split_ifs
  · rw [decide_eq_true_iff,gt_iff_lt,BitVec.lt_def,hage]
    rfl
  · rw [decide_eq_true_iff,gt_iff_lt,BitVec.lt_def,hage]
    rfl

theorem purgeCell_visits {t t' : TcpAssemblerEngine} {i : Nat}
    (hkey : t.sessions.emptyKey = kEmptyTcpKey) (hrun : purgeCell nowNs t i = .ok t') :
    Visits (fun s => isExpired nowNs s = true) t.sessions t.heap i t'.sessions t'.heap := by
  unfold purgeCell at hrun
  dsimp only at hrun
  split_ifs at hrun with hskip
  · cases hrun
    exact visits_skipped (hkey ▸ hskip)
  · split at hrun
    · cases hrun
    · rename_i s hs
      split_ifs at hrun with hexpired
      · obtain ⟨⟨b,m⟩,herase,hret⟩ := (bind_ok_iff ..).mp hrun
        cases hret
        refine Visits.dropped ⟨?_,hs⟩ hexpired herase
        rw [hkey]
        exact fun hc => hskip (Or.inl hc)
      · cases hrun
        exact visits_live hs hexpired

/-- The law of `purged_expired` for a table in order. -/
theorem purge_law {I : TcpKey → TcpStreamSession → Prop} (h : EngineWf I e)
    (hnow : ∀ key s, e.Holds key s → s.lastSeenNs.toNat ≤ nowNs.toNat) :
    ∃ u, e.purgedExpired nowNs = .ok u ∧ (ReplacedByLive e nowNs → Purged e nowNs u) ∧
      (NoExpiredWrap e nowNs → (Purged e nowNs u ↔ ReplacedByLive e nowNs)) := by
  obtain ⟨u,hu,_⟩ := h.purgedExpired nowNs
  have hvisit : ∀ t i t', e.sessions.SameShape t.sessions → purgeCell nowNs t i = .ok t' →
      Visits (fun s => isExpired nowNs s = true) t.sessions t.heap i t'.sessions t'.heap :=
    fun t i t' hshape hrun => purgeCell_visits (hshape.1.trans h.emptyKey) hrun
  exact ⟨u,hu,h.owns.walk_law hvisit hu fun key s hs => isExpired_iff (hnow key s hs)⟩

end TcpAssemblerEngine

namespace UDPassemblerEngine

/-- The table holds the session `s` under a key. -/
def Holds (e : UDPassemblerEngine) (key : FragmentKey) (s : ReassemblySession) : Prop :=
  e.sessions.HoldsObject e.heap key s

/-- The session was created more than ten seconds ago. -/
def Overdue (nowNs : BitVec 64) (s : ReassemblySession) : Prop :=
  nowNs.toNat - s.createdAtNs.toNat > 10 * 10 ^ 9

/-- `u` holds exactly the sessions of `e` that are not overdue, as they were. -/
def Purged (e : UDPassemblerEngine) (nowNs : BitVec 64) (u : UDPassemblerEngine) : Prop :=
  ∀ key s, u.Holds key s ↔ e.Holds key s ∧ ¬Overdue nowNs s

/-- When the walk removes an expired session, the first session behind it that may move into its
cell is not expired. -/
def ReplacedByLive (e : UDPassemblerEngine) (nowNs : BitVec 64) : Prop :=
  WalkMeets (fun s => isExpired nowNs s = true) (purgeCell nowNs) sessions heap e
    e.sessions.capacity

/-- The probe path of no expired session leads over the end of the table. -/
def NoExpiredWrap (e : UDPassemblerEngine) (nowNs : BitVec 64) : Prop :=
  NoWrap (fun s => isExpired nowNs s = true) e.sessions e.heap

variable {e u : UDPassemblerEngine} {nowNs : BitVec 64}

theorem isExpired_iff {s : ReassemblySession} (h : s.createdAtNs.toNat ≤ nowNs.toNat) :
    isExpired nowNs s = true ↔ Overdue nowNs s := by
  have hage : (nowNs - s.createdAtNs).toNat = nowNs.toNat - s.createdAtNs.toNat :=
    BitVec.toNat_sub_of_le (BitVec.le_def.mpr h)
  unfold isExpired Overdue
  rw [decide_eq_true_iff,gt_iff_lt,BitVec.lt_def,hage]
  rfl

theorem purgeCell_visits {t t' : UDPassemblerEngine} {i : Nat}
    (hkey : t.sessions.emptyKey = kEmptyFragmentKey) (hrun : purgeCell nowNs t i = .ok t') :
    Visits (fun s => isExpired nowNs s = true) t.sessions t.heap i t'.sessions t'.heap := by
  unfold purgeCell at hrun
  dsimp only at hrun
  split_ifs at hrun with hskip
  · cases hrun
    exact visits_skipped (hkey ▸ hskip)
  · split at hrun
    · cases hrun
    · rename_i s hs
      split_ifs at hrun with hexpired
      · obtain ⟨⟨b,m⟩,herase,hret⟩ := (bind_ok_iff ..).mp hrun
        cases hret
        refine Visits.dropped ⟨?_,hs⟩ hexpired herase
        rw [hkey]
        exact fun hc => hskip (Or.inl hc)
      · cases hrun
        exact visits_live hs hexpired

/-- The law of `purged_expired` for a table in order. -/
theorem purge_law {logs : FragmentKey → List Fragment} (h : EngineWf e logs)
    (hnow : ∀ key s, e.Holds key s → s.createdAtNs.toNat ≤ nowNs.toNat) :
    ∃ u, e.purgedExpired nowNs = .ok u ∧ (ReplacedByLive e nowNs → Purged e nowNs u) ∧
      (NoExpiredWrap e nowNs → (Purged e nowNs u ↔ ReplacedByLive e nowNs)) := by
  obtain ⟨u,hu,_⟩ := h.purgedExpired nowNs
  have hvisit : ∀ t i t', e.sessions.SameShape t.sessions → purgeCell nowNs t i = .ok t' →
      Visits (fun s => isExpired nowNs s = true) t.sessions t.heap i t'.sessions t'.heap :=
    fun t i t' hshape hrun => purgeCell_visits (hshape.1.trans h.emptyKey) hrun
  exact ⟨u,hu,h.owns.walk_law hvisit hu fun key s hs => isExpired_iff (hnow key s hs)⟩

end UDPassemblerEngine

namespace Net

open Pipeline

section Clients

/-- A SYN from port `portHigh`, `portLow` of 10.0.0.`host` to port 80 of 10.0.0.2. -/
def synBytes (host checkLow portHigh portLow : UInt8) : List UInt8 :=
  [0,0,0,0,0,0,0,0,0,0,0,0,0x08,0x00,
    0x45,0,0,40,0,0,0,0,64,6,0x66,checkLow,10,0,0,host,10,0,0,2,
    portHigh,portLow,0,80,0,0,0,9,0,0,0,0,0x50,2,255,255,0,0,0,0]

/-- The frame of such a SYN. -/
def synOf (saddr : BitVec 32) (source : BitVec 16) : TcpFrame where
  call :=
    { packet :=
        { saddr := saddr, daddr := 0x0200000a, source := source, dest := 0x5000, seq := 9
          flags := 2, options := [], payload := [], payload_lt := TcpAssemblerEngine.nil_length_lt }
      nowNs := 0
      allocated := true
      garbage := fun _ => 0 }
  totLen := 40
  ipPktLen := 40
  payload_len := fun _ => rfl

/-- A TCP packet that is for this host goes to the pipeline. -/
theorem Worker.Reached.tcp {cfg : Config} {hostIps : List (BitVec 32)} {w : Worker}
    (h : w.Reached cfg hostIps) (env : RxEnv) (pkt : Nat → UInt8) (len : Nat) {st : State}
    (haccept : acceptsIpv4 pkt len = true) (hhost : isForThisHost pkt hostIps = true)
    (hproto : protocol pkt = ipprotoTcp)
    (hrun : ∃ out, handleTcpPacket cfg w.tcp (tcpFrameOf env pkt) = .ok (st,out)) :
    Worker.Reached cfg hostIps { w with tcp := st } := by
  obtain ⟨out,hrun⟩ := hrun
  obtain ⟨txPool,events,reports,hruns⟩ := h
  have hstep : workerStep cfg hostIps w (.packet env pkt len) = .ok ({ w with tcp := st },
      { recycled := !out.consumed
        actions := out.actions
        transmitted := tcpTransmitted cfg env w.tcp pkt out }) := by
    simp only [workerStep,rxPacket,onTcp,haccept,hhost,hproto,hrun,if_true,and_true,bind,
      Except.bind]
    rfl
  exact ⟨txPool,events ++ [_],reports ++ [_],(runOut_append ..).mpr
    ⟨w,reports,[_],hruns,(runOut_cons ..).mpr ⟨_,_,[],hstep,rfl,rfl⟩,rfl⟩⟩

def stateAfter (st : State) (f : TcpFrame) : State :=
  match handleTcpPacket {} st f with
  | .ok (st,_) => st
  | .error _ => st

/-- One client, and two clients whose keys have the same home slot. -/
def soloState : State := stateAfter (.new []) (synOf 0x0500000a 0x2c0e)

def pairState : State := stateAfter soloState (synOf 0x0600000a 0xc59c)

def soloWorker : Worker := { Worker.new [] with tcp := soloState }

def pairWorker : Worker := { Worker.new [] with tcp := pairState }

theorem soloWorker_reached : soloWorker.Reached {} [] := by
  have hnew : Worker.Reached {} [] (.new []) := ⟨[],[],[],rfl⟩
  have hframe : tcpFrameOf {} (bufferOf (synBytes 5 0xca 14 44)) = synOf 0x0500000a 0x2c0e := rfl
  refine hnew.tcp {} (bufferOf (synBytes 5 0xca 14 44)) 54 (by decide +kernel) (by decide +kernel)
    (by decide +kernel) ?_
  rw [hframe]
  exact ⟨_,rfl⟩

theorem pairWorker_reached : pairWorker.Reached {} [] := by
  have hframe : tcpFrameOf {} (bufferOf (synBytes 6 0xc9 156 197)) = synOf 0x0600000a 0xc59c := rfl
  refine soloWorker_reached.tcp {} (bufferOf (synBytes 6 0xc9 156 197)) 54 (by decide +kernel)
    (by decide +kernel) (by decide +kernel) ?_
  rw [hframe]
  exact ⟨_,rfl⟩

theorem soloState_cells : soloState.engine.sessions.cells =
    Function.update (fun _ => ⟨kEmptyTcpKey,0⟩) 0 ⟨⟨0x0500000a,0x0200000a,0x2c0e,0x5000⟩,1⟩ := rfl

theorem pairState_cells : pairState.engine.sessions.cells =
    Function.update (Function.update (fun _ => ⟨kEmptyTcpKey,0⟩) 0
      ⟨⟨0x0500000a,0x0200000a,0x2c0e,0x5000⟩,1⟩) 1 ⟨⟨0x0600000a,0x0200000a,0xc59c,0x5000⟩,2⟩ := rfl

/-- Four seconds after the SYNs. -/
def laterNs : BitVec 64 := 4000000000

theorem solo_at {p : Nat} {s : TcpStreamSession}
    (h : soloState.engine.sessions.At soloState.engine.heap p s) : p = 0 ∧ s.lastSeenNs = 0 := by
  have hseen : (soloState.engine.heap.mem 1).map (·.lastSeenNs) = some 0 := rfl
  obtain ⟨hne,hs⟩ := h
  rw [soloState_cells] at hne hs
  by_cases hp : p = 0
  · subst hp
    rw [Function.update_self] at hs
    rw [hs] at hseen
    exact ⟨rfl,Option.some.inj hseen⟩
  · rw [Function.update_of_ne hp] at hne
    exact absurd rfl hne

theorem pair_at {p : Nat} {s : TcpStreamSession}
    (h : pairState.engine.sessions.At pairState.engine.heap p s) :
    (p = 0 ∨ p = 1) ∧ s.lastSeenNs = 0 := by
  have hfirst : (pairState.engine.heap.mem 1).map (·.lastSeenNs) = some 0 := rfl
  have hsecond : (pairState.engine.heap.mem 2).map (·.lastSeenNs) = some 0 := rfl
  obtain ⟨hne,hs⟩ := h
  rw [pairState_cells] at hne hs
  by_cases hp : p = 1
  · subst hp
    rw [Function.update_self] at hs
    rw [hs] at hsecond
    exact ⟨Or.inr rfl,Option.some.inj hsecond⟩
  · rw [Function.update_of_ne hp] at hne hs
    by_cases hp' : p = 0
    · subst hp'
      rw [Function.update_self] at hs
      rw [hs] at hfirst
      exact ⟨Or.inl rfl,Option.some.inj hfirst⟩
    · rw [Function.update_of_ne hp'] at hne
      exact absurd rfl hne

end Clients

end Net

end Aethon
