import Aethon.Ebpf.XdpProgram
import Mathlib.Data.List.Perm.Basic

/-!
# Setup and cleanup of the AF_XDP engine

`AFXDPEngine::setup` with every answer that the system may give it, and `cleanup`, which the
destructor calls. What the engine acquires is kept in a ledger; to release what is not live is a
fault. The descriptor of a pinned map is closed by the call that opens it and is not in the ledger.
-/

namespace Aethon.AfXdp

open Framework Ebpf

/-- What the engine acquires: the BPF object, and for a queue the two records, the buffer, the UMEM
and the socket. -/
inductive Resource where
  | object
  | umenInfo (queue : Nat)
  | buffer (queue : Nat)
  | umem (queue : Nat)
  | sockInfo (queue : Nat)
  | socket (queue : Nat)
  deriving DecidableEq, Repr

inductive XdpCall where
  | attach
  | detach
  deriving DecidableEq, Repr

/-- The system as the engine leaves it: the live resources, the calls that attach and detach a
program, and the maps of the program. -/
structure Host where
  live : List Resource := []
  calls : List XdpCall := []
  maps : XdpMaps := ⟨none,fun _ => false⟩

namespace Host

def acquire (h : Host) (r : Resource) : Host := { h with live := r :: h.live }

def release (h : Host) (r : Resource) : Checked Host :=
  if r ∈ h.live then .ok { h with live := h.live.erase r } else .error .danglingPointer

def releaseIf (h : Host) : Option Resource → Checked Host
  | some r => h.release r
  | none => .ok h

def call (h : Host) (c : XdpCall) : Host := { h with calls := h.calls ++ [c] }

/-- The entry of the socket of queue `q` in `aethon_xsks_map`. -/
def register (h : Host) (q : Nat) : Host :=
  { h with maps := { h.maps with xsks := Function.update h.maps.xsks q true } }

end Host

structure UmenInfo where
  self : Resource
  umen : Option Resource
  buffer : Option Resource

structure SockInfo where
  self : Resource
  xsk : Option Resource
  umen : Option UmenInfo

structure Engine where
  ifindex : Nat := 0
  totalActiveQueues : Int := 0
  bpfObj : Bool := false
  xskSockets : Nat → Option SockInfo := fun _ => none

def Engine.setSocket (e : Engine) (q : Nat) (s : Option SockInfo) : Engine :=
  { e with xskSockets := Function.update e.xskSockets q s }

/-- The answers of the system for one queue. -/
structure QueueOutcome where
  umenAllocated : Bool := true
  bufferAllocated : Bool := true
  umemCreated : Bool := true
  sockAllocated : Bool := true
  zeroCopySocket : Bool := true
  copySocket : Bool := true
  mapUpdated : Bool := true

/-- The answers to `load_xdp_map`. The pin is `none` if it does not exist and `some false` if it
cannot be opened. -/
structure PinOutcome where
  mapFound : Bool := true
  pin : Option Bool := none
  reused : Bool := true

/-- The answers of the system to `setup`: `channels` are the combined and the receive channels that
the interface reports, if it does. -/
structure SetupOutcome where
  ifindex : Nat := 1
  channels : Option (BitVec 32 × BitVec 32) := some (1,1)
  hardwareConcurrency : BitVec 32 := 2
  objectOpened : Bool := true
  blocklist : PinOutcome := {}
  rateLimiter : PinOutcome := {}
  rateLimiterParams : PinOutcome := {}
  objectLoaded : Bool := true
  configMapFound : Bool := true
  configUpdated : Bool := true
  programFound : Bool := true
  attached : Bool := true
  xskMapFound : Bool := true
  xskMapFd : Bool := true
  queue : Nat → QueueOutcome := fun _ => {}

def maxQueues : Nat := 64

def getNicQueueCount (channels : Option (BitVec 32 × BitVec 32)) : Int :=
  match channels with
  | some (combined,rx) => if combined > 0 then combined.toInt else rx.toInt
  | none => 1

def availableWorkerCores (hardwareConcurrency : BitVec 32) : Int :=
  let coreCount := hardwareConcurrency.toInt
  if coreCount > 1 then coreCount - 1 else 1

def numQueues (o : SetupOutcome) : Int :=
  let n := min (getNicQueueCount o.channels) (availableWorkerCores o.hardwareConcurrency)
  if n > maxQueues then maxQueues else n

def loadXdpMap (o : PinOutcome) : Bool :=
  if !o.mapFound then false
  else match o.pin with
    | none => true
    | some opened => opened && o.reused

def configureUmen (h : Host) (q : Nat) (o : QueueOutcome) : Checked (Option UmenInfo × Host) :=
  if !o.umenAllocated then .ok (none,h)
  else do
    let h := h.acquire (.umenInfo q)
    if !o.bufferAllocated then
      let h ← h.release (.umenInfo q)
      return (none,h)
    else
      let h := h.acquire (.buffer q)
      if !o.umemCreated then
        let h ← h.release (.buffer q)
        let h ← h.release (.umenInfo q)
        return (none,h)
      else return (some ⟨.umenInfo q,some (.umem q),some (.buffer q)⟩,h.acquire (.umem q))

/-- One round of the loop over the queues. The result of the second `calloc` is not checked. -/
def setupQueue (e : Engine) (h : Host) (q : Nat) (o : QueueOutcome) :
    Checked (Bool × Engine × Host) := do
  let (umenOpt,h) ← configureUmen h q o
  match umenOpt with
  | none => return (false,e,h)
  | some umenInfo =>
      if !o.sockAllocated then .error .danglingPointer
      else
        let h := h.acquire (.sockInfo q)
        if !(o.zeroCopySocket || o.copySocket) then return (false,e,h)
        else
          let h := h.acquire (.socket q)
          if !o.mapUpdated then return (false,e,h)
          else
            let s : SockInfo := ⟨.sockInfo q,some (.socket q),some umenInfo⟩
            return (true,e.setSocket q (some s),h.register q)

def setupQueues (o : Nat → QueueOutcome) : List Nat → Engine → Host →
    Checked (Bool × Engine × Host)
  | [], e, h => .ok (true,e,h)
  | q :: qs, e, h => do
      let (ok,e,h) ← setupQueue e h q (o q)
      if ok then setupQueues o qs e h else return (false,e,h)

/-- The value that the program finds in `queue_config_map`. -/
def queueConfigValue (o : SetupOutcome) : BitVec 32 :=
  if o.configMapFound && o.configUpdated then BitVec.ofInt 32 (numQueues o) else 0

/-- The part of `setup` before the loop over the queues. -/
def setupProgram (e : Engine) (h : Host) (o : SetupOutcome) : Bool × Engine × Host :=
  let e := { e with ifindex := o.ifindex }
  if o.ifindex = 0 then (false,e,h)
  else
    let e := { e with totalActiveQueues := numQueues o }
    if !o.objectOpened then (false,{ e with bpfObj := false },h)
    else
      let e := { e with bpfObj := true }
      let h := h.acquire .object
      if !loadXdpMap o.blocklist then (false,e,h)
      else if !loadXdpMap o.rateLimiter then (false,e,h)
      else if !loadXdpMap o.rateLimiterParams then (false,e,h)
      else if !o.objectLoaded then (false,e,h)
      else
        let h := { h with maps := ⟨some (queueConfigValue o),fun _ => false⟩ }
        if !o.programFound then (false,e,h)
        else if !o.attached then (false,e,h)
        else
          let h := h.call .attach
          if !o.xskMapFound then (false,e,h)
          else if !o.xskMapFd then (false,e,h)
          else (true,e,h)

def setup (e : Engine) (h : Host) (o : SetupOutcome) : Checked (Bool × Engine × Host) :=
  let (ok,e,h) := setupProgram e h o
  if ok then setupQueues o.queue (List.range e.totalActiveQueues.toNat) e h else .ok (false,e,h)

def getSocket (e : Engine) (queueId : Int) : Option SockInfo :=
  if queueId < 0 ∨ queueId ≥ e.totalActiveQueues then none else e.xskSockets queueId.toNat

def cleanupUmen (h : Host) : Option UmenInfo → Checked Host
  | some u => do
      let h ← h.releaseIf u.umen
      let h ← h.releaseIf u.buffer
      h.release u.self
  | none => .ok h

def cleanupQueue (h : Host) (s : SockInfo) : Checked Host := do
  let h ← h.releaseIf s.xsk
  let h ← cleanupUmen h s.umen
  h.release s.self

def cleanupQueues : List Nat → Engine → Host → Checked (Engine × Host)
  | [], e, h => .ok (e,h)
  | q :: qs, e, h =>
      match e.xskSockets q with
      | none => cleanupQueues qs e h
      | some s => do
          let h ← cleanupQueue h s
          cleanupQueues qs (e.setSocket q none) h

/-- The end of `cleanup`, after the loop over the queues. -/
def closeObject (e : Engine) (h : Host) : Checked (Engine × Host) :=
  if e.bpfObj ∧ e.ifindex > 0 then do
    let h ← (h.call .detach).release .object
    return ({ e with bpfObj := false, totalActiveQueues := 0 },h)
  else .ok ({ e with totalActiveQueues := 0 },h)

def cleanup (e : Engine) (h : Host) : Checked (Engine × Host) := do
  let (e,h) ← cleanupQueues (List.range e.totalActiveQueues.toNat) e h
  closeObject e h

/-- The move constructor: the new engine, and what is left of the other. -/
def Engine.move (e : Engine) : Engine × Engine :=
  (e,{ e with bpfObj := false, totalActiveQueues := 0, xskSockets := fun _ => none })

section Ledger

variable {h : Host} {e : Engine} {q : Nat} {rest : List Resource}

def UmenInfo.resources (u : UmenInfo) : List Resource := u.umen.toList ++ u.buffer.toList ++ [u.self]

/-- What the record of a socket refers to, in the order in which `cleanup` releases it. -/
def SockInfo.resources (s : SockInfo) : List Resource :=
  s.xsk.toList ++ (s.umen.elim [] UmenInfo.resources ++ [s.self])

def Engine.slotResources (e : Engine) (q : Nat) : List Resource :=
  (e.xskSockets q).elim [] SockInfo.resources

/-- What the engine refers to. -/
def Engine.owned (e : Engine) : List Resource :=
  (List.range e.totalActiveQueues.toNat).flatMap e.slotResources ++
    if e.bpfObj then [.object] else []

/-- The same host with other live resources. -/
def Host.withLive (h : Host) (live : List Resource) : Host := { h with live := live }

theorem Host.release_perm {r : Resource} (hlive : h.live.Perm (r :: rest)) :
    ∃ live, h.release r = .ok (h.withLive live) ∧ live.Perm rest := by
  have hmem : r ∈ h.live := hlive.symm.subset List.mem_cons_self
  refine ⟨h.live.erase r,if_pos hmem,?_⟩
  exact (List.perm_cons r).mp ((List.perm_cons_erase hmem).symm.trans hlive)

theorem Host.releaseIf_perm {r : Option Resource} (hlive : h.live.Perm (r.toList ++ rest)) :
    ∃ live, h.releaseIf r = .ok (h.withLive live) ∧ live.Perm rest := by
  cases r with
  | none => exact ⟨h.live,rfl,hlive⟩
  | some r => exact Host.release_perm hlive

theorem cleanupUmen_perm {u : Option UmenInfo}
    (hlive : h.live.Perm (u.elim [] UmenInfo.resources ++ rest)) :
    ∃ live, cleanupUmen h u = .ok (h.withLive live) ∧ live.Perm rest := by
  cases u with
  | none => exact ⟨h.live,rfl,hlive⟩
  | some u =>
    simp only [Option.elim,UmenInfo.resources,List.append_assoc] at hlive
    obtain ⟨l₁,hr₁,hl₁⟩ := Host.releaseIf_perm hlive
    obtain ⟨l₂,hr₂,hl₂⟩ := Host.releaseIf_perm (h := h.withLive l₁) hl₁
    obtain ⟨l₃,hr₃,hl₃⟩ := Host.release_perm (h := h.withLive l₂) hl₂
    exact ⟨l₃,(bind_ok_iff ..).mpr ⟨_,hr₁,(bind_ok_iff ..).mpr ⟨_,hr₂,hr₃⟩⟩,hl₃⟩

theorem cleanupQueue_perm {s : SockInfo} (hlive : h.live.Perm (s.resources ++ rest)) :
    ∃ live, cleanupQueue h s = .ok (h.withLive live) ∧ live.Perm rest := by
  simp only [SockInfo.resources,List.append_assoc] at hlive
  obtain ⟨l₁,hr₁,hl₁⟩ := Host.releaseIf_perm hlive
  obtain ⟨l₂,hr₂,hl₂⟩ := cleanupUmen_perm (h := h.withLive l₁) hl₁
  obtain ⟨l₃,hr₃,hl₃⟩ := Host.release_perm (h := h.withLive l₂) hl₂
  exact ⟨l₃,(bind_ok_iff ..).mpr ⟨_,hr₁,(bind_ok_iff ..).mpr ⟨_,hr₂,hr₃⟩⟩,hl₃⟩

theorem slotResources_setSocket_of_ne {p : Nat} (hne : p ≠ q) (s : Option SockInfo) :
    (e.setSocket q s).slotResources p = e.slotResources p := by
  simp only [Engine.slotResources,Engine.setSocket,Function.update_of_ne hne]

theorem flatMap_slotResources_setSocket {qs : List Nat} (hq : q ∉ qs) (s : Option SockInfo) :
    qs.flatMap (e.setSocket q s).slotResources = qs.flatMap e.slotResources := by
  refine List.flatMap_congr ?_
  intro p hp
  refine slotResources_setSocket_of_ne ?_ s
  rintro rfl
  exact hq hp

/-- The loop of `cleanup` releases what the slots refer to, each of it once, and clears them. -/
theorem cleanupQueues_perm {qs : List Nat} (hnodup : qs.Nodup)
    (hlive : h.live.Perm (qs.flatMap e.slotResources ++ rest)) :
    ∃ sockets live,
      cleanupQueues qs e h = .ok ({ e with xskSockets := sockets },h.withLive live) ∧
        live.Perm rest ∧ (∀ q ∈ qs, sockets q = none) ∧ ∀ q, e.xskSockets q = none → sockets q = none := by
  induction qs generalizing e h with
  | nil => exact ⟨e.xskSockets,h.live,rfl,hlive,by simp,fun _ hq => hq⟩
  | cons q qs ih =>
    obtain ⟨hq,hnodup⟩ := List.nodup_cons.mp hnodup
    rw [List.flatMap_cons,List.append_assoc] at hlive
    cases hs : e.xskSockets q with
    | none =>
      have hslot : e.slotResources q = [] := by rw [Engine.slotResources,hs]; rfl
      rw [hslot] at hlive
      obtain ⟨sockets,live,hrun,hrest,hclear,hkeep⟩ := ih hnodup hlive
      refine ⟨sockets,live,?_,hrest,List.forall_mem_cons.mpr ⟨hkeep q hs,hclear⟩,hkeep⟩
      simp only [cleanupQueues,hs,hrun]
    | some s =>
      have hslot : e.slotResources q = s.resources := by rw [Engine.slotResources,hs]; rfl
      rw [hslot] at hlive
      obtain ⟨l,hqueue,hl⟩ := cleanupQueue_perm hlive
      rw [← flatMap_slotResources_setSocket (e := e) hq none] at hl
      obtain ⟨sockets,live,hrun,hrest,hclear,hkeep⟩ := ih (h := h.withLive l) hnodup hl
      have hcleared : sockets q = none := hkeep q (Function.update_self ..)
      refine ⟨sockets,live,?_,hrest,List.forall_mem_cons.mpr ⟨hcleared,hclear⟩,?_⟩
      · simp only [cleanupQueues,hs]
        exact (bind_ok_iff ..).mpr ⟨_,hqueue,hrun⟩
      · intro p hp
        by_cases hpq : p = q
        · rw [hpq]
          exact hcleared
        · exact hkeep p ((Function.update_of_ne hpq ..).trans hp)

/-- No slot past the active queues is in use, and an object is open only for an interface. -/
structure Engine.Wf (e : Engine) : Prop where
  interface : e.bpfObj = true → 0 < e.ifindex
  bounded : ∀ q, e.totalActiveQueues.toNat ≤ q → e.xskSockets q = none

/-- The engine refers to nothing. -/
structure Engine.Idle (e : Engine) : Prop where
  closed : e.bpfObj = false
  inactive : e.totalActiveQueues = 0
  empty : ∀ q, e.xskSockets q = none

theorem Engine.Idle.cleanup_eq (hidle : e.Idle) (h : Host) : cleanup e h = .ok (e,h) := by
  obtain ⟨ifindex,total,obj,sockets⟩ := e
  obtain ⟨hobj,htotal,_⟩ := hidle
  dsimp only at hobj htotal
  subst hobj htotal
  rfl

theorem Engine.move_idle (e : Engine) : e.move.2.Idle := ⟨rfl,rfl,fun _ => rfl⟩

theorem cleanup_perm (hwf : e.Wf) (hlive : h.live.Perm (e.owned ++ rest)) :
    ∃ e' h', cleanup e h = .ok (e',h') ∧ e'.Idle ∧ h'.live.Perm rest ∧
      h'.calls = h.calls ++ if e.bpfObj then [.detach] else [] := by
  rw [Engine.owned,List.append_assoc] at hlive
  obtain ⟨sockets,live,hrun,hrest,hclear,hkeep⟩ := cleanupQueues_perm List.nodup_range hlive
  have hempty : ∀ q, sockets q = none := by
    intro q
    by_cases hq : q < e.totalActiveQueues.toNat
    · exact hclear q (List.mem_range.mpr hq)
    · exact hkeep q (hwf.bounded q (Nat.not_lt.mp hq))
  have hcleanup : cleanup e h = closeObject { e with xskSockets := sockets } (h.withLive live) := by
    rw [cleanup,hrun]
    rfl
  rw [hcleanup]
  cases hobj : e.bpfObj with
  | false =>
    rw [hobj] at hrest
    refine ⟨_,_,if_neg ?_,⟨rfl,rfl,hempty⟩,hrest,(List.append_nil _).symm⟩
    rintro ⟨hopen,_⟩
    exact Bool.false_ne_true hopen
  | true =>
    rw [hobj] at hrest
    obtain ⟨live',hrelease,hlive'⟩ :=
      Host.release_perm (h := (h.withLive live).call .detach) hrest
    refine ⟨{ e with xskSockets := sockets, bpfObj := false, totalActiveQueues := 0 },
      ((h.withLive live).call .detach).withLive live',?_,⟨rfl,rfl,hempty⟩,hlive',rfl⟩
    refine (if_pos ⟨rfl,hwf.interface hobj⟩).trans ?_
    exact (bind_ok_iff ..).mpr ⟨_,hrelease,rfl⟩

end Ledger

section Setup

/-- `configure_umen` returns a record. -/
def QueueOutcome.umenReady (o : QueueOutcome) : Bool :=
  o.umenAllocated && o.bufferAllocated && o.umemCreated

/-- The round for a queue reaches its end. -/
def QueueOutcome.ready (o : QueueOutcome) : Bool :=
  o.umenReady && (o.zeroCopySocket || o.copySocket) && o.mapUpdated

/-- What a round that fails leaves behind: nothing before the second record, then all that the queue
has acquired. -/
def QueueOutcome.stranded (o : QueueOutcome) (q : Nat) : List Resource :=
  if !o.umenReady then []
  else if !(o.zeroCopySocket || o.copySocket) then [.sockInfo q,.umem q,.buffer q,.umenInfo q]
  else if !o.mapUpdated then [.socket q,.sockInfo q,.umem q,.buffer q,.umenInfo q]
  else []

def UmenInfo.ofQueue (q : Nat) : UmenInfo := ⟨.umenInfo q,some (.umem q),some (.buffer q)⟩

def SockInfo.ofQueue (q : Nat) : SockInfo :=
  ⟨.sockInfo q,some (.socket q),some (UmenInfo.ofQueue q)⟩

variable {h : Host} {e : Engine} {q : Nat}

theorem Host.release_acquire (h : Host) (r : Resource) : (h.acquire r).release r = .ok h := by
  refine (if_pos List.mem_cons_self).trans ?_
  rw [Host.acquire,List.erase_cons_head]

theorem configureUmen_eq (h : Host) (q : Nat) (o : QueueOutcome) :
    configureUmen h q o = .ok (if o.umenReady then
      (some (UmenInfo.ofQueue q),h.withLive (.umem q :: .buffer q :: .umenInfo q :: h.live))
      else (none,h)) := by
  unfold configureUmen QueueOutcome.umenReady
  cases o.umenAllocated with
  | false => rfl
  | true =>
    cases o.bufferAllocated with
    | false => exact (bind_ok_iff ..).mpr ⟨_,Host.release_acquire ..,rfl⟩
    | true =>
      cases o.umemCreated with
      | false =>
        exact (bind_ok_iff ..).mpr ⟨_,Host.release_acquire ..,
          (bind_ok_iff ..).mpr ⟨_,Host.release_acquire ..,rfl⟩⟩
      | true => rfl

theorem setupQueue_ready {o : QueueOutcome} (hsock : o.sockAllocated = true) (hready : o.ready = true)
    (e : Engine) (h : Host) (q : Nat) :
    setupQueue e h q o = .ok (true,e.setSocket q (some (SockInfo.ofQueue q)),
      (h.withLive ([.socket q,.sockInfo q,.umem q,.buffer q,.umenInfo q] ++ h.live)).register
        q) := by
  simp only [QueueOutcome.ready,Bool.and_eq_true] at hready
  obtain ⟨⟨humen,hsocket⟩,hmap⟩ := hready
  unfold setupQueue
  rw [configureUmen_eq,if_pos humen]
  dsimp only [bind,Except.bind]
  rw [hsock,hsocket,hmap]
  rfl

theorem setupQueue_failed {o : QueueOutcome} (hsock : o.sockAllocated = true)
    (hready : o.ready = false) (e : Engine) (h : Host) (q : Nat) :
    setupQueue e h q o = .ok (false,e,h.withLive (o.stranded q ++ h.live)) := by
  unfold setupQueue QueueOutcome.stranded
  rw [configureUmen_eq]
  cases humen : o.umenReady with
  | false => rfl
  | true =>
    dsimp only [bind,Except.bind]
    rw [hsock]
    cases hsocket : o.zeroCopySocket || o.copySocket with
    | false => rfl
    | true =>
      have hmap : o.mapUpdated = false := by
        simpa [QueueOutcome.ready,humen,hsocket] using hready
      rw [hmap]
      rfl

/-- The record that a round stores refers to all that the round has acquired. -/
theorem SockInfo.ofQueue_resources (q : Nat) :
    ([.socket q,.sockInfo q,.umem q,.buffer q,.umenInfo q] : List Resource).Perm
      (SockInfo.ofQueue q).resources :=
  (List.perm_append_singleton (Resource.sockInfo q) [.umem q,.buffer q,.umenInfo q]).symm.cons _

/-- The queue at which the loop stops. -/
def failedQueue (o : Nat → QueueOutcome) (qs : List Nat) : Option Nat := qs.find? fun q => !(o q).ready

def strandedBy (o : Nat → QueueOutcome) (qs : List Nat) : List Resource :=
  (failedQueue o qs).elim [] fun q => (o q).stranded q

/-- How the loop of `setup` over the queues `qs` ends. -/
structure QueuesSetUp (o : Nat → QueueOutcome) (qs : List Nat) (e : Engine) (h : Host) (ok : Bool)
    (e' : Engine) (h' : Host) : Prop where
  result : ok = (failedQueue o qs).isNone
  engine : e' = { e with xskSockets := e'.xskSockets }
  others : ∀ q, q ∉ qs → e'.xskSockets q = e.xskSockets q
  live : h'.live.Perm (qs.flatMap e'.slotResources ++ (strandedBy o qs ++ h.live))
  calls : h'.calls = h.calls
  config : h'.maps.queueConfig = h.maps.queueConfig
  sockets : ok = true → ∀ q ∈ qs, e'.xskSockets q = some (SockInfo.ofQueue q)
  registered : ok = true → ∀ q, h'.maps.xsks q = (h.maps.xsks q || decide (q ∈ qs))

theorem setupQueues_spec {o : Nat → QueueOutcome} (hsock : ∀ q, (o q).sockAllocated = true)
    {qs : List Nat} (hnodup : qs.Nodup) (hfree : ∀ q ∈ qs, e.xskSockets q = none) :
    ∃ ok e' h', setupQueues o qs e h = .ok (ok,e',h') ∧ QueuesSetUp o qs e h ok e' h' := by
  induction qs generalizing e h with
  | nil =>
    refine ⟨true,e,h,rfl,?_⟩
    constructor <;> simp [strandedBy,failedQueue]
  | cons q qs ih =>
    obtain ⟨hq,hnodup⟩ := List.nodup_cons.mp hnodup
    have hnone := hfree
    obtain ⟨hfreeq,hfree⟩ := List.forall_mem_cons.mp hfree
    cases hready : (o q).ready with
    | false =>
      have hfail : failedQueue o (q :: qs) = some q := List.find?_cons_of_pos (by simp [hready])
      have hslots : (q :: qs).flatMap e.slotResources = [] := by
        refine List.flatMap_eq_nil_iff.mpr ?_
        intro p hp
        rw [Engine.slotResources,hnone p hp]
        rfl
      refine ⟨false,e,h.withLive ((o q).stranded q ++ h.live),?_,?_⟩
      · exact (bind_ok_iff ..).mpr ⟨_,setupQueue_failed (hsock q) hready e h q,rfl⟩
      · constructor
        case live => rw [hslots,strandedBy,hfail]; exact List.Perm.refl _
        case result => rw [hfail]; rfl
        all_goals first | rfl | exact fun hok => absurd hok (by decide) | exact fun _ _ => rfl
    | true =>
      have hfail : failedQueue o (q :: qs) = failedQueue o qs :=
        List.find?_cons_of_neg (by simp [hready])
      have hstep := setupQueue_ready (hsock q) hready e h q
      have hfree' : ∀ p ∈ qs, (e.setSocket q (some (SockInfo.ofQueue q))).xskSockets p = none := by
        intro p hp
        refine (Function.update_of_ne ?_ ..).trans (hfree p hp)
        rintro rfl
        exact hq hp
      obtain ⟨ok,e',h',hrun,hspec⟩ := ih (h := (h.withLive ([.socket q,.sockInfo q,.umem q,
        .buffer q,.umenInfo q] ++ h.live)).register q) hnodup hfree'
      have hslot : e'.xskSockets q = some (SockInfo.ofQueue q) :=
        (hspec.others q hq).trans (Function.update_self ..)
      refine ⟨ok,e',h',(bind_ok_iff ..).mpr ⟨_,hstep,hrun⟩,?_⟩
      constructor
      case result => rw [hfail]; exact hspec.result
      case engine => exact hspec.engine
      case others =>
        intro p hp
        obtain ⟨hpq,hps⟩ := not_or.mp (fun hmem => hp (List.mem_cons.mpr hmem))
        exact (hspec.others p hps).trans (Function.update_of_ne hpq ..)
      case live =>
        have hresources : e'.slotResources q = (SockInfo.ofQueue q).resources := by
          rw [Engine.slotResources,hslot]
          rfl
        rw [strandedBy,hfail,List.flatMap_cons,hresources]
        refine hspec.live.trans (List.perm_iff_count.mpr ?_)
        intro r
        have hcount := (SockInfo.ofQueue_resources q).count_eq r
        simp only [Host.register,Host.withLive,strandedBy,List.count_append] at hcount ⊢
        omega
      case calls => exact hspec.calls
      case config => exact hspec.config
      case sockets =>
        intro hok
        exact List.forall_mem_cons.mpr ⟨hslot,hspec.sockets hok⟩
      case registered =>
        intro hok p
        rw [hspec.registered hok p]
        by_cases hpq : p = q
        · subst hpq
          simp [Host.register]
        · simp [Host.register,Host.withLive,hpq]

namespace SetupOutcome

def opened (o : SetupOutcome) : Bool := o.ifindex != 0 && o.objectOpened

/-- `setup` gets as far as to attach the program. -/
def programAttached (o : SetupOutcome) : Bool :=
  o.opened && loadXdpMap o.blocklist && loadXdpMap o.rateLimiter &&
    loadXdpMap o.rateLimiterParams && o.objectLoaded && o.programFound && o.attached

/-- `setup` reaches the loop over the queues. -/
def programReady (o : SetupOutcome) : Bool := o.programAttached && o.xskMapFound && o.xskMapFd

def queues (o : SetupOutcome) : List Nat := List.range (numQueues o).toNat

/-- What `setup` acquires and no field of the engine refers to. -/
def stranded (o : SetupOutcome) : List Resource :=
  if o.programReady then strandedBy o.queue o.queues else []

end SetupOutcome

/-- How `setup` of a new engine ends before the loop over the queues. -/
structure ProgramSetUp (h : Host) (o : SetupOutcome) (ok : Bool) (e : Engine) (h' : Host) :
    Prop where
  result : ok = o.programReady
  interface : e.ifindex = o.ifindex
  object : e.bpfObj = o.opened
  sockets : e.xskSockets = fun _ => none
  queues : ok = true → e.totalActiveQueues = numQueues o
  live : h'.live = (if o.opened then [.object] else []) ++ h.live
  calls : h'.calls = h.calls ++ if o.programAttached then [.attach] else []
  maps : ok = true → h'.maps = ⟨some (queueConfigValue o),fun _ => false⟩

theorem setupProgram_spec (h : Host) (o : SetupOutcome) :
    ∃ ok e h', setupProgram {} h o = (ok,e,h') ∧ ProgramSetUp h o ok e h' := by
  obtain ⟨⟨ok,e,h'⟩,hprogram⟩ : ∃ p, setupProgram {} h o = p := ⟨_,rfl⟩
  refine ⟨ok,e,h',hprogram,?_⟩
  unfold setupProgram at hprogram
  dsimp only at hprogram
  simp only [Bool.not_eq_true'] at hprogram
  repeat' split at hprogram
  all_goals
    cases hprogram
    constructor <;> simp [*,SetupOutcome.programReady,SetupOutcome.programAttached,
      SetupOutcome.opened,Host.acquire,Host.call]

/-- How `setup` of a new engine ends. -/
structure SetUp (h : Host) (o : SetupOutcome) (ok : Bool) (e : Engine) (h' : Host) : Prop where
  wf : e.Wf
  object : e.bpfObj = o.opened
  live : h'.live.Perm (e.owned ++ (o.stranded ++ h.live))
  calls : h'.calls = h.calls ++ if o.programAttached then [.attach] else []
  complete : ok = true → o.stranded = []
  queues : ok = true → e.totalActiveQueues = numQueues o
  sockets : ok = true → ∀ q ∈ o.queues, e.xskSockets q = some (SockInfo.ofQueue q)
  maps : ok = true → h'.maps = ⟨some (queueConfigValue o),fun q => decide (q ∈ o.queues)⟩

theorem setup_spec (h : Host) {o : SetupOutcome} (hsock : ∀ q, (o.queue q).sockAllocated = true) :
    ∃ ok e h', setup {} h o = .ok (ok,e,h') ∧ SetUp h o ok e h' := by
  obtain ⟨ok,e,h₁,hprogram,hspec⟩ := setupProgram_spec h o
  have hopen : e.bpfObj = true → 0 < e.ifindex := by
    rw [hspec.object,hspec.interface,SetupOutcome.opened,Bool.and_eq_true,bne_iff_ne]
    exact fun hopened => Nat.pos_of_ne_zero hopened.1
  have hslots : e.slotResources = fun _ => [] := by
    funext q
    rw [Engine.slotResources,hspec.sockets]
    rfl
  cases hok : ok with
  | false =>
    rw [hok] at hprogram
    have hnone : o.stranded = [] := if_neg (by rw [← hspec.result,hok]; decide)
    refine ⟨false,e,h₁,?_,?_⟩
    · simp only [setup,hprogram]
      rfl
    · constructor
      case wf => exact ⟨hopen,fun q _ => by rw [hspec.sockets]⟩
      case live =>
        have hempty : (List.range e.totalActiveQueues.toNat).flatMap e.slotResources = [] := by
          rw [hslots]
          exact List.flatMap_eq_nil_iff.mpr (fun _ _ => rfl)
        rw [hspec.live,hnone,Engine.owned,hempty,hspec.object]
        exact List.Perm.refl _
      case object => exact hspec.object
      case calls => exact hspec.calls
      all_goals exact fun htrue => absurd htrue (by decide)
  | true =>
    have hqueues := hspec.queues hok
    have hmaps := hspec.maps hok
    have hready : o.stranded = strandedBy o.queue o.queues := if_pos (by rw [← hspec.result,hok])
    rw [hok] at hprogram
    have hfree : ∀ q ∈ o.queues, e.xskSockets q = none := fun q _ => by rw [hspec.sockets]
    obtain ⟨done,e',h',hrun,hloop⟩ := setupQueues_spec (h := h₁) hsock List.nodup_range hfree
    have htotal : e'.totalActiveQueues = numQueues o := by
      rw [hloop.engine]
      exact hqueues
    have hobject : e'.bpfObj = e.bpfObj := by rw [hloop.engine]
    refine ⟨done,e',h',?_,?_⟩
    · simp only [setup,hprogram,hqueues]
      exact hrun
    · constructor
      case wf =>
        refine ⟨?_,?_⟩
        · rw [hloop.engine]
          exact hopen
        · intro q hq
          rw [htotal] at hq
          rw [hloop.others q (fun hmem => Nat.not_lt.mpr hq (List.mem_range.mp hmem)),hspec.sockets]
      case object => exact hobject.trans hspec.object
      case live =>
        refine hloop.live.trans (List.perm_iff_count.mpr ?_)
        intro r
        rw [Engine.owned,htotal,hobject,hspec.object,hready,hspec.live]
        simp only [SetupOutcome.queues,List.count_append]
        omega
      case calls => rw [hloop.calls,hspec.calls]
      case complete =>
        intro hdone
        have hnone : failedQueue o.queue o.queues = none :=
          Option.isNone_iff_eq_none.mp (hloop.result.symm.trans hdone)
        rw [hready,strandedBy,hnone]
        rfl
      case queues => exact fun _ => htotal
      case sockets => exact hloop.sockets
      case maps =>
        intro hdone
        have hconfig : h'.maps.queueConfig = some (queueConfigValue o) :=
          hloop.config.trans (by rw [hmaps])
        have hxsks : h'.maps.xsks = fun q => decide (q ∈ o.queues) := by
          funext q
          rw [hloop.registered hdone q,hmaps]
          rfl
        rw [← hxsks,← hconfig]

theorem numQueues_le (o : SetupOutcome) : numQueues o ≤ 64 := by
  unfold numQueues
  dsimp only
  split_ifs with hlarge
  · exact le_refl _
  · exact not_lt.mp hlarge

/-- The program never uses more queues than `setup` has made. -/
theorem dynamicNumQueues_le {o : SetupOutcome} (hpos : 0 < numQueues o) (xsks : Nat → Bool) :
    (dynamicNumQueues ⟨some (queueConfigValue o),xsks⟩).toNat ≤ (numQueues o).toNat := by
  have hone : 1 ≤ (numQueues o).toNat := by omega
  have hvalue : (queueConfigValue o).toNat ≤ (numQueues o).toNat := by
    unfold queueConfigValue
    split_ifs
    · have hle := numQueues_le o
      rw [BitVec.toNat_ofInt]
      omega
    · exact Nat.zero_le _
  unfold dynamicNumQueues
  dsimp only
  split_ifs
  · exact hvalue
  · exact hone

end Setup

end Aethon.AfXdp
