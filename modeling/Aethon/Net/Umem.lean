import Aethon.Framework.RingQueue
import Aethon.Net.RxPacket
import Aethon.Pipeline.TxPool
import Mathlib.Data.List.Count

/-!
# The frames of a queue

The loop of `rx_worker` with the places that a frame of the UMEM can be in: the four rings that
are shared with the kernel, the fallback ring and the transmit pool. A frame is named by its
address. What the kernel does, how many descriptors a peek returns, and whether the fill ring
has room come with each iteration; a reservation yields all that was asked for or nothing.
-/

namespace Aethon.Net

open Framework Pipeline

/-- The parameters of `XdpConfig` that the loop depends on, with the defaults of the source. The
capacity of the fallback ring is a power of two. -/
structure XdpConfig where
  numFrames : Nat := 4096
  frameSize : Nat := 2048
  fqRingSize : Nat := 2048
  fallbackBits : Nat := 12
  batchSize : Nat := 64
  frameSize_pos : 0 < frameSize := by decide
  fq_le : fqRingSize ≤ numFrames := by decide
  fallbackBits_lt : fallbackBits < 32 := by decide

namespace XdpConfig

variable (x : XdpConfig)

def fallbackCapacity : Nat := 2 ^ x.fallbackBits

/-- The line between the frames of the fill ring and those of the transmit pool. -/
def txBoundary : Nat := x.fqRingSize * x.frameSize

/-- The addresses of `count` frames from the frame `first` on. -/
def addrs (first count : Nat) : List Nat := (List.range' first count).map (· * x.frameSize)

end XdpConfig

abbrev FallbackRing (x : XdpConfig) := RingQueue Nat x.fallbackBits

structure Umem (x : XdpConfig) where
  fill : List Nat
  rx : List Nat
  tx : List Nat
  completion : List Nat
  fallback : FallbackRing x
  worker : Worker

/-- What one iteration meets: the frames that the kernel has moved from the fill ring to the
receive ring and from the transmit ring to the completion ring, the results of the two peeks,
the answers of the fill ring, the packets by their index in the batch, and the backend events. -/
structure Iteration where
  received : List Nat := []
  sent : List Nat := []
  rcvd : Nat := 0
  completed : Nat := 0
  returnReserved : Bool := true
  txBuffer : Nat → UInt8 := fun _ => 0
  events : List BackendEvent := []
  packet : Nat → RxEnv × (Nat → UInt8) × Nat := fun _ => ({},fun _ => 0,0)
  recycleReserved : Nat → Bool := fun _ => true
  refillReserved : List Bool := []

namespace Umem

variable {x : XdpConfig}

/-- The frames in all places. -/
def frames (u : Umem x) : List Nat :=
  u.fill ++ u.rx ++ u.tx ++ u.completion ++ u.fallback.contents ++ u.worker.tcp.txPool

/-- The queue when the loop starts. The back of the pool is the head of its list. -/
def start (x : XdpConfig) : Umem x where
  fill := x.addrs 0 x.fqRingSize
  rx := []
  tx := []
  completion := []
  fallback := .new 0
  worker := .new (x.addrs x.fqRingSize (x.numFrames - x.fqRingSize)).reverse

section Loop

variable (cfg : Config) (hostIps : List (BitVec 32)) (u : Umem x) (it : Iteration)

def kernelMoves : Umem x :=
  { u with
    fill := u.fill.diff it.received
    rx := u.rx ++ it.received
    tx := u.tx.diff it.sent
    completion := u.completion ++ it.sent }

/-- The descriptors that the peek at the receive ring returns. -/
def batch : List Nat := u.rx.take (min it.rcvd x.batchSize)

def completedFrames : List Nat := u.completion.take (min it.completed x.batchSize)

/-- `rx_addrs`: the completed frames that belong to the fill ring. -/
def rxCompleted : List Nat := (u.completedFrames it).filter (· < x.txBoundary)

def freeCompletionRing : Umem x :=
  { u with
    worker := { u.worker with
      tcp := Pipeline.freeCompletionRing { cfg with txBoundary := x.txBoundary } u.worker.tcp
        (u.completedFrames it) }
    fill := if it.returnReserved then u.fill ++ u.rxCompleted it else u.fill
    completion := u.completion.drop (u.completedFrames it).length }

/-- The worker has put frames of its pool on the transmit ring, one for each segment. -/
def transmit (w : Worker) (report : RxReport) : Umem x :=
  { u with
    tx := u.tx ++ u.worker.tcp.txPool.take (spentFrames report.actions)
    worker := w }

def drainEvents : Checked (Umem x × RxReport) := do
  let (w,report) ← workerStep cfg hostIps u.worker (.backend it.txBuffer it.events)
  return (u.transmit w report,report)

/-- The end of the loop over the batch: the frame goes to the fallback ring, or straight to the
fill ring. -/
def recycleSlot (addr : Nat) (reserved : Bool) : Umem x :=
  match u.fallback.push addr with
  | some fallback => { u with fallback := fallback }
  | none => if reserved then { u with fill := u.fill ++ [addr] } else u

/-- One descriptor of the batch, with its index. A reply takes the frame along. -/
def onDescriptor (slot : Nat × Nat) : Checked (Umem x × RxReport) := do
  let (w,report) ← workerStep cfg hostIps u.worker
    (.packet (it.packet slot.2).1 (it.packet slot.2).2.1 (it.packet slot.2).2.2)
  let u := u.transmit w report
  if report.recycled then return (u.recycleSlot slot.1 (it.recycleReserved slot.2),report)
  else return ({ u with tx := u.tx ++ [slot.1] },report)

/-- The loop that returns frames of the fallback ring to the fill ring, at the end of a batch
and in an idle iteration. -/
def refill : List Bool → Umem x → Umem x
  | [],u => u
  | reserved :: rest,u =>
      if u.fallback.empty ∨ !reserved then u
      else
        let count := min u.fallback.size x.batchSize
        refill rest { u with
          fill := u.fill ++ (List.range count).map u.fallback.get
          fallback := u.fallback.advance count }

def iteration : Checked (Umem x × List RxReport) := do
  let u := u.kernelMoves it
  let batch := u.batch it
  let (u,drained) ← (u.freeCompletionRing cfg it).drainEvents cfg hostIps it
  let (u,reports) ← runOut (fun u slot => u.onDescriptor cfg hostIps it slot) u batch.zipIdx
  return (refill it.refillReserved { u with rx := u.rx.drop batch.length },drained :: reports)

end Loop

section Count

variable {cfg : Config} {hostIps : List (BitVec 32)} {u v : Umem x} {it : Iteration}

/-- In how many places an address is. -/
def held (u : Umem x) (addr : Nat) : Nat := u.frames.count addr

theorem held_eq (u : Umem x) (addr : Nat) :
    u.held addr = u.fill.count addr + u.rx.count addr + u.tx.count addr +
      u.completion.count addr + u.fallback.contents.count addr +
      u.worker.tcp.txPool.count addr := by
  simp only [held,frames,List.count_append]

/-- The kernel moves frames that are there. -/
def KernelFair (u : Umem x) (it : Iteration) : Prop :=
  it.received.Subperm u.fill ∧ it.sent.Subperm u.tx

theorem kernelMoves_held (h : u.KernelFair it) (addr : Nat) :
    (u.kernelMoves it).held addr = u.held addr := by
  have hreceived := h.1.count_le addr
  have hsent := h.2.count_le addr
  simp only [held_eq,kernelMoves,List.count_append,List.count_diff]
  omega

/-- A peek and a release of what it returned split a ring. -/
theorem count_peek (ring : List Nat) (n addr : Nat) :
    ring.count addr = (ring.take n).count addr +
      (ring.drop (ring.take n).length).count addr := by
  rw [← List.count_append,List.prefix_iff_eq_append.mp (List.take_prefix n ring)]

/-- The frames that `free_completion_ring` drops. -/
def unreturned (u : Umem x) (it : Iteration) : List Nat :=
  if it.returnReserved then [] else u.rxCompleted it

theorem completedFrames_count (u : Umem x) (it : Iteration) (addr : Nat) :
    (u.completedFrames it).count addr = (u.rxCompleted it).count addr +
      ((u.completedFrames it).filter fun a => x.txBoundary ≤ a).count addr := by
  have hsplit := (List.filter_append_perm (· < x.txBoundary) (u.completedFrames it)).count_eq addr
  simp only [List.count_append,not_lt,← decide_not] at hsplit
  rw [← hsplit,rxCompleted]

theorem freeCompletionRing_held (cfg : Config) (u : Umem x) (it : Iteration) (addr : Nat) :
    (u.freeCompletionRing cfg it).held addr + (u.unreturned it).count addr = u.held addr := by
  have hcompletion : u.completion.count addr = (u.completedFrames it).count addr +
      (u.completion.drop (u.completedFrames it).length).count addr := count_peek ..
  have hdone := u.completedFrames_count it addr
  simp only [held_eq,freeCompletionRing,Pipeline.freeCompletionRing,unreturned]
  split_ifs
  · simp only [List.count_append,List.count_reverse,List.count_nil]
    omega
  · simp only [List.count_append,List.count_reverse]
    omega

/-- What a call of the worker sends in frames of the pool leaves the pool. -/
theorem rxPacket_txPool {env : RxEnv} {w w' : Worker} {pkt : Nat → UInt8} {len : Nat}
    {report : RxReport} (h : rxPacket cfg env w pkt len hostIps = .ok (w',report)) :
    w'.tcp.txPool = w.tcp.txPool.drop (spentFrames report.actions) := by
  unfold rxPacket at h
  split_ifs at h
  · unfold onUdp at h
    split_ifs at h
    · cases h
      rfl
    · obtain ⟨⟨udp,res⟩,_,hret⟩ := (bind_ok_iff ..).mp h
      cases hret
      rfl
  · obtain ⟨⟨tcp,out⟩,htcp,hret⟩ := (bind_ok_iff ..).mp h
    cases hret
    exact handleTcpPacket_txPool htcp
  · cases h
    unfold onIcmp
    split_ifs <;> rfl
  · cases h
    rfl
  · cases h
    rfl

theorem transmit_held {w : Worker} {report : RxReport}
    (h : w.tcp.txPool = u.worker.tcp.txPool.drop (spentFrames report.actions)) (addr : Nat) :
    (u.transmit w report).held addr = u.held addr := by
  have hpool : u.worker.tcp.txPool.count addr =
      (u.worker.tcp.txPool.take (spentFrames report.actions)).count addr +
        (u.worker.tcp.txPool.drop (spentFrames report.actions)).count addr := by
    rw [← List.count_append,List.take_append_drop]
  simp only [held_eq,transmit,h,List.count_append]
  omega

/-- The step puts the frames `addrs` somewhere and moves others, without a look at the receive
ring. -/
structure Takes (u v : Umem x) (addrs : List Nat) : Prop where
  held : ∀ addr, v.held addr = u.held addr + addrs.count addr
  rx : v.rx = u.rx
  fallback : v.fallback.size ≤ u.fallback.size + addrs.length

theorem Takes.trans {w : Umem x} {addrs addrs' : List Nat} (h : Takes u v addrs)
    (h' : Takes v w addrs') : Takes u w (addrs ++ addrs') where
  held := by
    intro addr
    rw [h'.held,h.held,List.count_append,Nat.add_assoc]
  rx := h'.rx.trans h.rx
  fallback := by
    have hsize := h.fallback
    have hsize' := h'.fallback
    rw [List.length_append]
    omega

theorem transmit_takes {w : Worker} {report : RxReport}
    (h : w.tcp.txPool = u.worker.tcp.txPool.drop (spentFrames report.actions)) :
    Takes u (u.transmit w report) [] :=
  ⟨transmit_held h,rfl,le_rfl⟩

theorem drainEvents_takes {report : RxReport}
    (h : u.drainEvents cfg hostIps it = .ok (v,report)) : Takes u v [] := by
  obtain ⟨⟨w,rep⟩,hstep,hret⟩ := (bind_ok_iff ..).mp h
  cases hret
  obtain ⟨⟨tcp,out⟩,hdrain,hret⟩ := (bind_ok_iff ..).mp hstep
  cases hret
  exact transmit_takes (drainBackendEvents_txPool hdrain)

theorem recycleSlot_takes (u : Umem x) {addr : Nat} {reserved : Bool}
    (h : u.fallback.size < x.fallbackCapacity ∨ reserved = true) :
    Takes u (u.recycleSlot addr reserved) [addr] := by
  unfold recycleSlot
  cases hpush : u.fallback.push addr with
  | some fallback =>
    have hcontents := RingQueue.contents_push x.fallbackBits_lt hpush
    refine ⟨?_,rfl,?_⟩
    · intro a
      simp only [held_eq,hcontents,List.count_append]
      omega
    · have hlen := congrArg List.length hcontents
      rw [RingQueue.contents_length,List.length_append,RingQueue.contents_length] at hlen
      exact hlen.le
  | none =>
    have hfull := RingQueue.push_eq_none hpush
    have hreserved : reserved = true := h.resolve_left (not_lt.mpr hfull)
    simp only [hreserved,if_true]
    refine ⟨?_,rfl,Nat.le_add_right ..⟩
    intro a
    simp only [held_eq,List.count_append]
    omega

/-- The fallback ring has room for `count` more frames, or the fill ring always does. -/
def RoomFor (u : Umem x) (it : Iteration) (count : Nat) : Prop :=
  u.fallback.size + count ≤ x.fallbackCapacity ∨ ∀ i, it.recycleReserved i = true

theorem onDescriptor_takes {slot : Nat × Nat} {report : RxReport} (hroom : u.RoomFor it 1)
    (h : u.onDescriptor cfg hostIps it slot = .ok (v,report)) : Takes u v [slot.1] := by
  obtain ⟨⟨w,rep⟩,hstep,hrest⟩ := (bind_ok_iff ..).mp h
  have htransmit := transmit_takes (u := u) (rxPacket_txPool hstep)
  dsimp only at hrest
  split_ifs at hrest
  · cases hrest
    exact htransmit.trans (recycleSlot_takes _ (hroom.imp id fun hall => hall slot.2))
  · cases hrest
    refine htransmit.trans ⟨?_,rfl,Nat.le_add_right ..⟩
    intro a
    simp only [held_eq,List.count_append]
    omega

/-- Every frame of the batch ends up somewhere. -/
theorem batch_takes {slots : List (Nat × Nat)} {reports : List RxReport}
    (hroom : u.RoomFor it slots.length)
    (h : runOut (fun u slot => u.onDescriptor cfg hostIps it slot) u slots = .ok (v,reports)) :
    Takes u v (slots.map Prod.fst) := by
  induction slots generalizing u reports with
  | nil =>
    cases h
    exact ⟨fun _ => rfl,rfl,le_rfl⟩
  | cons slot slots ih =>
    obtain ⟨t,report,rest,hone,htail,_⟩ := (runOut_cons ..).mp h
    rw [List.length_cons] at hroom
    have hfirst := onDescriptor_takes (hroom.imp (fun hsize => by omega) id) hone
    have hsize := hfirst.fallback
    rw [List.length_singleton] at hsize
    exact hfirst.trans (ih (hroom.imp (fun hall => by omega) id) htail)

theorem refill_held (reservations : List Bool) (u : Umem x) (addr : Nat) :
    (refill reservations u).held addr = u.held addr := by
  induction reservations generalizing u with
  | nil => rfl
  | cons reserved rest ih =>
    rw [refill]
    split_ifs
    · rfl
    · have hle : min u.fallback.size x.batchSize ≤ u.fallback.size := min_le_left ..
      have hcontents : u.fallback.contents.count addr =
          (u.fallback.contents.take (min u.fallback.size x.batchSize)).count addr +
            (u.fallback.contents.drop (min u.fallback.size x.batchSize)).count addr := by
        rw [← List.count_append,List.take_append_drop]
      simp only [ih,held_eq,RingQueue.map_get_range _ hle,
        RingQueue.contents_advance _ x.fallbackBits_lt hle,List.count_append]
      omega

/-- The recycled frames of an iteration find room. -/
def Room (u : Umem x) (it : Iteration) : Prop :=
  u.RoomFor it ((u.kernelMoves it).batch it).length

/-- One iteration loses the frames that `free_completion_ring` drops, and no others. -/
theorem iteration_held {reports : List RxReport} (hfair : u.KernelFair it) (hroom : u.Room it)
    (h : u.iteration cfg hostIps it = .ok (v,reports)) (addr : Nat) :
    v.held addr + ((u.kernelMoves it).unreturned it).count addr = u.held addr := by
  obtain ⟨⟨t,drained⟩,hdrain,hrest⟩ := (bind_ok_iff ..).mp h
  obtain ⟨⟨w,reps⟩,hbatch,hret⟩ := (bind_ok_iff ..).mp hrest
  cases hret
  have hmoved := kernelMoves_held hfair addr
  have hfreed := freeCompletionRing_held cfg (u.kernelMoves it) it addr
  have hdrained := drainEvents_takes hdrain
  have htaken := hdrained.trans (batch_takes (by
    rw [List.length_zipIdx]
    exact hroom.imp (fun hsize => by
      have hfallback := hdrained.fallback
      rw [List.length_nil] at hfallback
      exact (Nat.add_le_add_right hfallback _).trans hsize) id) hbatch)
  rw [List.nil_append,List.zipIdx_map_fst] at htaken
  have hheld := htaken.held addr
  have hrx : w.rx.count addr = ((u.kernelMoves it).batch it).count addr +
      (w.rx.drop ((u.kernelMoves it).batch it).length).count addr := by
    rw [htaken.rx]
    exact count_peek ..
  rw [refill_held]
  rw [held_eq w] at hheld
  simp only [held_eq _ addr] at hheld hmoved hfreed ⊢
  omega

end Count

end Umem

end Aethon.Net
