import Aethon.Framework.Loop
import Aethon.Framework.RingQueue
import Aethon.Framework.SlotWindow

/-!
# The fallback ring

`FallbackRing` of `af_xdp_header.h` over its machine words: the counters are `uint32_t` and never
reset, the arguments of `get` and `advance` and the mask are `size_t`. The ring mirrors a ring
queue and through it simulates a bounded queue, for calls that never drop more addresses than
there are. The refill loop of `rx_worker` makes only such calls, whatever number of places up to
the one it asks for the fill ring grants.
-/

namespace Aethon.AfXdp

open Aethon.Framework

/-- A capacity that passes the `static_assert`, and within the range of the counters. The
assertion alone would let `0` pass. -/
structure RingCapacity where
  value : BitVec 64
  pos : 1 ≤ value.toNat
  power_of_two : value &&& (value - 1) = 0
  le : value.toNat ≤ 2 ^ 31

namespace RingCapacity

variable (c : RingCapacity)

def mask : BitVec 64 := c.value - 1

/-- The exponent of the capacity. -/
def bits : Nat := c.value.toNat.log2

theorem toNat_eq : c.value.toNat = 2 ^ c.bits := by
  obtain ⟨k,hk⟩ := (and_pred_eq_zero_iff c.pos).mp c.power_of_two
  rw [bits,hk,Nat.log2_two_pow]

theorem bits_lt : c.bits < 32 := by
  have hle : 2 ^ c.bits ≤ 2 ^ 31 := c.toNat_eq ▸ c.le
  have hbits : c.bits ≤ 31 := (Nat.pow_le_pow_iff_right (by decide)).mp hle
  omega

theorem toNat_and_mask (x : BitVec 64) : (x &&& c.mask).toNat = RingQueue.slot c.bits x.toNat := by
  rw [mask,toNat_and_pred x c.toNat_eq,RingQueue.slot_eq,c.toNat_eq]

theorem toNat_and_mask_lt (x : BitVec 64) : (x &&& c.mask).toNat < c.value.toNat := by
  rw [mask,toNat_and_pred x c.toNat_eq]
  exact Nat.mod_lt _ c.pos

/-- The cell of a counter. -/
def index (x : BitVec 64) : Fin c.value.toNat := ⟨(x &&& c.mask).toNat,c.toNat_and_mask_lt x⟩

theorem index_val (x : BitVec 64) : (c.index x).val = RingQueue.slot c.bits x.toNat :=
  c.toNat_and_mask x

theorem ofExponent_checked {k : Nat} (hk : k ≤ 31) :
    1 ≤ (BitVec.ofNat 64 (2 ^ k)).toNat ∧
      BitVec.ofNat 64 (2 ^ k) &&& (BitVec.ofNat 64 (2 ^ k) - 1) = 0 ∧
      (BitVec.ofNat 64 (2 ^ k)).toNat ≤ 2 ^ 31 := by
  have htoNat : (BitVec.ofNat 64 (2 ^ k)).toNat = 2 ^ k := toNat_ofNat_pow (by omega)
  have hpos : 1 ≤ (BitVec.ofNat 64 (2 ^ k)).toNat := by
    rw [htoNat]
    exact Nat.one_le_two_pow
  refine ⟨hpos,(and_pred_eq_zero_iff hpos).mpr ⟨k,htoNat⟩,?_⟩
  rw [htoNat]
  exact Nat.pow_le_pow_right (by decide) hk

/-- Every power of two up to `2 ^ 31` is a capacity. -/
def ofExponent (k : Nat) (hk : k ≤ 31) : RingCapacity where
  value := BitVec.ofNat 64 (2 ^ k)
  pos := (ofExponent_checked hk).1
  power_of_two := (ofExponent_checked hk).2.1
  le := (ofExponent_checked hk).2.2

end RingCapacity

structure FallbackRing (c : RingCapacity) where
  ring : Fin c.value.toNat → BitVec 64
  head : BitVec 32
  tail : BitVec 32

/-- What changes a ring. -/
inductive RingCall where
  | push (addr : BitVec 64)
  | advance (count : BitVec 64)

namespace RingCall

def toQueueCall : RingCall → QueueCall (BitVec 64)
  | push addr => .push addr
  | advance count => .advance count.toNat

end RingCall

namespace FallbackRing

variable {c : RingCapacity}

/-- The cells are not initialised. -/
def new (garbage : Fin c.value.toNat → BitVec 64) : FallbackRing c := ⟨garbage,0,0⟩

def empty (r : FallbackRing c) : Bool := r.head == r.tail

def size (r : FallbackRing c) : BitVec 64 := (r.head - r.tail).setWidth 64

def full (r : FallbackRing c) : Bool := c.value ≤ (r.head - r.tail).setWidth 64

def push (r : FallbackRing c) (addr : BitVec 64) : FallbackRing c × Bool :=
  if r.full then (r,false)
  else
    ({ r with
      ring := Function.update r.ring (c.index (r.head.setWidth 64)) addr
      head := r.head + 1 },true)

def get (r : FallbackRing c) (offset : BitVec 64) : BitVec 64 :=
  r.ring (c.index (r.tail.setWidth 64 + offset))

def advance (r : FallbackRing c) (count : BitVec 64) : FallbackRing c :=
  { r with tail := (r.tail.setWidth 64 + count).setWidth 32 }

/-- One call, with what `push` answers. -/
def step (r : FallbackRing c) : RingCall → FallbackRing c × Option Bool
  | .push addr => ((r.push addr).1,some (r.push addr).2)
  | .advance count => (r.advance count,none)

/-- No more addresses are dropped than there are. -/
def Allows (r : FallbackRing c) : RingCall → Prop
  | .push _ => True
  | .advance count => count ≤ r.size

instance (r : FallbackRing c) (call : RingCall) : Decidable (r.Allows call) :=
  match call with
  | .push _ => instDecidableTrue
  | .advance count => inferInstanceAs (Decidable (count ≤ r.size))

theorem toNat_size (r : FallbackRing c) : r.size.toNat = (r.head - r.tail).toNat :=
  BitVec.toNat_setWidth_of_le (by decide)

/-- The ring and a ring queue have the same counters and the same cells. -/
structure Mirrors (r : FallbackRing c) (q : RingQueue (BitVec 64) c.bits) : Prop where
  head : r.head = q.head
  tail : r.tail = q.tail
  ring : ∀ i, r.ring i = q.ring i.val

/-- A ring queue with the cells of the ring; the cells it does not have are free. -/
def mirror (r : FallbackRing c) : RingQueue (BitVec 64) c.bits where
  ring i := if h : i < c.value.toNat then r.ring ⟨i,h⟩ else 0
  head := r.head
  tail := r.tail

theorem mirrors_mirror (r : FallbackRing c) : Mirrors r r.mirror where
  head := rfl
  tail := rfl
  ring := by
    intro i
    change r.ring i = if h : i.val < c.value.toNat then r.ring ⟨i.val,h⟩ else 0
    rw [dif_pos i.isLt]

namespace Mirrors

variable {r : FallbackRing c} {q : RingQueue (BitVec 64) c.bits}

theorem size (h : Mirrors r q) : r.size.toNat = q.size := by
  rw [toNat_size,h.head,h.tail,RingQueue.size]

theorem full (h : Mirrors r q) : r.full = q.full := by
  have hsize := h.size
  rw [FallbackRing.size] at hsize
  rw [FallbackRing.full,RingQueue.full,← c.toNat_eq,← hsize]
  rfl

theorem get (h : Mirrors r q) (offset : BitVec 64) : r.get offset = q.get offset.toNat := by
  have hdvd : 2 ^ c.bits ∣ 2 ^ 64 := Nat.pow_dvd_pow 2 (by have := c.bits_lt; omega)
  rw [FallbackRing.get,h.ring,c.index_val,BitVec.toNat_add,
    BitVec.toNat_setWidth_of_le (by decide),h.tail,RingQueue.get,RingQueue.slot_eq,
    RingQueue.slot_eq,Nat.mod_mod_of_dvd _ hdvd]

theorem advance (h : Mirrors r q) (count : BitVec 64) :
    Mirrors (r.advance count) (q.advance count.toNat) where
  head := h.head
  tail := by
    apply BitVec.eq_of_toNat_eq
    change ((r.tail.setWidth 64 + count).setWidth 32).toNat =
      (q.tail + BitVec.ofNat 32 count.toNat).toNat
    rw [BitVec.toNat_setWidth,BitVec.toNat_add,BitVec.toNat_setWidth_of_le (by decide),
      BitVec.toNat_add,BitVec.toNat_ofNat,Nat.mod_mod_of_dvd _ (Nat.pow_dvd_pow 2 (by decide)),
      Nat.add_mod_mod,h.tail]
  ring := h.ring

theorem write (h : Mirrors r q) (addr : BitVec 64) (i : Fin c.value.toNat) :
    Function.update r.ring (c.index (r.head.setWidth 64)) addr i =
      Function.update q.ring (RingQueue.slot c.bits q.head.toNat) addr i.val := by
  have hslot : (c.index (r.head.setWidth 64)).val = RingQueue.slot c.bits q.head.toNat := by
    rw [c.index_val,BitVec.toNat_setWidth_of_le (by decide),h.head]
  by_cases hi : i = c.index (r.head.setWidth 64)
  · rw [hi,Function.update_self,hslot,Function.update_self]
  · have hne : i.val ≠ RingQueue.slot c.bits q.head.toNat := by
      rw [← hslot]
      exact fun hval => hi (Fin.ext hval)
    rw [Function.update_of_ne hi,Function.update_of_ne hne,h.ring]

theorem push (h : Mirrors r q) (addr : BitVec 64) :
    (r.push addr).2 = (q.push addr).isSome ∧ Mirrors (r.push addr).1 ((q.push addr).getD q) := by
  have hfull := h.full
  rw [FallbackRing.push,RingQueue.push,hfull]
  by_cases hq : q.full = true
  · rw [if_pos hq,if_pos hq]
    exact ⟨rfl,h⟩
  · rw [if_neg hq,if_neg hq]
    refine ⟨rfl,?_,h.tail,h.write addr⟩
    change r.head + 1 = q.head + 1
    rw [h.head]

end Mirrors

/-- The words of the ring simulate the ring queue. -/
theorem simulates_ringQueue : Simulates (step : FallbackRing c → _ → _) RingQueue.step
    RingCall.toQueueCall Allows RingQueue.Allows Mirrors where
  allowed := by
    intro r q call hR hallows
    cases call with
    | push addr => trivial
    | advance count =>
      change count.toNat ≤ q.size
      rw [← hR.size]
      exact hallows
  answer := by
    intro r q call hR _
    cases call with
    | push addr => exact congrArg some (hR.push addr).1
    | advance count => rfl
  keeps := by
    intro r q call hR _
    cases call with
    | push addr => exact (hR.push addr).2
    | advance count => exact hR.advance count

/-- The ring stands for the bounded queue. -/
def Holds (r : FallbackRing c) (b : BoundedQueue (BitVec 64) c.value.toNat) : Prop :=
  ∃ q, Mirrors r q ∧ q.contents = b.items

theorem simulates_boundedQueue : Simulates (step : FallbackRing c → _ → _) BoundedQueue.step
    RingCall.toQueueCall Allows BoundedQueue.Allows Holds :=
  simulates_ringQueue.comp (RingQueue.simulates c.bits_lt c.toNat_eq)

theorem holds_new (garbage : Fin c.value.toNat → BitVec 64) : Holds (new garbage) .new :=
  ⟨(new garbage).mirror,mirrors_mirror _,RingQueue.contents_eq_nil rfl⟩

/-- All that can be read off the ring is read off the bounded queue. -/
structure Reads (r : FallbackRing c) (b : BoundedQueue (BitVec 64) c.value.toNat) : Prop where
  size : r.size.toNat = b.items.length
  get : ∀ i, i < r.size → b.items[i.toNat]? = some (r.get i)
  empty : r.empty = true ↔ b.items = []
  full : r.full = true ↔ b.items.length = c.value.toNat

theorem empty_iff (r : FallbackRing c) : r.empty = true ↔ r.size.toNat = 0 := by
  have hsub : r.head - r.tail = 0 ↔ r.head = r.tail := by
    constructor
    · intro hzero
      rw [← BitVec.sub_add_cancel r.head r.tail,hzero]
      exact BitVec.zero_add r.tail
    · intro heq
      rw [heq]
      exact BitVec.sub_self r.tail
  rw [empty,beq_iff_eq,toNat_size,← hsub,← BitVec.toNat_inj]
  rfl

theorem Holds.reads {r : FallbackRing c} {b : BoundedQueue (BitVec 64) c.value.toNat}
    (h : Holds r b) : Reads r b := by
  obtain ⟨q,hq,hitems⟩ := h
  have hsize : r.size.toNat = b.items.length := by
    rw [hq.size,← hitems,RingQueue.contents_length]
  refine ⟨hsize,?_,?_,?_⟩
  · intro i hi
    have hlt : i.toNat < q.size := by
      rw [← hq.size]
      exact hi
    rw [hq.get,← hitems]
    exact q.contents_getElem? hlt
  · rw [empty_iff,hsize,List.length_eq_zero_iff]
  · have hbound := b.length_le
    have hfull : r.full = true ↔ c.value.toNat ≤ r.size.toNat := decide_eq_true_iff
    rw [hfull,hsize]
    omega

/-- The ring is a bounded queue in every run: each `push` answers as the queue does, and after any
number of calls, however often the counters have wrapped around, the ring reads as the queue. -/
theorem run_refines_boundedQueue (c : RingCapacity) (garbage : Fin c.value.toNat → BitVec 64)
    (calls : List RingCall) (h : Meets Allows step (new garbage) calls) :
    (exec step (new garbage) calls).2 =
        (exec BoundedQueue.step (.new : BoundedQueue (BitVec 64) c.value.toNat)
          (calls.map RingCall.toQueueCall)).2 ∧
      Reads (exec step (new garbage) calls).1
        (exec BoundedQueue.step .new (calls.map RingCall.toQueueCall)).1 := by
  obtain ⟨hanswers,hholds⟩ := simulates_boundedQueue.run calls _ _ (holds_new garbage) h
  exact ⟨hanswers,hholds.reads⟩

/-- Addresses that go through the ring one by one. -/
def pushAdvance (addr : BitVec 64) : Nat → List RingCall
  | 0 => []
  | n + 1 => .push addr :: .advance 1 :: pushAdvance addr n

theorem push_of_empty (r : FallbackRing c) (addr : BitVec 64) (h : r.head = r.tail) :
    (r.push addr).1.head = r.head + 1 ∧ (r.push addr).1.tail = r.tail := by
  have hsize : r.size.toNat = 0 := r.empty_iff.mp (beq_iff_eq.mpr h)
  have hpos := c.pos
  have hfull : ¬ r.full = true := by
    intro hfull
    have hle : c.value.toNat ≤ r.size.toNat := decide_eq_true_iff.mp hfull
    omega
  rw [push,if_neg hfull]
  exact ⟨rfl,rfl⟩

/-- Runs of any length are allowed, and the counters wrap around in them. -/
theorem pushAdvance_meets (addr : BitVec 64) (n : Nat) (r : FallbackRing c)
    (h : r.head = r.tail) :
    Meets Allows step r (pushAdvance addr n) ∧
      (exec step r (pushAdvance addr n)).1.head = r.head + BitVec.ofNat 32 n := by
  induction n generalizing r with
  | zero => exact ⟨trivial,(BitVec.add_zero r.head).symm⟩
  | succ n ih =>
    obtain ⟨hhead,htail⟩ := r.push_of_empty addr h
    have hone : (r.push addr).1.size = 1 := by
      rw [size,hhead,htail,← h,BitVec.add_comm,BitVec.add_sub_cancel]
      rfl
    have hnext : ((r.push addr).1.advance 1).head = ((r.push addr).1.advance 1).tail := by
      change (r.push addr).1.head = ((r.push addr).1.tail.setWidth 64 + 1).setWidth 32
      rw [hhead,htail,← h,BitVec.setWidth_add _ _ (by decide),
        BitVec.setWidth_setWidth_of_le _ (by decide),BitVec.setWidth_eq]
      rfl
    obtain ⟨hmeets,hlast⟩ := ih ((r.push addr).1.advance 1) hnext
    refine ⟨⟨trivial,?_,hmeets⟩,hlast.trans ?_⟩
    · change 1 ≤ (r.push addr).1.size
      rw [hone]
      exact BitVec.le_refl 1
    · change (r.push addr).1.head + BitVec.ofNat 32 n = r.head + BitVec.ofNat 32 (n + 1)
      rw [hhead,BitVec.add_assoc,BitVec.ofNat_add,BitVec.add_comm (BitVec.ofNat 32 n)]
      rfl

def twoCells : RingCapacity := .ofExponent 1 (by decide)

def fiveCalls : List RingCall := [.push 10,.push 20,.push 30,.advance 1,.push 40]

theorem run_refines_boundedQueue_twoCells :
    (Meets Allows step (new fun _ => 0 : FallbackRing twoCells) fiveCalls ∧
      (exec step (new fun _ => 0 : FallbackRing twoCells) fiveCalls).2 =
        [some true,some true,some false,none,some true] ∧
      Reads (exec step (new fun _ => 0 : FallbackRing twoCells) fiveCalls).1
        ⟨[20,40],by decide⟩) ∧
    (exec step (new fun _ => 0 : FallbackRing twoCells) (pushAdvance 7 (2 ^ 32 + 1))).1.head = 1 ∧
      Reads (exec step (new fun _ => 0 : FallbackRing twoCells) (pushAdvance 7 (2 ^ 32 + 1))).1
        (exec BoundedQueue.step .new
          ((pushAdvance 7 (2 ^ 32 + 1)).map RingCall.toQueueCall)).1 := by
  have hmeets : Meets Allows step (new fun _ => 0 : FallbackRing twoCells) fiveCalls := by decide
  obtain ⟨hlong,hhead⟩ := pushAdvance_meets 7 (2 ^ 32 + 1)
    (new fun _ => 0 : FallbackRing twoCells) rfl
  exact ⟨⟨hmeets,run_refines_boundedQueue twoCells (fun _ => 0) fiveCalls hmeets⟩,
    hhead.trans (by decide),(run_refines_boundedQueue twoCells (fun _ => 0) _ hlong).2⟩

example :
    let ring : FallbackRing twoCells := ⟨fun _ => 0,BitVec.allOnes 32,BitVec.allOnes 32⟩
    let last := (exec step ring [.push 10,.push 20]).1
    last.head = 1 ∧ last.size = 2 ∧ last.full = true ∧ last.get 0 = 10 ∧ last.get 1 = 20 := by
  decide

/-- The oldest addresses. -/
def front (r : FallbackRing c) (count : Nat) : List (BitVec 64) :=
  (List.range count).map fun i => r.get (BitVec.ofNat 64 i)

/-- All addresses in the ring, the oldest first. -/
def contents (r : FallbackRing c) : List (BitVec 64) := r.front r.size.toNat

theorem Mirrors.front {r : FallbackRing c} {q : RingQueue (BitVec 64) c.bits} (h : Mirrors r q)
    {count : Nat} (hcount : count ≤ r.size.toNat) : r.front count = q.contents.take count := by
  rw [← q.map_get_range (h.size ▸ hcount)]
  apply List.map_congr_left
  intro i hi
  have hlt : i < 2 ^ 64 := (List.mem_range.mp hi).trans_le (hcount.trans r.size.isLt.le)
  rw [h.get,BitVec.toNat_ofNat,Nat.mod_eq_of_lt hlt]

theorem Mirrors.contents {r : FallbackRing c} {q : RingQueue (BitVec 64) c.bits}
    (h : Mirrors r q) : r.contents = q.contents := by
  rw [FallbackRing.contents,h.front le_rfl,h.size,← q.contents_length,List.take_length]

theorem front_append_contents (r : FallbackRing c) {count : BitVec 64} (h : count ≤ r.size) :
    r.front count.toNat ++ (r.advance count).contents = r.contents := by
  have hmirror := r.mirrors_mirror
  have hcount : count.toNat ≤ r.mirror.size := hmirror.size ▸ h
  rw [hmirror.front h,(hmirror.advance count).contents,
    r.mirror.contents_advance c.bits_lt hcount,hmirror.contents,List.take_append_drop]

theorem toNat_size_advance (r : FallbackRing c) {count : BitVec 64} (h : count ≤ r.size) :
    (r.advance count).size.toNat = r.size.toNat - count.toNat := by
  have hmirror := r.mirrors_mirror
  have hcount : count.toNat ≤ r.mirror.size := hmirror.size ▸ h
  rw [(hmirror.advance count).size,r.mirror.size_advance hcount,hmirror.size]

theorem permitted_push (r : FallbackRing c) (addr : BitVec 64) :
    Permitted Allows step r (r.push addr).1 :=
  Permitted.single (RingCall.push addr) trivial

theorem permitted_advance (r : FallbackRing c) {count : BitVec 64} (h : count ≤ r.size) :
    Permitted Allows step r (r.advance count) :=
  Permitted.single (RingCall.advance count) h

end FallbackRing

/-- The ring of a worker, what the worker has put into the fill ring, and how often it has asked
the fill ring for places. -/
structure FillSide (c : RingCapacity) where
  ring : FallbackRing c
  fill : List (BitVec 64)
  asked : Nat

namespace FillSide

variable {c : RingCapacity} (reserve : Nat → BitVec 64 → BitVec 64) (batchSize : BitVec 64)

/-- `recycle_slot` of `rx_worker`. -/
def recycleSlot (s : FillSide c) (addr : BitVec 64) : FillSide c :=
  if (s.ring.push addr).2 then { s with ring := (s.ring.push addr).1 }
  else if reserve s.asked 1 = 1 then { s with fill := s.fill ++ [addr],asked := s.asked + 1 }
  else { s with asked := s.asked + 1 }

/-- The smaller of the size and the batch size. -/
def count (s : FillSide c) : BitVec 64 :=
  if batchSize < s.ring.size then batchSize else s.ring.size

def available (s : FillSide c) : BitVec 64 := reserve s.asked (s.count batchSize)

/-- One round of the loop that refills the fill ring. -/
def refillRound (s : FillSide c) : Round (FillSide c) (FillSide c) :=
  if s.ring.empty then .leave s
  else if s.available reserve batchSize = 0 then .leave { s with asked := s.asked + 1 }
  else
    .next {
      ring := s.ring.advance (s.available reserve batchSize)
      fill := s.fill ++ s.ring.front (s.available reserve batchSize).toNat
      asked := s.asked + 1 }

/-- Runs of the worker, by the addresses that each round of its main loop recycles. -/
inductive Runs : FillSide c → List (List (BitVec 64)) → FillSide c → Prop
  | done (s : FillSide c) : Runs s [] s
  | round {s t u : FillSide c} {addrs : List (BitVec 64)} {rest : List (List (BitVec 64))}
      (refilled : Leaves (refillRound reserve batchSize) (addrs.foldl (recycleSlot reserve) s) t)
      (later : Runs t rest u) : Runs s (addrs :: rest) u

/-- The addresses on their way to the kernel, in their order. -/
def outgoing (s : FillSide c) : List (BitVec 64) := s.fill ++ s.ring.contents

/-- The ring has changed by calls that drop no more than there is. -/
def Follows (s t : FillSide c) : Prop :=
  Permitted FallbackRing.Allows FallbackRing.step s.ring t.ring

section Safety

variable {reserve batchSize} {s t : FillSide c}

theorem recycleSlot_follows (s : FillSide c) (addr : BitVec 64) :
    Follows s (s.recycleSlot reserve addr) := by
  rw [recycleSlot]
  split_ifs
  · exact s.ring.permitted_push addr
  · exact Permitted.refl s.ring
  · exact Permitted.refl s.ring

theorem recycle_follows (addrs : List (BitVec 64)) (s : FillSide c) :
    Follows s (addrs.foldl (recycleSlot reserve) s) := by
  induction addrs generalizing s with
  | nil => exact Permitted.refl s.ring
  | cons addr addrs ih => exact (recycleSlot_follows s addr).trans (ih _)

theorem count_le (s : FillSide c) : s.count batchSize ≤ s.ring.size := by
  rw [count]
  split_ifs with hlt
  · exact BitVec.le_of_lt hlt
  · exact BitVec.le_refl _

variable (hreserve : ∀ asked count, reserve asked count ≤ count)

include hreserve

theorem available_le (s : FillSide c) : s.available reserve batchSize ≤ s.ring.size :=
  BitVec.le_trans (hreserve _ _) s.count_le

theorem refillRound_next (h : s.refillRound reserve batchSize = .next t) :
    Follows s t ∧ t.outgoing = s.outgoing ∧ t.ring.size.toNat < s.ring.size.toNat := by
  have hle : s.available reserve batchSize ≤ s.ring.size := available_le hreserve s
  unfold refillRound at h
  split_ifs at h with hempty hzero
  cases h
  refine ⟨s.ring.permitted_advance hle,?_,?_⟩
  · rw [outgoing,outgoing,List.append_assoc,s.ring.front_append_contents hle]
  · have hpos : (s.available reserve batchSize).toNat ≠ 0 := by
      intro htoNat
      exact hzero (BitVec.eq_of_toNat_eq htoNat)
    have hleNat : (s.available reserve batchSize).toNat ≤ s.ring.size.toNat := hle
    rw [s.ring.toNat_size_advance hle]
    omega

omit hreserve in
theorem refillRound_leave (h : s.refillRound reserve batchSize = .leave t) :
    t.ring = s.ring ∧ t.fill = s.fill := by
  unfold refillRound at h
  split_ifs at h with hempty hzero
  · cases h
    exact ⟨rfl,rfl⟩
  · cases h
    exact ⟨rfl,rfl⟩

/-- The loop hands the oldest addresses over and keeps the order of all of them. -/
theorem refill_keeps (h : Leaves (refillRound reserve batchSize) s t) :
    Follows s t ∧ t.outgoing = s.outgoing := by
  induction h with
  | leave hleave =>
    obtain ⟨hring,hfill⟩ := refillRound_leave hleave
    rw [Follows,outgoing,outgoing,hring,hfill]
    exact ⟨Permitted.refl _,rfl⟩
  | next hnext _ ih =>
    obtain ⟨hfollows,hout,_⟩ := refillRound_next hreserve hnext
    exact ⟨hfollows.trans ih.1,ih.2.trans hout⟩

theorem refill_leaves (s : FillSide c) : ∃ t, Leaves (refillRound reserve batchSize) s t := by
  induction hsize : s.ring.size.toNat using Nat.strong_induction_on generalizing s with
  | h n ih =>
    cases hround : s.refillRound reserve batchSize with
    | leave t => exact ⟨t,.leave hround⟩
    | next t =>
      obtain ⟨_,_,hlt⟩ := refillRound_next hreserve hround
      obtain ⟨u,hu⟩ := ih t.ring.size.toNat (hsize ▸ hlt) t rfl
      exact ⟨u,.next hround hu⟩

theorem runs_follows {batches : List (List (BitVec 64))}
    (h : Runs reserve batchSize s batches t) : Follows s t := by
  induction h with
  | done s => exact Permitted.refl s.ring
  | round refilled _ ih =>
    exact ((recycle_follows _ _).trans (refill_keeps hreserve refilled).1).trans ih

theorem runs_exists (batches : List (List (BitVec 64))) (s : FillSide c) :
    ∃ t, Runs reserve batchSize s batches t := by
  induction batches generalizing s with
  | nil => exact ⟨s,.done s⟩
  | cons addrs rest ih =>
    obtain ⟨t,ht⟩ : ∃ t, Leaves (refillRound reserve batchSize)
        (addrs.foldl (recycleSlot reserve) s) t := refill_leaves hreserve _
    obtain ⟨u,hu⟩ := ih t
    exact ⟨u,.round ht hu⟩

end Safety

end FillSide

end Aethon.AfXdp
