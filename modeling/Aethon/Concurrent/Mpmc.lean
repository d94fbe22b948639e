import Aethon.Container.SingleThreadHashMap
import Aethon.Framework.Run
import Aethon.Framework.SlotWindow

/-!
# The multi-producer multi-consumer queue

`MpmcQueue` as the atomic steps of `n` writers and `m` readers: take a ticket, observe the turn of
its slot, transfer the element, publish the next turn. A ticket is kept as its number in the order
of the draws; the 64-bit counter and the locals computed from it hold that number modulo `2 ^ 64`.
The blocking and the spinning calls take the same steps: a thread whose turn it is not goes back to
its load, and how long it pauses or sleeps in `futex_wait` before that is up to the schedule.
-/

namespace Aethon.Concurrent

open Framework

/-- Where a thread stands in `write` or `blockingWrite`. -/
inductive Writer (T : Type) where
  | idle
  | waiting (value : T) (ticket : Nat)
  | admitted (value : T) (ticket : Nat)
  | filled (value : T) (ticket : Nat)

/-- Where a thread stands in `read` or `blockingRead`. -/
inductive Reader (T : Type) where
  | idle
  | waiting (ticket : Nat)
  | admitted (ticket : Nat)
  | moved (result : T) (ticket : Nat)

/-- A queue and its threads. A slot has a turn and holds an element between its construction
and its destruction. -/
structure MpmcQueue (T : Type) (n m : Nat) where
  capacity : BitVec 64
  capacity_checked : 2 ≤ capacity.toNat ∧ capacity &&& (capacity - 1) = 0
  turn : Nat → BitVec 32
  contents : Nat → Option T
  pushTicket : Nat
  popTicket : Nat
  writers : Fin n → Writer T
  readers : Fin m → Reader T

/-- A thread takes a step; an idle writer starts to write `value`. -/
inductive MpmcAction (T : Type) (n m : Nat) where
  | write (thread : Fin n) (value : T)
  | read (thread : Fin m)

/-- What a step adds to the history: a ticket is drawn, or a call with its ticket ends. -/
inductive MpmcEvent (T : Type) where
  | internal
  | drewPush (ticket : Nat) (value : T)
  | pushed (ticket : Nat) (value : T)
  | drewPop (ticket : Nat)
  | popped (ticket : Nat) (result : T)

/-- `__builtin_ctz`: the position of the lowest bit that is set. -/
def builtinCtz (x : BitVec 32) : Nat := (List.range 32).findIdx fun i => x.getLsbD i

namespace MpmcQueue

variable {T : Type} {n m : Nat}

def new (capacity : BitVec 64) : Except String (MpmcQueue T n m) :=
  if h : 2 ≤ capacity.toNat ∧ capacity &&& (capacity - 1) = 0 then
    .ok ⟨capacity,h,fun _ => 0,fun _ => none,0,0,fun _ => .idle,fun _ => .idle⟩
  else .error "Capacity must be a power of 2!"

def mask (q : MpmcQueue T n m) : BitVec 64 := q.capacity - 1

def shift (q : MpmcQueue T n m) : Nat := builtinCtz (q.capacity.setWidth 32)

def idx (q : MpmcQueue T n m) (ticket : Nat) : Nat := (BitVec.ofNat 64 ticket &&& q.mask).toNat

/-- `expectedTurn` of a writer. -/
def writeTurn (q : MpmcQueue T n m) (ticket : Nat) : BitVec 32 :=
  (BitVec.ofNat 64 ticket >>> q.shift).setWidth 32 <<< 1

/-- `expectedTurn` of a reader. -/
def readTurn (q : MpmcQueue T n m) (ticket : Nat) : BitVec 32 :=
  (BitVec.ofNat 64 ticket >>> q.shift).setWidth 32 <<< 1 ||| 1

/-- The next atomic step of a writer. -/
def write (q : MpmcQueue T n m) (i : Fin n) (value : T) : MpmcQueue T n m × MpmcEvent T :=
  match q.writers i with
  | .idle =>
      ({ q with
          pushTicket := q.pushTicket + 1
          writers := Function.update q.writers i (.waiting value q.pushTicket) },
        .drewPush q.pushTicket value)
  | .waiting value ticket =>
      if q.turn (q.idx ticket) = q.writeTurn ticket then
        ({ q with writers := Function.update q.writers i (.admitted value ticket) },.internal)
      else (q,.internal)
  | .admitted value ticket =>
      ({ q with
          contents := Function.update q.contents (q.idx ticket) (some value)
          writers := Function.update q.writers i (.filled value ticket) },.internal)
  | .filled value ticket =>
      ({ q with
          turn := Function.update q.turn (q.idx ticket) (q.writeTurn ticket + 1)
          writers := Function.update q.writers i .idle },.pushed ticket value)

/-- The next atomic step of a reader; to move from a slot without an element is a fault. -/
def read (q : MpmcQueue T n m) (j : Fin m) : Checked (MpmcQueue T n m × MpmcEvent T) :=
  match q.readers j with
  | .idle =>
      .ok ({ q with
          popTicket := q.popTicket + 1
          readers := Function.update q.readers j (.waiting q.popTicket) },
        .drewPop q.popTicket)
  | .waiting ticket =>
      if q.turn (q.idx ticket) = q.readTurn ticket then
        .ok ({ q with readers := Function.update q.readers j (.admitted ticket) },.internal)
      else .ok (q,.internal)
  | .admitted ticket =>
      match q.contents (q.idx ticket) with
      | none => .error .danglingPointer
      | some result =>
          .ok ({ q with
            contents := Function.update q.contents (q.idx ticket) none
            readers := Function.update q.readers j (.moved result ticket) },.internal)
  | .moved result ticket =>
      .ok ({ q with
          turn := Function.update q.turn (q.idx ticket) (q.readTurn ticket + 1)
          readers := Function.update q.readers j .idle },.popped ticket result)

def step (q : MpmcQueue T n m) : MpmcAction T n m → Checked (MpmcQueue T n m × MpmcEvent T)
  | .write i value => .ok (q.write i value)
  | .read j => q.read j

end MpmcQueue

theorem builtinCtz_pow {x : BitVec 32} {k : Nat} (hk : k < 32) (hx : x.toNat = 2 ^ k) :
    builtinCtz x = k := by
  have hbit : ∀ i, x.getLsbD i = decide (k = i) := by
    intro i
    rw [BitVec.getLsbD,hx,Nat.testBit_two_pow]
  rw [builtinCtz,List.findIdx_eq (by simpa using hk)]
  constructor
  · simp [hbit]
  · intro i hi
    simp only [hbit,List.getElem_range,decide_eq_false_iff_not]
    omega

namespace MpmcQueue

variable {T : Type} {n m : Nat} {q : MpmcQueue T n m} {k : Nat} (hk : k ≤ 31)
  (hcap : q.capacity.toNat = 2 ^ k)
include hcap

theorem idx_eq (hk : k ≤ 31) (ticket : Nat) : q.idx ticket = ticket % q.capacity.toNat := by
  have hdvd : 2 ^ k ∣ 2 ^ 64 := Nat.pow_dvd_pow 2 (by omega)
  rw [idx,mask,toNat_and_pred _ hcap,BitVec.toNat_ofNat,hcap,Nat.mod_mod_of_dvd _ hdvd]

include hk

/-- The 32-bit visit number of a ticket; neither the width of the ticket nor that of the visit
number loses the bits that the turn is computed from. -/
theorem visit_toNat (ticket : Nat) :
    ((BitVec.ofNat 64 ticket >>> q.shift).setWidth 32).toNat =
      ticket / q.capacity.toNat % 2 ^ 32 := by
  have hlow : (q.capacity.setWidth 32).toNat = 2 ^ k := by
    rw [BitVec.toNat_setWidth,hcap]
    exact Nat.mod_eq_of_lt (Nat.pow_lt_pow_right (by decide) (by omega))
  have hsplit : 2 ^ 64 = 2 ^ k * 2 ^ (64 - k) := by
    rw [← Nat.pow_add]
    congr 1
    omega
  have hdvd : 2 ^ 32 ∣ 2 ^ (64 - k) := Nat.pow_dvd_pow 2 (by omega)
  rw [BitVec.toNat_setWidth,BitVec.toNat_ushiftRight,shift,builtinCtz_pow (by omega) hlow,
    BitVec.toNat_ofNat,Nat.shiftRight_eq_div_pow,hsplit,Nat.mod_mul_right_div_self,
    Nat.mod_mod_of_dvd _ hdvd,hcap]

theorem writeTurn_toNat (ticket : Nat) :
    (q.writeTurn ticket).toNat = 2 * (ticket / q.capacity.toNat) % 2 ^ 32 := by
  rw [writeTurn,BitVec.toNat_shiftLeft,visit_toNat hk hcap,Nat.shiftLeft_eq]
  omega

theorem readTurn_toNat (ticket : Nat) :
    (q.readTurn ticket).toNat = (2 * (ticket / q.capacity.toNat) + 1) % 2 ^ 32 := by
  have hone : (1 : BitVec 32).toNat = 1 := rfl
  have heven : (q.writeTurn ticket).toNat =
      (ticket / q.capacity.toNat % 2 ^ 31) <<< 1 := by
    rw [writeTurn_toNat hk hcap,Nat.shiftLeft_eq]
    omega
  rw [readTurn,BitVec.toNat_or,hone]
  change (q.writeTurn ticket).toNat ||| 1 = _
  rw [heven,← Nat.shiftLeft_add_eq_or_of_lt (by decide),Nat.shiftLeft_eq]
  omega

end MpmcQueue

end Aethon.Concurrent
