import Aethon.Framework.Simulation
import Mathlib.Data.List.Range
import Mathlib.Data.Nat.ModEq
import Mathlib.Logic.Function.Basic

/-!
# Ring buffers with free-running counters

A queue in an array whose size is a power of two. The two counters are machine words that are
never reduced to an index; their difference is the number of elements, and the low bits of a
counter are the index it stands for. The ring simulates a queue with a bound, for runs of any
length: that the counters wrap around is not seen.
-/

namespace Aethon.Framework

/-- What the client of a queue calls. -/
inductive QueueCall (α : Type) where
  | push (a : α)
  | advance (count : Nat)

/-- A queue of at most `N` elements, the oldest first. -/
structure BoundedQueue (α : Type) (N : Nat) where
  items : List α
  length_le : items.length ≤ N

namespace BoundedQueue

variable {α : Type} {N : Nat}

theorem snoc_length_le {items : List α} (h : items.length < N) (a : α) :
    (items ++ [a]).length ≤ N := by
  rw [List.length_append,List.length_singleton]
  exact h

theorem drop_length_le {items : List α} (h : items.length ≤ N) (count : Nat) :
    (items.drop count).length ≤ N := by
  rw [List.length_drop]
  exact (Nat.sub_le _ _).trans h

def new : BoundedQueue α N := ⟨[],Nat.zero_le N⟩

/-- Append an element if there is room; the answer says whether there was. -/
def push (q : BoundedQueue α N) (a : α) : BoundedQueue α N × Bool :=
  if h : q.items.length < N then (⟨q.items ++ [a],snoc_length_le h a⟩,true) else (q,false)

/-- Drop the oldest elements. -/
def advance (q : BoundedQueue α N) (count : Nat) : BoundedQueue α N :=
  ⟨q.items.drop count,drop_length_le q.length_le count⟩

def step (q : BoundedQueue α N) : QueueCall α → BoundedQueue α N × Option Bool
  | .push a => ((q.push a).1,some (q.push a).2)
  | .advance count => (q.advance count,none)

/-- No more elements are dropped than there are. -/
def Allows (q : BoundedQueue α N) : QueueCall α → Prop
  | .push _ => True
  | .advance count => count ≤ q.items.length

theorem push_of_lt (q : BoundedQueue α N) (a : α) (h : q.items.length < N) :
    (q.push a).2 = true ∧ (q.push a).1.items = q.items ++ [a] := by
  rw [push,dif_pos h]
  exact ⟨rfl,rfl⟩

theorem push_of_ge (q : BoundedQueue α N) (a : α) (h : N ≤ q.items.length) :
    q.push a = (q,false) := by
  rw [push,dif_neg (by omega)]

end BoundedQueue

/-- A ring of `2 ^ bits` cells with 32-bit counters. -/
structure RingQueue (α : Type) (bits : Nat) where
  ring : Nat → α
  head : BitVec 32
  tail : BitVec 32

namespace RingQueue

variable {α : Type} {bits : Nat}

def new (garbage : α) : RingQueue α bits := ⟨fun _ => garbage,0,0⟩

/-- The low bits of a counter. -/
def slot (bits counter : Nat) : Nat := counter &&& (2 ^ bits - 1)

def empty (q : RingQueue α bits) : Bool := q.head = q.tail

def size (q : RingQueue α bits) : Nat := (q.head - q.tail).toNat

def full (q : RingQueue α bits) : Bool := q.size ≥ 2 ^ bits

/-- Append an element; `none` if there is no room for it. -/
def push (q : RingQueue α bits) (a : α) : Option (RingQueue α bits) :=
  if q.full then none
  else some { q with
    ring := Function.update q.ring (slot bits q.head.toNat) a
    head := q.head + 1 }

/-- The element `offset` places behind the front. -/
def get (q : RingQueue α bits) (offset : Nat) : α := q.ring (slot bits (q.tail.toNat + offset))

/-- Drop elements at the front. -/
def advance (q : RingQueue α bits) (count : Nat) : RingQueue α bits :=
  { q with tail := q.tail + BitVec.ofNat 32 count }

/-- The queue that the ring stands for. -/
def contents (q : RingQueue α bits) : List α := (List.range q.size).map q.get

@[simp] theorem contents_length (q : RingQueue α bits) : q.contents.length = q.size := by
  simp [contents]

theorem contents_eq_nil {q : RingQueue α bits} (h : q.head = q.tail) : q.contents = [] := by
  rw [contents,size,h,BitVec.sub_self]
  rfl

theorem contents_new (garbage : α) : (new garbage : RingQueue α bits).contents = [] :=
  contents_eq_nil rfl

theorem contents_getElem? (q : RingQueue α bits) {i : Nat} (h : i < q.size) :
    q.contents[i]? = some (q.get i) := by
  rw [contents,List.getElem?_map,List.getElem?_range h,Option.map_some]

/-- Reading the first places gives the oldest elements. -/
theorem map_get_range (q : RingQueue α bits) {count : Nat} (h : count ≤ q.size) :
    (List.range count).map q.get = q.contents.take count := by
  rw [contents,← List.map_take,List.take_range,Nat.min_eq_left h]

theorem slot_eq (bits counter : Nat) : slot bits counter = counter % 2 ^ bits :=
  Nat.and_two_pow_sub_one_eq_mod counter bits

/-- The head counter stands `size` places behind the tail counter. -/
theorem head_slot (q : RingQueue α bits) (hbits : bits < 32) :
    slot bits q.head.toNat = slot bits (q.tail.toNat + q.size) := by
  have hdvd : 2 ^ bits ∣ 2 ^ 32 := Nat.pow_dvd_pow 2 hbits.le
  have hhead : q.head.toNat = (q.tail.toNat + q.size) % 2 ^ 32 := by
    rw [size,← BitVec.toNat_add,BitVec.add_comm,BitVec.sub_add_cancel]
  rw [slot_eq,slot_eq,hhead,Nat.mod_mod_of_dvd _ hdvd]

theorem slot_ne (q : RingQueue α bits) {i j : Nat} (hij : i < j) (hj : j < 2 ^ bits) :
    slot bits (q.tail.toNat + i) ≠ slot bits (q.tail.toNat + j) := by
  rw [slot_eq,slot_eq]
  intro h
  have hmod : i % 2 ^ bits = j % 2 ^ bits := Nat.ModEq.add_left_cancel' q.tail.toNat h
  rw [Nat.mod_eq_of_lt (hij.trans hj),Nat.mod_eq_of_lt hj] at hmod
  omega

theorem size_lt_of_push {q q' : RingQueue α bits} {a : α} (h : q.push a = some q') :
    q.size < 2 ^ bits := by
  unfold push at h
  split_ifs at h with hfull
  simpa [full] using hfull

theorem contents_push {q q' : RingQueue α bits} {a : α} (hbits : bits < 32)
    (h : q.push a = some q') : q'.contents = q.contents ++ [a] := by
  have hroom := size_lt_of_push h
  unfold push at h
  split_ifs at h with hfull
  cases h
  have hpow : 2 ^ bits < 2 ^ 32 := Nat.pow_lt_pow_right (by decide) hbits
  have hsize : (q.head + 1 - q.tail).toNat = q.size + 1 := by
    have hshift : q.head + 1 - q.tail = q.head - q.tail + 1 := by
      rw [BitVec.sub_eq_add_neg,BitVec.sub_eq_add_neg,BitVec.add_assoc,BitVec.add_assoc,
        BitVec.add_comm 1]
    rw [hshift,BitVec.toNat_add]
    change (q.size + 1) % 2 ^ 32 = q.size + 1
    exact Nat.mod_eq_of_lt (by omega)
  rw [contents,size,hsize,List.range_succ,List.map_append,List.map_singleton,contents]
  congr 1
  · apply List.map_congr_left
    intro i hi
    have hne := q.slot_ne (List.mem_range.mp hi) hroom
    rw [← q.head_slot hbits] at hne
    exact Function.update_of_ne hne _ _
  · have hlast := q.head_slot hbits
    change [Function.update q.ring (slot bits q.head.toNat) a (slot bits (q.tail.toNat + q.size))] = [a]
    rw [← hlast,Function.update_self]

theorem push_eq_none {q : RingQueue α bits} {a : α} (h : q.push a = none) :
    2 ^ bits ≤ q.size := by
  unfold push at h
  split_ifs at h with hfull
  simpa [full] using hfull

theorem size_advance (q : RingQueue α bits) {count : Nat} (h : count ≤ q.size) :
    (q.advance count).size = q.size - count := by
  have hlt : count < 2 ^ 32 := h.trans_lt (q.head - q.tail).isLt
  have hshift : q.head - (q.tail + BitVec.ofNat 32 count) =
      q.head - q.tail - BitVec.ofNat 32 count := by
    rw [BitVec.sub_eq_add_neg,BitVec.neg_add,BitVec.sub_eq_add_neg,← BitVec.add_assoc,
      ← BitVec.sub_eq_add_neg,← BitVec.sub_eq_add_neg]
  have hle : BitVec.ofNat 32 count ≤ q.head - q.tail := by
    rw [BitVec.le_def,BitVec.toNat_ofNat,Nat.mod_eq_of_lt hlt]
    exact h
  rw [size,advance,hshift,BitVec.toNat_sub_of_le hle,BitVec.toNat_ofNat,Nat.mod_eq_of_lt hlt,size]

theorem contents_advance (q : RingQueue α bits) (hbits : bits < 32) {count : Nat}
    (h : count ≤ q.size) : (q.advance count).contents = q.contents.drop count := by
  have hlt : count < 2 ^ 32 := h.trans_lt (q.head - q.tail).isLt
  have hdvd : 2 ^ bits ∣ 2 ^ 32 := Nat.pow_dvd_pow 2 hbits.le
  apply List.ext_getElem?
  intro i
  rw [List.getElem?_drop,contents,contents,q.size_advance h,List.getElem?_map,List.getElem?_map]
  by_cases hi : i < q.size - count
  · rw [List.getElem?_range hi,List.getElem?_range (by omega),Option.map_some,Option.map_some]
    have hslot : slot bits ((q.tail + BitVec.ofNat 32 count).toNat + i) =
        slot bits (q.tail.toNat + (count + i)) := by
      rw [slot_eq,slot_eq,BitVec.toNat_add,BitVec.toNat_ofNat,Nat.mod_eq_of_lt hlt,Nat.add_mod,
        Nat.mod_mod_of_dvd _ hdvd,← Nat.add_mod,Nat.add_assoc]
    exact congrArg (fun idx => some (q.ring idx)) hslot
  · rw [List.getElem?_eq_none (by simpa using hi),List.getElem?_eq_none (by simp; omega)]
    rfl

def step (q : RingQueue α bits) : QueueCall α → RingQueue α bits × Option Bool
  | .push a => ((q.push a).getD q,some (q.push a).isSome)
  | .advance count => (q.advance count,none)

/-- No more elements are dropped than there are. -/
def Allows (q : RingQueue α bits) : QueueCall α → Prop
  | .push _ => True
  | .advance count => count ≤ q.size

section Simulation

variable {N : Nat} {q : RingQueue α bits} {b : BoundedQueue α N}

theorem push_simulates (hbits : bits < 32) (hN : N = 2 ^ bits) (a : α)
    (hR : q.contents = b.items) :
    (q.push a).isSome = (b.push a).2 ∧ ((q.push a).getD q).contents = (b.push a).1.items := by
  have hlength : b.items.length = q.size := by rw [← hR,contents_length]
  cases hpush : q.push a with
  | none =>
    have hfull : N ≤ b.items.length := by
      rw [hlength,hN]
      exact push_eq_none hpush
    rw [b.push_of_ge a hfull]
    exact ⟨rfl,hR⟩
  | some q' =>
    have hcontents := contents_push hbits hpush
    have hroom : b.items.length < N := by
      rw [hlength,hN]
      exact size_lt_of_push hpush
    obtain ⟨hanswer,hitems⟩ := b.push_of_lt a hroom
    rw [hanswer,hitems,← hR]
    exact ⟨rfl,hcontents⟩

/-- The ring simulates the bounded queue of its contents. -/
theorem simulates (hbits : bits < 32) (hN : N = 2 ^ bits) :
    Simulates step BoundedQueue.step id Allows BoundedQueue.Allows
      fun (q : RingQueue α bits) (b : BoundedQueue α N) => q.contents = b.items where
  allowed := by
    intro q b call hR hallows
    cases call with
    | push a => trivial
    | advance count =>
      change count ≤ b.items.length
      rw [← hR,contents_length]
      exact hallows
  answer := by
    intro q b call hR _
    cases call with
    | push a => exact congrArg some (push_simulates hbits hN a hR).1
    | advance count => rfl
  keeps := by
    intro q b call hR hallows
    cases call with
    | push a => exact (push_simulates hbits hN a hR).2
    | advance count =>
      change (q.advance count).contents = b.items.drop count
      rw [q.contents_advance hbits hallows,hR]

end Simulation

end RingQueue

end Aethon.Framework
