import Aethon.Framework.Probing
import Aethon.Framework.Run

/-!
# The single-thread hash map

Open addressing with linear probing and backward-shift deletion. The sentinel key, the
hasher and the power-of-two capacity belong to the table, so an update of cells or size
cannot change them. A failed `AETHON_SAFE_CHECK` aborts the process and is a fault here.
-/

namespace Aethon

open Framework

/-- Ways in which a modelled call does not return. -/
inductive Fault where
  | safeCheck (message : String)
  | outOfFuel
  | outOfBounds
  | danglingPointer
  deriving DecidableEq, Repr

/-- A computation of the program that may fault. -/
abbrev Checked := Except Fault

/-- `AETHON_SAFE_CHECK`. -/
def safeCheck (condition : Prop) [Decidable condition] (message : String) : Checked Unit :=
  if condition then .ok () else .error (.safeCheck message)

@[simp] theorem safeCheck_pos {condition : Prop} [Decidable condition] (h : condition)
    (message : String) : safeCheck condition message = .ok () := if_pos h

structure Cell (K V : Type) where
  key : K
  val : V

structure SingleThreadHashMap (K V : Type) where
  emptyKey : K
  hasher : K → Nat
  emptyVal : V
  cells : Nat → Cell K V
  capacity : Nat
  size : Nat
  capacity_pow : ∃ n, capacity = 2 ^ n

namespace SingleThreadHashMap

variable {K V : Type} [DecidableEq K]

/-- The constructor: every cell holds the sentinel key. -/
def new (emptyKey : K) (hasher : K → Nat) (emptyVal : V) (n : Nat) : SingleThreadHashMap K V where
  emptyKey := emptyKey
  hasher := hasher
  emptyVal := emptyVal
  cells := fun _ => ⟨emptyKey,emptyVal⟩
  capacity := 2 ^ n
  size := 0
  capacity_pow := ⟨n,rfl⟩

def mask (m : SingleThreadHashMap K V) : Nat := m.capacity - 1

/-- `hash_key(key) & mask_`, the first slot probed for a key. -/
def home (m : SingleThreadHashMap K V) (key : K) : Nat := m.hasher key &&& m.mask

def next (m : SingleThreadHashMap K V) (idx : Nat) : Nat := (idx + 1) &&& m.mask

/-- The probe loop shared by `find` and `erase`: the cell of the key, unless an empty cell
or the end of the budget comes first. -/
def locate (m : SingleThreadHashMap K V) (budget : Nat) (key : K) : Option Nat :=
  probe m.next (fun idx => (m.cells idx).key = key) (fun idx => (m.cells idx).key = m.emptyKey)
    budget (m.home key)

def emplace (m : SingleThreadHashMap K V) (key : K) (val : V) :
    Checked (Bool × SingleThreadHashMap K V) := do
  safeCheck (key ≠ m.emptyKey) "Cannot insert sentinel EmptyKey into SingleThreadHashMap!"
  match probe m.next (fun idx => (m.cells idx).key = m.emptyKey ∨ (m.cells idx).key = key)
      (fun _ => False) m.capacity (m.home key) with
  | none => return (false,m)
  | some idx =>
      if (m.cells idx).key = m.emptyKey then
        return (true,{ m with
          cells := Function.update m.cells idx ⟨key,val⟩
          size := m.size + 1 })
      else
        return (false,{ m with
          cells := Function.update m.cells idx ⟨(m.cells idx).key,val⟩ })

def maxSearch (m : SingleThreadHashMap K V) : Nat := min m.capacity 64

def find (m : SingleThreadHashMap K V) (key : K) : Checked (Option V) := do
  safeCheck (key ≠ m.emptyKey) "Cannot search for EmptyKey!"
  return (m.locate m.maxSearch key).map fun idx => (m.cells idx).val

/-- `can_shift`: the entry at `j` with home slot `k` may move back into the hole `i`. -/
def canShift (i j k : Nat) : Bool :=
  if i ≤ j then k ≤ i || k > j else k ≤ i && k > j

/-- The backward-shift loop of `erase`: the cells and the final hole. -/
def eraseShift (m : SingleThreadHashMap K V) : Nat → (Nat → Cell K V) → Nat → Nat →
    Checked ((Nat → Cell K V) × Nat)
  | 0, _, _, _ => .error .outOfFuel
  | fuel + 1, cells, i, j =>
      let j := m.next j
      if (cells j).key = m.emptyKey ∨ j = i then .ok (cells,i)
      else if canShift i j (m.home (cells j).key) then
        eraseShift m fuel (Function.update cells i (cells j)) j j
      else eraseShift m fuel cells i j

def erase (m : SingleThreadHashMap K V) (key : K) : Checked (Bool × SingleThreadHashMap K V) := do
  safeCheck (key ≠ m.emptyKey) "Cannot erase EmptyKey!"
  match m.locate m.capacity key with
  | none => return (false,m)
  | some i =>
      let (cells,hole) ← m.eraseShift (2 * m.capacity) m.cells i i
      return (true,{ m with
        cells := Function.update cells hole ⟨m.emptyKey,m.emptyVal⟩
        size := m.size - 1 })

end SingleThreadHashMap

end Aethon
