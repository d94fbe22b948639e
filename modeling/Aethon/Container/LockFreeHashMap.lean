import Aethon.Container.MapRefinement

/-!
# The lock-free hash map, used by one thread

Open addressing with linear probing and tombstones. An erased key leaves a tombstone in its cell
and an insertion takes the first cell that is empty or has a tombstone. With one thread the cell
still holds the key that was loaded from it, so every `compare_exchange_strong` succeeds.
-/

namespace Aethon

open Framework SingleThreadHashMap

structure LockFreeHashMap (K V : Type) where
  emptyKey : K
  tombstoneKey : K
  sentinels_ne : emptyKey ≠ tombstoneKey
  hasher : K → Nat
  cells : Nat → Cell K V
  capacity : Nat
  size : Nat
  capacity_pow : ∃ n, capacity = 2 ^ n

namespace LockFreeHashMap

variable {K V : Type} [DecidableEq K]

theorem pow_capacity (n : Nat) : ∃ k, 2 ^ n = 2 ^ k := ⟨n,rfl⟩

/-- The constructor: every cell holds `EmptyKey` and a default value. -/
def new (emptyKey tombstoneKey : K) (sentinels_ne : emptyKey ≠ tombstoneKey) (hasher : K → Nat)
    (emptyVal : V) (n : Nat) : LockFreeHashMap K V where
  emptyKey := emptyKey
  tombstoneKey := tombstoneKey
  sentinels_ne := sentinels_ne
  hasher := hasher
  cells := fun _ => ⟨emptyKey,emptyVal⟩
  capacity := 2 ^ n
  size := 0
  capacity_pow := pow_capacity n

def mask (m : LockFreeHashMap K V) : Nat := m.capacity - 1

/-- `hash_key(key) & mask_`, the first slot probed for a key. -/
def home (m : LockFreeHashMap K V) (key : K) : Nat := m.hasher key &&& m.mask

def next (m : LockFreeHashMap K V) (idx : Nat) : Nat := (idx + 1) &&& m.mask

/-- A key of a client, as opposed to a sentinel. -/
def Proper (m : LockFreeHashMap K V) (key : K) : Prop := key ≠ m.emptyKey ∧ key ≠ m.tombstoneKey

instance (m : LockFreeHashMap K V) (key : K) : Decidable (m.Proper key) :=
  inferInstanceAs (Decidable (_ ∧ _))

/-- The cell has no key of a client. -/
def Vacant (m : LockFreeHashMap K V) (idx : Nat) : Prop :=
  (m.cells idx).key = m.emptyKey ∨ (m.cells idx).key = m.tombstoneKey

instance (m : LockFreeHashMap K V) (idx : Nat) : Decidable (m.Vacant idx) :=
  inferInstanceAs (Decidable (_ ∨ _))

/-- The probe loop of `emplace`. -/
def claim (m : LockFreeHashMap K V) (key : K) : Option Nat :=
  probe m.next (fun idx => m.Vacant idx ∨ (m.cells idx).key = key) (fun _ => False)
    m.capacity (m.home key)

/-- The probe loop of `find`, `get` and `erase`. -/
def locate (m : LockFreeHashMap K V) (key : K) : Option Nat :=
  probe m.next (fun idx => (m.cells idx).key = key) (fun idx => (m.cells idx).key = m.emptyKey)
    m.capacity (m.home key)

def emplace (m : LockFreeHashMap K V) (key : K) (val : V) :
    Checked (Bool × LockFreeHashMap K V) := do
  safeCheck (m.Proper key) "Cannot insert sentinel key into LockFreeHashMap!"
  match m.claim key with
  | none => .error (.safeCheck "LockFreeHashMap is full!")
  | some idx =>
      if m.Vacant idx then
        return (true,{ m with
          cells := Function.update m.cells idx ⟨key,val⟩
          size := m.size + 1 })
      else
        return (false,{ m with
          cells := Function.update m.cells idx ⟨(m.cells idx).key,val⟩ })

def find (m : LockFreeHashMap K V) (key : K) : Checked (Option V) := do
  safeCheck (m.Proper key) "Cannot search for sentinel keys!"
  return (m.locate key).map fun idx => (m.cells idx).val

/-- The result and the value of `out_val` after the call. -/
def get (m : LockFreeHashMap K V) (key : K) (outVal : V) : Checked (Bool × V) := do
  safeCheck (m.Proper key) "Cannot search for sentinel keys!"
  match m.locate key with
  | none => return (false,outVal)
  | some idx => return (true,(m.cells idx).val)

def erase (m : LockFreeHashMap K V) (key : K) : Checked (Bool × LockFreeHashMap K V) := do
  safeCheck (m.Proper key) "Cannot erase sentinel keys!"
  match m.locate key with
  | none => return (false,m)
  | some idx =>
      return (true,{ m with
        cells := Function.update m.cells idx ⟨m.tombstoneKey,(m.cells idx).val⟩
        size := m.size - 1 })

def applyOp (m : LockFreeHashMap K V) : MapOp K V → Checked (LockFreeHashMap K V × Bool)
  | .emplace key val => do
      let (b,m') ← m.emplace key val
      return (m',b)
  | .erase key => do
      let (b,m') ← m.erase key
      return (m',b)

end LockFreeHashMap

end Aethon
