import Aethon.Framework.ByteBuffer

/-!
# Numbers as bytes

Numbers of any width in little-endian and in big-endian order.
-/

namespace Aethon.Framework

def leNat : List UInt8 → Nat
  | [] => 0
  | b :: bytes => b.toNat + 256 * leNat bytes

/-- The lowest `n` bytes of a number, least significant first. -/
def leBytes : Nat → Nat → List UInt8
  | 0, _ => []
  | n + 1, x => UInt8.ofNat (x % 256) :: leBytes n (x / 256)

def beNat (bytes : List UInt8) : Nat := leNat bytes.reverse

/-- The lowest `n` bytes of a number, most significant first. -/
def beBytes (n x : Nat) : List UInt8 := (leBytes n x).reverse

@[simp] theorem leBytes_length (n x : Nat) : (leBytes n x).length = n := by
  induction n generalizing x with
  | zero => rfl
  | succ n ih => simp [leBytes,ih]

@[simp] theorem beBytes_length (n x : Nat) : (beBytes n x).length = n := by simp [beBytes]

theorem leNat_lt (bytes : List UInt8) : leNat bytes < 256 ^ bytes.length := by
  induction bytes with
  | nil => exact Nat.one_pos
  | cons b bytes ih =>
    have hb := b.toNat_lt
    rw [leNat,List.length_cons,pow_succ]
    omega

theorem leNat_leBytes (n x : Nat) : leNat (leBytes n x) = x % 256 ^ n := by
  induction n generalizing x with
  | zero => simp [leBytes,leNat,Nat.mod_one]
  | succ n ih =>
    have hbyte : (UInt8.ofNat (x % 256)).toNat = x % 256 :=
      UInt8.toNat_ofNat_of_lt (Nat.mod_lt x (by decide))
    rw [leBytes,leNat,ih,hbyte,pow_succ,Nat.mul_comm (256 ^ n) 256,Nat.mod_mul]

theorem beNat_lt (bytes : List UInt8) : beNat bytes < 256 ^ bytes.length := by
  have h := leNat_lt bytes.reverse
  rwa [List.length_reverse] at h

theorem beNat_beBytes (n x : Nat) : beNat (beBytes n x) = x % 256 ^ n := by
  rw [beNat,beBytes,List.reverse_reverse,leNat_leBytes]

end Aethon.Framework
