import Mathlib.Tactic

/-!
# Byte buffers

A buffer is a function from indices to bytes. Copies into it and reads out of it are the
two directions of `memcpy`.
-/

namespace Aethon.Framework

/-- Copy `n` bytes of `data` from index `src` to buffer index `dst`. -/
def copyBytes (buffer : Nat → UInt8) (dst : Nat) (data : List UInt8) (src n : Nat) : Nat → UInt8 :=
  fun p => if dst ≤ p ∧ p < dst + n then data.getD (src + (p - dst)) 0 else buffer p

/-- The `n` bytes of the buffer from index `start`. -/
def readBytes (buffer : Nat → UInt8) (start n : Nat) : List UInt8 :=
  (List.range n).map fun i => buffer (start + i)

@[simp] theorem readBytes_length (buffer : Nat → UInt8) (start n : Nat) :
    (readBytes buffer start n).length = n := by simp [readBytes]

theorem getElem?_readBytes (buffer : Nat → UInt8) (start n i : Nat) :
    (readBytes buffer start n)[i]? = if i < n then some (buffer (start + i)) else none := by
  simp only [readBytes,List.getElem?_map]
  split_ifs with h <;> simp [h]

/-- A list is what a function yields on `0, …, n-1`, index by index. -/
theorem map_range_eq {α : Type} (f : Nat → α) (n : Nat) (l : List α) (hlen : l.length = n)
    (h : ∀ i < n, l[i]? = some (f i)) : (List.range n).map f = l := by
  apply List.ext_getElem?
  intro i
  by_cases hi : i < n
  · rw [h i hi]
    simp [hi]
  · rw [List.getElem?_eq_none (by simpa using hi),List.getElem?_eq_none (by omega)]

theorem readBytes_congr {buffer buffer' : Nat → UInt8} {start n : Nat}
    (h : ∀ i, start ≤ i → i < start + n → buffer i = buffer' i) :
    readBytes buffer start n = readBytes buffer' start n := by
  apply List.map_congr_left
  intro i hi
  have hlt := List.mem_range.mp hi
  exact h (start + i) (by omega) (by omega)

theorem readBytes_add (buffer : Nat → UInt8) (start m n : Nat) :
    readBytes buffer start (m + n) = readBytes buffer start m ++ readBytes buffer (start + m) n := by
  simp only [readBytes,List.range_add,List.map_append,List.map_map]
  congr 2
  funext i
  simp [Nat.add_assoc]

/-- A read within a read. -/
theorem drop_take_readBytes (buffer : Nat → UInt8) (start n i k : Nat) (h : i + k ≤ n) :
    ((readBytes buffer start n).drop i).take k = readBytes buffer (start + i) k := by
  have hsplit : readBytes buffer start n = readBytes buffer start i ++
      (readBytes buffer (start + i) k ++ readBytes buffer (start + i + k) (n - (i + k))) := by
    rw [← readBytes_add,← readBytes_add]
    congr 1
    omega
  rw [hsplit,List.drop_left' (readBytes_length ..),List.take_left' (readBytes_length ..)]

/-- Write `data` into the buffer from index `dst` on. -/
def storeBytes (buffer : Nat → UInt8) (dst : Nat) (data : List UInt8) : Nat → UInt8 :=
  copyBytes buffer dst data 0 data.length

section Store

variable (buffer : Nat → UInt8) {dst start n : Nat} (data : List UInt8)

/-- A read that a write does not touch. -/
theorem readBytes_store_other (h : start + n ≤ dst ∨ dst + data.length ≤ start) :
    readBytes (storeBytes buffer dst data) start n = readBytes buffer start n := by
  apply readBytes_congr
  intro i hi hi'
  exact if_neg (by omega)

/-- A read within what was written. -/
theorem readBytes_store_within (h : dst ≤ start) (h' : start + n ≤ dst + data.length) :
    readBytes (storeBytes buffer dst data) start n = (data.drop (start - dst)).take n := by
  apply map_range_eq
  · rw [List.length_take,List.length_drop]
    omega
  · intro i hi
    have hstored : storeBytes buffer dst data (start + i) = data.getD (start + i - dst) 0 := by
      rw [storeBytes,copyBytes,if_pos (by omega),Nat.zero_add]
    have hlt : start - dst + i < data.length := by omega
    rw [hstored,List.getElem?_take_of_lt hi,List.getElem?_drop,
      show start + i - dst = start - dst + i by omega,List.getD_eq_getElem?_getD,
      List.getElem?_eq_getElem hlt,Option.getD_some]

theorem readBytes_store_self :
    readBytes (storeBytes buffer dst data) dst data.length = data := by
  rw [readBytes_store_within buffer data le_rfl le_rfl,Nat.sub_self,List.drop_zero,List.take_length]

theorem readBytes_stored {data : List UInt8} (h : data.length = n) :
    readBytes (storeBytes buffer dst data) dst n = data := by
  rw [← h]
  exact readBytes_store_self buffer data

/-- A read around what was written. -/
theorem readBytes_store_around (h : start ≤ dst) (h' : dst + data.length ≤ start + n) :
    readBytes (storeBytes buffer dst data) start n =
      (readBytes buffer start n).take (dst - start) ++
        (data ++ (readBytes buffer start n).drop (dst - start + data.length)) := by
  obtain ⟨a,rfl⟩ := Nat.exists_eq_add_of_le h
  obtain ⟨b,hb⟩ := Nat.exists_eq_add_of_le h'
  have hn : n = a + (data.length + b) := by omega
  subst hn
  have hsplit : readBytes buffer start (a + (data.length + b)) = readBytes buffer start a ++
      (readBytes buffer (start + a) data.length ++ readBytes buffer (start + a + data.length) b) := by
    rw [readBytes_add,readBytes_add]
  have hdrop : (readBytes buffer start (a + (data.length + b))).drop (a + data.length) =
      readBytes buffer (start + a + data.length) b := by
    rw [hsplit,← List.append_assoc]
    exact List.drop_left' (by simp)
  rw [readBytes_add,readBytes_add,readBytes_store_other _ _ (Or.inl le_rfl),readBytes_store_self,
    readBytes_store_other _ _ (Or.inr le_rfl),Nat.add_sub_cancel_left,hdrop,hsplit,
    List.take_left' (readBytes_length ..)]

end Store

/-- The bytes of a list as a buffer. -/
def bufferOf (bytes : List UInt8) : Nat → UInt8 := fun i => bytes.getD i 0

theorem readBytes_bufferOf_drop (bytes : List UInt8) {start n : Nat} (h : start + n ≤ bytes.length) :
    readBytes (bufferOf bytes) start n = (bytes.drop start).take n := by
  apply map_range_eq
  · rw [List.length_take,List.length_drop]
    omega
  · intro i hi
    rw [List.getElem?_take_of_lt hi,List.getElem?_drop,bufferOf,List.getD_eq_getElem?_getD,
      List.getElem?_eq_getElem (by omega),Option.getD_some]

/-- The buffers hold the same first `len` bytes. -/
def AgreeTo (len : Nat) (buffer buffer' : Nat → UInt8) : Prop := ∀ i < len, buffer i = buffer' i

section Agree

variable {len start n : Nat} {buffer buffer' : Nat → UInt8}

theorem AgreeTo.symm (h : AgreeTo len buffer buffer') : AgreeTo len buffer' buffer :=
  fun i hi => (h i hi).symm

theorem AgreeTo.read (h : AgreeTo len buffer buffer') (hend : start + n ≤ len) :
    readBytes buffer start n = readBytes buffer' start n :=
  readBytes_congr fun i _ hi => h i (by omega)

theorem AgreeTo.store (h : AgreeTo len buffer buffer') (dst : Nat) (data : List UInt8) :
    AgreeTo len (storeBytes buffer dst data) (storeBytes buffer' dst data) := by
  intro i hi
  simp only [storeBytes,copyBytes,h i hi]

/-- A buffer agrees with the list of its first bytes. -/
theorem agreeTo_bufferOf (buffer : Nat → UInt8) (len : Nat) :
    AgreeTo len buffer (bufferOf (readBytes buffer 0 len)) := by
  intro i hi
  rw [bufferOf,List.getD_eq_getElem?_getD,getElem?_readBytes,if_pos hi,Nat.zero_add]
  rfl

end Agree

end Aethon.Framework
