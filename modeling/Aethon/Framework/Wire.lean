import Mathlib.Tactic

/-!
# Wire formats

Big-endian fields, vectors behind their length, and what stands at a position of a byte string.
-/

namespace Aethon.Framework

/-- A 16-bit field. -/
def u16Be (n : Nat) : List UInt8 := [UInt8.ofNat (n / 256),UInt8.ofNat (n % 256)]

/-- A 24-bit field. -/
def u24Be (n : Nat) : List UInt8 :=
  [UInt8.ofNat (n / 65536),UInt8.ofNat (n / 256 % 256),UInt8.ofNat (n % 256)]

/-- A vector behind its length in one byte. -/
def vec8 (bytes : List UInt8) : List UInt8 := UInt8.ofNat bytes.length :: bytes

/-- A vector behind its length in two bytes. -/
def vec16 (bytes : List UInt8) : List UInt8 := u16Be bytes.length ++ bytes

@[simp] theorem u16Be_length (n : Nat) : (u16Be n).length = 2 := rfl

@[simp] theorem u24Be_length (n : Nat) : (u24Be n).length = 3 := rfl

@[simp] theorem vec8_length (bytes : List UInt8) : (vec8 bytes).length = 1 + bytes.length := by
  simp [vec8,Nat.add_comm]

@[simp] theorem vec16_length (bytes : List UInt8) : (vec16 bytes).length = 2 + bytes.length := by
  simp [vec16]

/-- The value of two bytes. -/
def beValue (hi lo : UInt8) : Nat := hi.toNat * 256 + lo.toNat

theorem beValue_lt (hi lo : UInt8) : beValue hi lo < 65536 := by
  have := hi.toNat_lt
  have := lo.toNat_lt
  unfold beValue
  omega

theorem u16Be_beValue (hi lo : UInt8) : u16Be (beValue hi lo) = [hi,lo] := by
  have h := lo.toNat_lt
  have hdiv : beValue hi lo / 256 = hi.toNat := by unfold beValue; omega
  have hmod : beValue hi lo % 256 = lo.toNat := by unfold beValue; omega
  rw [u16Be,hdiv,hmod,UInt8.ofNat_toNat,UInt8.ofNat_toNat]

theorem beValue_u16Be {n : Nat} (h : n < 65536) :
    beValue (UInt8.ofNat (n / 256)) (UInt8.ofNat (n % 256)) = n := by
  have hhi : (UInt8.ofNat (n / 256)).toNat = n / 256 := UInt8.toNat_ofNat_of_lt (by
    change n / 256 < 256
    omega)
  have hlo : (UInt8.ofNat (n % 256)).toNat = n % 256 := UInt8.toNat_ofNat_of_lt (by
    change n % 256 < 256
    omega)
  rw [beValue,hhi,hlo]
  omega

theorem u16Be_inj {m n : Nat} (hm : m < 65536) (hn : n < 65536) (h : u16Be m = u16Be n) : m = n := by
  simp only [u16Be,List.cons.injEq,and_true] at h
  rw [← beValue_u16Be hm,← beValue_u16Be hn,h.1,h.2]

/-- The bytes `s` stand at position `pos`. -/
def StandsAt (bytes : List UInt8) (pos : Nat) (s : List UInt8) : Prop := s <+: bytes.drop pos

section StandsAt

variable {bytes : List UInt8} {pos : Nat} {s t : List UInt8}

theorem StandsAt.nil (bytes : List UInt8) (pos : Nat) : StandsAt bytes pos [] := List.nil_prefix

theorem standsAt_append :
    StandsAt bytes pos (s ++ t) ↔ StandsAt bytes pos s ∧ StandsAt bytes (pos + s.length) t := by
  unfold StandsAt
  rw [← List.drop_drop]
  constructor
  · rintro ⟨rest,hrest⟩
    rw [← hrest,List.append_assoc]
    exact ⟨List.prefix_append _ _,by rw [List.drop_left]; exact List.prefix_append _ _⟩
  · rintro ⟨⟨rest,hrest⟩,ht⟩
    rw [← hrest,List.drop_left] at ht
    rw [← hrest]
    exact (List.prefix_append_right_inj s).mpr ht

theorem StandsAt.append (hs : StandsAt bytes pos s) (ht : StandsAt bytes (pos + s.length) t) :
    StandsAt bytes pos (s ++ t) := standsAt_append.mpr ⟨hs,ht⟩

theorem StandsAt.end_le (h : StandsAt bytes pos s) (hne : s ≠ []) :
    pos + s.length ≤ bytes.length := by
  have hlen := h.length_le
  have hpos := List.length_pos_iff.mpr hne
  rw [List.length_drop] at hlen
  omega

/-- What stands at a position is determined by its length. -/
theorem StandsAt.unique (hs : StandsAt bytes pos s) (ht : StandsAt bytes pos t)
    (hlen : s.length = t.length) : s = t := by
  rw [List.prefix_iff_eq_take.mp hs,List.prefix_iff_eq_take.mp ht,hlen]

theorem standsAt_slice {n : Nat} : StandsAt bytes pos ((bytes.drop pos).take n) :=
  List.take_prefix n _

theorem slice_length {n : Nat} (h : pos + n ≤ bytes.length) :
    ((bytes.drop pos).take n).length = n := by
  rw [List.length_take,List.length_drop]
  omega

theorem standsAt_byte {b : UInt8} : StandsAt bytes pos [b] ↔ bytes[pos]? = some b := by
  unfold StandsAt
  constructor
  · rintro ⟨rest,hrest⟩
    have h := congrArg List.head? hrest
    rw [List.head?_drop] at h
    exact h.symm
  · intro h
    obtain ⟨hlt,hget⟩ := List.getElem?_eq_some_iff.mp h
    rw [List.drop_eq_getElem_cons hlt,hget]
    exact ⟨_,rfl⟩

/-- What stands in the first bytes does so whatever follows them. -/
theorem StandsAt.transfer {other : List UInt8} {m : Nat} (h : StandsAt bytes pos s)
    (hend : pos + s.length ≤ m) (hfirst : bytes.take m <+: other) : StandsAt other pos s := by
  obtain ⟨rest,rfl⟩ := hfirst
  have htake : StandsAt (bytes.take m) pos s := by
    rw [StandsAt,List.drop_take,List.prefix_take_iff]
    exact ⟨h,by omega⟩
  by_cases hpos : pos ≤ (bytes.take m).length
  · rw [StandsAt,List.drop_append_of_le_length hpos]
    exact htake.trans (List.prefix_append _ _)
  · rw [StandsAt,List.drop_eq_nil_of_le (by omega)] at htake
    rw [List.prefix_nil.mp htake]
    exact StandsAt.nil _ _

end StandsAt

end Aethon.Framework
