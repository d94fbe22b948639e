import Aethon.Framework.Wire

/-!
# What OpenSSL makes of the bytes it is given

The TLS library is a parameter: the plaintexts of the complete application-data records in the
bytes that one TLS engine was given. More bytes can only add records. A library without
encryption is an instance.
-/

namespace Aethon.Tls

open Framework

structure OpenSsl where
  records : List UInt8 → List (List UInt8)
  grows : ∀ fed more, records fed <+: records (fed ++ more)

namespace OpenSsl

/-- No later bytes can add a record: the connection is shut down or broken. -/
def Final (ssl : OpenSsl) (fed : List UInt8) : Prop :=
  ∀ more, ssl.records (fed ++ more) = ssl.records fed

theorem Final.append {ssl : OpenSsl} {fed : List UInt8} (h : ssl.Final fed) (more : List UInt8) :
    ssl.Final (fed ++ more) := by
  intro more'
  rw [List.append_assoc,h,h]

def applicationData : UInt8 := 0x17

/-- The plaintext of a record without encryption. -/
def bodyOf (kind : UInt8) (body : List UInt8) : List (List UInt8) :=
  if kind = applicationData ∧ body ≠ [] then [body] else []

/-- The records in a byte string, of which there are at most as many as the first argument. -/
def plainRecords : Nat → List UInt8 → List (List UInt8)
  | n + 1, kind :: _ :: _ :: hi :: lo :: rest =>
      if rest.length < beValue hi lo then []
      else bodyOf kind (rest.take (beValue hi lo)) ++ plainRecords n (rest.drop (beValue hi lo))
  | _, _ => []

theorem plainRecords_grows (n m : Nat) (hle : n ≤ m) (fed more : List UInt8) :
    plainRecords n fed <+: plainRecords m (fed ++ more) := by
  induction n generalizing m fed with
  | zero => exact List.nil_prefix
  | succ n ih =>
    obtain ⟨m,rfl⟩ := Nat.exists_eq_add_of_le' (Nat.lt_of_lt_of_le (Nat.succ_pos n) hle)
    match fed with
    | kind :: v :: w :: hi :: lo :: rest =>
      simp only [List.cons_append,plainRecords]
      by_cases hshort : rest.length < beValue hi lo
      · rw [if_pos hshort]
        exact List.nil_prefix
      · have hlen : beValue hi lo ≤ rest.length := by omega
        rw [if_neg hshort,if_neg (by rw [List.length_append]; omega),
          List.take_append_of_le_length hlen,List.drop_append_of_le_length hlen]
        exact (List.prefix_append_right_inj _).mpr (ih m (by omega) _)
    | [] => exact List.nil_prefix
    | [_] => exact List.nil_prefix
    | [_,_] => exact List.nil_prefix
    | [_,_,_] => exact List.nil_prefix
    | [_,_,_,_] => exact List.nil_prefix

/-- A library that neither encrypts nor fails. -/
def nullCipher : OpenSsl where
  records := fun fed => plainRecords fed.length fed
  grows := by
    intro fed more
    exact plainRecords_grows _ _ (by rw [List.length_append]; omega) fed more

end OpenSsl

end Aethon.Tls
