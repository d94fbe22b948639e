import Aethon.Dpi.RuleText

/-!
# Port specifications

The port syntax of the rule reference and what each form means, against `parse_port_range` and
`PortRange::matches`. The parser has no case for the form with an exclamation mark: it reads it
as a number, fails, and falls back to any port.
-/

namespace Aethon.Dpi

open Framework Framework.Pattern

def PortRange.matches (pr : PortRange) (port : BitVec 16) : Bool :=
  pr.isAny || (port.toNat ≥ pr.low && port.toNat ≤ pr.high)

theorem PortRange.matches_iff (pr : PortRange) (port : BitVec 16) :
    pr.matches port = true ↔ pr.isAny = true ∨ pr.low ≤ port.toNat ∧ port.toNat ≤ pr.high := by
  simp [PortRange.matches]

/-- A decimal number between 0 and 65535, as it is written. -/
structure PortNumber where
  digits : Text
  ne_nil : digits ≠ []
  all_digits : digits.all isDigit = true
  le : decimalValue digits ≤ 65535

def PortNumber.value (n : PortNumber) : Nat := decimalValue n.digits

/-- The port syntax of the rule reference. -/
inductive PortSpec where
  | any
  | port (n : PortNumber)
  | range (low high : PortNumber)
  | upTo (high : PortNumber)
  | atLeast (low : PortNumber)
  | except (n : PortNumber)

namespace PortSpec

def text : PortSpec → Text
  | any => ascii "any"
  | port n => n.digits
  | range low high => low.digits ++ colon :: high.digits
  | upTo high => colon :: high.digits
  | atLeast low => low.digits ++ [colon]
  | except n => bang :: n.digits

/-- The documented meaning. -/
def Allows : PortSpec → BitVec 16 → Prop
  | any, _ => True
  | port n, p => p.toNat = n.value
  | range low high, p => low.value ≤ p.toNat ∧ p.toNat ≤ high.value
  | upTo high, p => p.toNat ≤ high.value
  | atLeast low, p => low.value ≤ p.toNat
  | except n, p => p.toNat ≠ n.value

/-- The range that the parser makes of a specification. -/
def parsed : PortSpec → PortRange
  | any => {}
  | port n => ⟨n.value,n.value,false⟩
  | range low high => ⟨low.value,high.value,false⟩
  | upTo high => ⟨0,high.value,false⟩
  | atLeast low => ⟨low.value,65535,false⟩
  | except _ => {}

end PortSpec

/-- The text without the blanks around it. -/
theorem trim_blanks {lead body trail : Text} (hlead : lead.all isBlank = true)
    (htrail : trail.all isBlank = true) (hne : body ≠ []) (hbody : ∀ c ∈ body, isBlank c = false) :
    trim (lead ++ body ++ trail) = body := by
  have hstop : ∀ (s rest : Text), s ≠ [] → (∀ c ∈ s, isBlank c = false) →
      (s ++ rest).dropWhile isBlank = s ++ rest := by
    intro s rest hs hall
    obtain ⟨c,s,rfl⟩ := List.exists_cons_of_ne_nil hs
    simp [hall c (by simp)]
  rw [trim,List.append_assoc,List.dropWhile_append_of_pos (by simpa using hlead),
    hstop body trail hne hbody,List.rdropWhile,List.reverse_append,
    List.dropWhile_append_of_pos (by simpa using htrail)]
  have hrev := hstop body.reverse [] (by simpa using hne) (by simpa using hbody)
  rw [List.append_nil] at hrev
  rw [hrev,List.reverse_reverse]

namespace PortNumber

variable (n : PortNumber)

theorem isDigit_of_mem {c : UInt8} (hc : c ∈ n.digits) : isDigit c = true :=
  List.all_eq_true.mp n.all_digits c hc

theorem notMem_digits {c : UInt8} (hc : isDigit c = false) : c ∉ n.digits := fun hmem => by
  rw [n.isDigit_of_mem hmem] at hc
  cases hc

theorem fromCharsU16_digits : fromCharsU16 n.digits = some n.value := by
  have htake : n.digits.takeWhile isDigit = n.digits :=
    List.takeWhile_eq_self_iff.mpr fun c hc => n.isDigit_of_mem hc
  simp [fromCharsU16,fromChars,htake,n.ne_nil,n.le,value]

end PortNumber

/-- A text that starts with no digit is no number. -/
theorem fromCharsU16_eq_none {c : UInt8} (hc : isDigit c = false) (s : Text) :
    fromCharsU16 (c :: s) = none := by
  simp [fromCharsU16,fromChars,hc]

/-- The characters of all forms but `any`. -/
def isPortChar (c : UInt8) : Bool := isDigit c || c = colon || c = bang

section Numeric

variable {lead body trail : Text} (hlead : lead.all isBlank = true)
  (htrail : trail.all isBlank = true) (hne : body ≠ [])
  (hchars : ∀ c ∈ body, isPortChar c = true)
include hlead htrail hne hchars

theorem trim_numeric : trim (lead ++ body ++ trail) = body :=
  trim_blanks hlead htrail hne fun c hc =>
    isBlank_of_class (by decide) (by decide) (hchars c hc)

omit hlead htrail in
/-- A text of these characters is none of the names that stand for any port. -/
theorem not_named : ¬(body = [] ∨ body = ascii "any" ∨ body = ascii "$HTTP_PORTS" ∨
    body = ascii "$SQL_SERVERS") := by
  have hother : ∀ (name : Text) (c : UInt8), c ∈ name → isPortChar c = false → body ≠ name := by
    rintro name c hmem hc rfl
    rw [hchars c hmem] at hc
    cases hc
  rintro (h | h | h | h)
  · exact hne h
  · exact hother _ 0x61 (by decide +kernel) (by decide) h
  · exact hother _ 0x24 (by decide +kernel) (by decide) h
  · exact hother _ 0x24 (by decide +kernel) (by decide) h

theorem parsePortRange_single (hcolon : colon ∉ body) :
    parsePortRange (lead ++ body ++ trail) =
      (fromCharsU16 body).elim {} fun port => ⟨port,port,false⟩ := by
  rw [parsePortRange,trim_numeric hlead htrail hne hchars,if_neg (not_named hne hchars),
    if_pos hcolon]
  cases fromCharsU16 body <;> rfl

theorem parsePortRange_colon (hcolon : colon ∈ body) :
    parsePortRange (lead ++ body ++ trail) =
      ⟨(fromCharsU16 (before colon body)).getD 0,(fromCharsU16 (behind colon body)).getD 65535,
        false⟩ := by
  rw [parsePortRange,trim_numeric hlead htrail hne hchars,if_neg (not_named hne hchars),
    if_neg (not_not_intro hcolon)]

end Numeric

/-- All forms but `any` consist of these characters. -/
theorem PortSpec.isPortChar_of_mem {spec : PortSpec} (h : spec ≠ .any) :
    ∀ c ∈ spec.text, isPortChar c = true := by
  have hcolon : isPortChar colon = true := by decide
  have hbang : isPortChar bang = true := by decide
  have hdigits : ∀ n : PortNumber, ∀ c ∈ n.digits, isPortChar c = true := by
    intro n c hc
    simp [isPortChar,n.isDigit_of_mem hc]
  cases spec with
  | any => exact absurd rfl h
  | port n => exact hdigits n
  | range low high =>
    exact List.forall_mem_append.mpr ⟨hdigits low,List.forall_mem_cons.mpr ⟨hcolon,hdigits high⟩⟩
  | upTo high => exact List.forall_mem_cons.mpr ⟨hcolon,hdigits high⟩
  | atLeast low =>
    exact List.forall_mem_append.mpr ⟨hdigits low,List.forall_mem_singleton.mpr hcolon⟩
  | except n => exact List.forall_mem_cons.mpr ⟨hbang,hdigits n⟩

/-- What the parser makes of each form. -/
theorem parsePortRange_text (spec : PortSpec) {lead trail : Text}
    (hlead : lead.all isBlank = true) (htrail : trail.all isBlank = true) :
    parsePortRange (lead ++ spec.text ++ trail) = spec.parsed := by
  have hcolon : ∀ n : PortNumber, colon ∉ n.digits := fun n => n.notMem_digits (by decide)
  cases spec with
  | any =>
    have hblank : ∀ c ∈ ascii "any", isBlank c = false :=
      List.forall_mem_iff_forall_getElem.mpr (by decide +kernel)
    rw [parsePortRange,PortSpec.text,trim_blanks hlead htrail (by decide +kernel) hblank,
      if_pos (Or.inr (Or.inl rfl))]
    rfl
  | port n =>
    have hchars := PortSpec.isPortChar_of_mem (show PortSpec.port n ≠ .any by simp)
    rw [PortSpec.text] at hchars ⊢
    rw [parsePortRange_single hlead htrail n.ne_nil hchars (hcolon n),n.fromCharsU16_digits]
    rfl
  | range low high =>
    have hchars := PortSpec.isPortChar_of_mem (show PortSpec.range low high ≠ .any by simp)
    rw [PortSpec.text] at hchars ⊢
    rw [parsePortRange_colon hlead htrail (by simp) hchars (by simp),before_append (hcolon low),
      behind_append (hcolon low),low.fromCharsU16_digits,high.fromCharsU16_digits]
    rfl
  | upTo high =>
    have hchars := PortSpec.isPortChar_of_mem (show PortSpec.upTo high ≠ .any by simp)
    rw [PortSpec.text] at hchars ⊢
    have hbefore : before colon (colon :: high.digits) = [] :=
      before_append List.not_mem_nil _
    have hbehind : behind colon (colon :: high.digits) = high.digits :=
      behind_append List.not_mem_nil _
    rw [parsePortRange_colon hlead htrail (by simp) hchars (by simp),hbefore,hbehind,
      high.fromCharsU16_digits]
    rfl
  | atLeast low =>
    have hchars := PortSpec.isPortChar_of_mem (show PortSpec.atLeast low ≠ .any by simp)
    rw [PortSpec.text] at hchars ⊢
    rw [parsePortRange_colon hlead htrail (by simp) hchars (by simp),before_append (hcolon low),
      behind_append (hcolon low),low.fromCharsU16_digits]
    rfl
  | except n =>
    have hchars := PortSpec.isPortChar_of_mem (show PortSpec.except n ≠ .any by simp)
    have hno : colon ∉ bang :: n.digits := by
      simpa using ⟨by decide,hcolon n⟩
    rw [PortSpec.text] at hchars ⊢
    rw [parsePortRange_single hlead htrail (by simp) hchars hno,fromCharsU16_eq_none (by decide)]
    rfl

/-- The parsed range and the documented meaning agree on a port unless the specification
excludes exactly that port. -/
theorem parsePortRange_matches_iff (spec : PortSpec) (lead trail : Text)
    (hlead : lead.all isBlank = true) (htrail : trail.all isBlank = true) (p : BitVec 16) :
    ((parsePortRange (lead ++ spec.text ++ trail)).matches p = true ↔ spec.Allows p) ↔
      ∀ n, spec = .except n → p.toNat ≠ n.value := by
  rw [parsePortRange_text spec hlead htrail,PortRange.matches_iff]
  have hp := p.isLt
  cases spec with
  | any => simp [PortSpec.parsed,PortSpec.Allows]
  | port n =>
    simp only [PortSpec.parsed,PortSpec.Allows,Bool.false_eq_true,false_or,reduceCtorEq,
      false_implies,implies_true,iff_true]
    omega
  | range low high => simp [PortSpec.parsed,PortSpec.Allows]
  | upTo high => simp [PortSpec.parsed,PortSpec.Allows]
  | atLeast low =>
    simp only [PortSpec.parsed,PortSpec.Allows,Bool.false_eq_true,false_or,reduceCtorEq,
      false_implies,implies_true,iff_true]
    omega
  | except n => simp [PortSpec.parsed,PortSpec.Allows]

/-- The number 80. -/
def http : PortNumber where
  digits := ascii "80"
  ne_nil := by decide +kernel
  all_digits := by decide +kernel
  le := by decide +kernel

/-- A rule for any port but 80 is applied to port 80. -/
theorem excluded_port_matches :
    (parsePortRange (ascii " " ++ (PortSpec.except http).text ++ [])).matches 80 = true ∧
      ¬(PortSpec.except http).Allows 80 :=
  ⟨by decide +kernel,fun h => h (by decide +kernel)⟩

theorem parsePortRange_matches_iff_single :
    (parsePortRange (ascii " \t" ++ (PortSpec.port http).text ++ ascii " ")).matches 80 = true :=
  ((parsePortRange_matches_iff (.port http) (ascii " \t") (ascii " ") (by decide +kernel)
    (by decide +kernel) 80).mpr (by simp)).mpr (by decide +kernel : (80 : Nat) = http.value)

end Aethon.Dpi
