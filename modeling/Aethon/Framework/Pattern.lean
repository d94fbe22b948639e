import Mathlib.Tactic

/-!
# Patterns over bytes

The part of the PCRE syntax in which a pattern is a row of bytes and of bounded gaps `.{l,h}`:
how its text is read, and which byte strings it matches. Letters may match in both cases, and a
gap may or may not take line feeds.
-/

namespace Aethon.Framework

/-- The bytes of an ASCII text. -/
def ascii (s : String) : List UInt8 := s.toList.map Char.toUInt8

namespace Pattern

inductive Atom where
  | byte (b : UInt8)
  | gap (low high : Nat)
  deriving DecidableEq, Repr

structure Flags where
  caseless : Bool := false
  dotall : Bool := false
  deriving DecidableEq, Repr

section Text

def isDigit (c : UInt8) : Bool := 0x30 ≤ c && c ≤ 0x39

def isAlnum (c : UInt8) : Bool :=
  isDigit c || 0x41 ≤ c && c ≤ 0x5a || 0x61 ≤ c && c ≤ 0x7a

/-- The characters that stand for something else outside a character class. -/
def isSpecial (c : UInt8) : Bool := (ascii "\\^$.[]()|*+?\x7b\x7d").contains c

def hexVal (c : UInt8) : Option Nat :=
  if 0x30 ≤ c ∧ c ≤ 0x39 then some (c.toNat - 0x30)
  else if 0x61 ≤ c ∧ c ≤ 0x66 then some (c.toNat - 0x61 + 10)
  else if 0x41 ≤ c ∧ c ≤ 0x46 then some (c.toNat - 0x41 + 10)
  else none

/-- The value of a row of decimal digits. -/
def decimalValue (digits : List UInt8) : Nat :=
  digits.foldl (fun n c => n * 10 + (c.toNat - 0x30)) 0

/-- The decimal digits of a number. -/
def decimal (n : Nat) : List UInt8 := (Nat.toDigits 10 n).map Char.toUInt8

/-- The text of a gap. -/
def gapText (low high : Nat) : List UInt8 :=
  ascii ".\x7b" ++ decimal low ++ ascii "," ++ decimal high ++ ascii "\x7d"

def hexDigit (n : Nat) : UInt8 := UInt8.ofNat (if n < 10 then 0x30 + n else 0x57 + n)

/-- The text of a byte given by its two hexadecimal digits. -/
def hexText (b : UInt8) : List UInt8 :=
  ascii "\\x" ++ [hexDigit (b.toNat / 16),hexDigit (b.toNat % 16)]

/-- Read the bounds of a gap behind its opening brace. -/
def readGap (text : List UInt8) : Option (Atom × List UInt8) :=
  let low := text.takeWhile isDigit
  match text.dropWhile isDigit with
  | 0x2c :: rest =>
      let high := rest.takeWhile isDigit
      match rest.dropWhile isDigit with
      | 0x7d :: rest =>
          if low = [] ∨ high = [] ∨ decimalValue high < decimalValue low then none
          else some (.gap (decimalValue low) (decimalValue high),rest)
      | _ => none
  | _ => none

/-- Read the first atom of a text. -/
def readAtom : List UInt8 → Option (Atom × List UInt8)
  | 0x5c :: 0x78 :: a :: b :: rest =>
      match hexVal a, hexVal b with
      | some a, some b => some (.byte (UInt8.ofNat (a * 16 + b)),rest)
      | _, _ => none
  | 0x5c :: c :: rest => if isAlnum c then none else some (.byte c,rest)
  | 0x2e :: 0x7b :: rest => readGap rest
  | c :: rest => if isSpecial c then none else some (.byte c,rest)
  | [] => none

/-- Read a text of at most `fuel` atoms. -/
def readAtoms : Nat → List UInt8 → Option (List Atom)
  | _, [] => some []
  | 0, _ :: _ => none
  | fuel + 1, c :: text => do
      let (atom,rest) ← readAtom (c :: text)
      let atoms ← readAtoms fuel rest
      return atom :: atoms

/-- The atoms of a pattern text, if the text is one of this fragment. -/
def read (text : List UInt8) : Option (List Atom) := readAtoms text.length text

end Text

section Match

/-- The other case of a letter. -/
def swapCase (c : UInt8) : UInt8 :=
  if 0x41 ≤ c ∧ c ≤ 0x5a then c + 0x20
  else if 0x61 ≤ c ∧ c ≤ 0x7a then c - 0x20
  else c

def byteMatches (flags : Flags) (b c : UInt8) : Bool := c = b || flags.caseless && c = swapCase b

/-- The atoms match the whole of a byte string. -/
def Matches (flags : Flags) : List Atom → List UInt8 → Prop
  | [], bytes => bytes = []
  | .byte b :: atoms, bytes =>
      match bytes with
      | [] => False
      | c :: bytes => byteMatches flags b c = true ∧ Matches flags atoms bytes
  | .gap low high :: atoms, bytes => ∃ k ≤ high, low ≤ k ∧ k ≤ bytes.length ∧
      (flags.dotall = false → 0x0a ∉ bytes.take k) ∧ Matches flags atoms (bytes.drop k)

instance decidableMatches (flags : Flags) :
    (atoms : List Atom) → (bytes : List UInt8) → Decidable (Matches flags atoms bytes)
  | [], bytes => inferInstanceAs (Decidable (bytes = []))
  | .byte _ :: _, [] => inferInstanceAs (Decidable False)
  | .byte b :: atoms, c :: bytes =>
      haveI := decidableMatches flags atoms bytes
      inferInstanceAs (Decidable (byteMatches flags b c = true ∧ Matches flags atoms bytes))
  | .gap low high :: atoms, bytes =>
      haveI := fun k => decidableMatches flags atoms (bytes.drop k)
      inferInstanceAs (Decidable (∃ k ≤ high, low ≤ k ∧ k ≤ bytes.length ∧
        (flags.dotall = false → 0x0a ∉ bytes.take k) ∧ Matches flags atoms (bytes.drop k)))

/-- Some part of a byte string is matched. -/
def Occurs (flags : Flags) (atoms : List Atom) (bytes : List UInt8) : Prop :=
  ∃ before part after, bytes = before ++ part ++ after ∧ Matches flags atoms part

theorem occurs_iff {flags : Flags} {atoms : List Atom} {bytes : List UInt8} :
    Occurs flags atoms bytes ↔ ∃ j ≤ bytes.length, ∃ i ≤ j,
      Matches flags atoms ((bytes.take j).drop i) := by
  constructor
  · rintro ⟨before,part,after,rfl,hpart⟩
    refine ⟨(before ++ part).length,by simp,before.length,by simp,?_⟩
    rwa [List.take_left,List.drop_left]
  · rintro ⟨j,_,i,_,hmatch⟩
    exact ⟨(bytes.take j).take i,_,bytes.drop j,by simp [List.take_append_drop],hmatch⟩

instance (flags : Flags) (atoms : List Atom) (bytes : List UInt8) :
    Decidable (Occurs flags atoms bytes) :=
  decidable_of_iff _ occurs_iff.symm

end Match

section Decimals

theorem decimal_eq (n : Nat) : decimal n =
    (if n < 10 then [] else decimal (n / 10)) ++ [UInt8.ofNat (0x30 + n % 10)] := by
  have hdigit : ∀ d < 10, (Nat.digitChar d).toUInt8 = UInt8.ofNat (0x30 + d) := by decide
  unfold decimal
  rw [Nat.toDigits_eq_if (by omega)]
  split
  · simp [hdigit n (by omega),Nat.mod_eq_of_lt (by omega : n < 10)]
  · simp [hdigit (n % 10) (Nat.mod_lt _ (by omega))]

theorem decimal_isDigit (n : Nat) : ∀ c ∈ decimal n, isDigit c = true := by
  have hdigit : ∀ d < 10, isDigit (UInt8.ofNat (0x30 + d)) = true := by decide
  induction n using Nat.strong_induction_on with
  | _ n ih =>
    intro c hc
    rw [decimal_eq,List.mem_append,List.mem_singleton] at hc
    rcases hc with hc | rfl
    · split at hc
      · simp at hc
      · exact ih (n / 10) (by omega) c hc
    · exact hdigit _ (Nat.mod_lt _ (by omega))

theorem decimal_ne_nil (n : Nat) : decimal n ≠ [] := by
  rw [decimal_eq]
  simp

@[simp] theorem decimalValue_decimal (n : Nat) : decimalValue (decimal n) = n := by
  have hdigit : ∀ d < 10, (UInt8.ofNat (0x30 + d)).toNat - 0x30 = d := by decide
  induction n using Nat.strong_induction_on with
  | _ n ih =>
    rw [decimal_eq,decimalValue,List.foldl_append,List.foldl_cons,List.foldl_nil,
      hdigit _ (Nat.mod_lt _ (by omega))]
    split
    · rw [List.foldl_nil]
      omega
    · change decimalValue (decimal (n / 10)) * 10 + n % 10 = n
      rw [ih (n / 10) (by omega)]
      omega

/-- A row of digits ends where a character that is no digit follows. -/
theorem span_decimal (n : Nat) {c : UInt8} (hc : isDigit c = false) (rest : List UInt8) :
    (decimal n ++ c :: rest).takeWhile isDigit = decimal n ∧
      (decimal n ++ c :: rest).dropWhile isDigit = c :: rest := by
  rw [List.takeWhile_append_of_pos (decimal_isDigit n),
    List.dropWhile_append_of_pos (decimal_isDigit n)]
  simp [hc]

theorem readGap_decimal {low high : Nat} (h : low ≤ high) (rest : List UInt8) :
    readGap (decimal low ++ 0x2c :: (decimal high ++ 0x7d :: rest)) =
      some (.gap low high,rest) := by
  obtain ⟨hlow,hrest⟩ := span_decimal low (c := 0x2c) rfl (decimal high ++ 0x7d :: rest)
  obtain ⟨hhigh,hend⟩ := span_decimal high (c := 0x7d) rfl rest
  simp only [readGap,hlow,hrest,hhigh,hend,decimal_ne_nil,decimalValue_decimal,false_or,
    Nat.not_lt.mpr h,if_false]

end Decimals

section Reading

/-- A text that reads as a row of atoms, whatever follows it. -/
structure Reads (text : List UInt8) (atoms : List Atom) : Prop where
  length_le : atoms.length ≤ text.length
  reads : ∀ fuel rest, readAtoms (atoms.length + fuel) (text ++ rest) =
    (readAtoms fuel rest).map (atoms ++ ·)

theorem Reads.nil : Reads [] [] := ⟨le_rfl,fun fuel rest => by simp⟩

theorem Reads.append {s t : List UInt8} {as bs : List Atom} (hs : Reads s as) (ht : Reads t bs) :
    Reads (s ++ t) (as ++ bs) where
  length_le := by
    have := hs.length_le
    have := ht.length_le
    simp only [List.length_append]
    omega
  reads fuel rest := by
    rw [List.length_append,Nat.add_assoc,List.append_assoc,hs.reads,ht.reads,Option.map_map]
    congr 1
    funext atoms
    simp

theorem Reads.of_readAtom {text : List UInt8} {atom : Atom} (hne : text ≠ [])
    (h : ∀ rest, readAtom (text ++ rest) = some (atom,rest)) : Reads text [atom] where
  length_le := List.length_pos_iff.mpr hne
  reads fuel rest := by
    cases text with
    | nil => exact absurd rfl hne
    | cons c text =>
      rw [List.length_singleton,Nat.add_comm]
      have hread := h rest
      rw [List.cons_append] at hread
      simp only [List.cons_append,readAtoms,hread,bind,Option.bind]
      cases readAtoms fuel rest <;> rfl

/-- A character without a meaning of its own reads as itself. -/
theorem Reads.plain {c : UInt8} (hc : isSpecial c = false) : Reads [c] [.byte c] := by
  apply Reads.of_readAtom (by simp)
  intro rest
  have hslash : c ≠ 0x5c := by rintro rfl; exact absurd hc (by decide)
  have hdot : c ≠ 0x2e := by rintro rfl; exact absurd hc (by decide)
  rw [List.singleton_append]
  unfold readAtom
  split
  all_goals simp_all

theorem Reads.escaped {c : UInt8} (hc : isSpecial c = true) : Reads [0x5c,c] [.byte c] := by
  apply Reads.of_readAtom (by simp)
  intro rest
  have halnum : isAlnum c = false ∧ c ≠ 0x78 := by
    have hall : ∀ d ∈ ascii "\\^$.[]()|*+?\x7b\x7d", isAlnum d = false ∧ d ≠ 0x78 := by
      decide +kernel
    exact hall c (by simpa [isSpecial] using hc)
  have hskip : readAtom (0x5c :: c :: rest) = if isAlnum c then none else some (.byte c,rest) := by
    apply readAtom.eq_2
    rintro a b rest' rfl
    exact absurd halnum.2 (by simp)
  simpa [halnum.1] using hskip

theorem isSpecial_of_isAlnum {c : UInt8} (hc : isAlnum c = true) : isSpecial c = false := by
  have hall : ∀ d ∈ ascii "\\^$.[]()|*+?\x7b\x7d", isAlnum d = false := by decide +kernel
  by_contra h
  have hmem : c ∈ ascii "\\^$.[]()|*+?\x7b\x7d" := by simpa [isSpecial] using h
  exact absurd hc (by simp [hall c hmem])

theorem Reads.word {word : List UInt8} (h : ∀ c ∈ word, isSpecial c = false) :
    Reads word (word.map .byte) := by
  induction word with
  | nil => exact Reads.nil
  | cons c word ih =>
    exact (Reads.plain (h c List.mem_cons_self)).append
      (ih fun d hd => h d (List.mem_cons_of_mem _ hd))

theorem Reads.hex (b : UInt8) : Reads (hexText b) [.byte b] := by
  apply Reads.of_readAtom (by simp [hexText,ascii])
  intro rest
  have hdigit : ∀ n < 16, hexVal (hexDigit n) = some n := by decide
  have hhigh := hdigit (b.toNat / 16) (by have := b.toNat_lt; omega)
  have hlow := hdigit (b.toNat % 16) (by omega)
  change readAtom (0x5c :: 0x78 :: hexDigit (b.toNat / 16) :: hexDigit (b.toNat % 16) :: rest) = _
  rw [readAtom,hhigh,hlow]
  simp only [Nat.div_add_mod',UInt8.ofNat_toNat]

theorem Reads.gap {low high : Nat} (h : low ≤ high) : Reads (gapText low high) [.gap low high] := by
  apply Reads.of_readAtom (by simp [gapText,ascii])
  intro rest
  have htext : gapText low high ++ rest =
      0x2e :: 0x7b :: (decimal low ++ 0x2c :: (decimal high ++ 0x7d :: rest)) := by
    simp only [gapText,ascii,List.append_assoc]
    rfl
  rw [htext,readAtom]
  exact readGap_decimal h rest

theorem Reads.read_eq {text : List UInt8} {atoms : List Atom} (h : Reads text atoms) :
    read text = some atoms := by
  have hread := h.reads (text.length - atoms.length) []
  rw [Nat.add_sub_cancel' h.length_le,List.append_nil] at hread
  rw [read,hread]
  cases text.length - atoms.length <;> simp [readAtoms]

end Reading

section Matching

variable {flags : Flags} {atoms : List Atom} {bytes : List UInt8}

theorem matches_append {as bs : List Atom} : Matches flags (as ++ bs) bytes ↔
    ∃ x y, bytes = x ++ y ∧ Matches flags as x ∧ Matches flags bs y := by
  induction as generalizing bytes with
  | nil =>
    constructor
    · intro h
      exact ⟨[],bytes,rfl,rfl,h⟩
    · rintro ⟨x,y,rfl,hx,hy⟩
      cases (show x = [] from hx)
      exact hy
  | cons atom as ih =>
    cases atom with
    | byte b =>
      cases bytes with
      | nil =>
        simp only [List.cons_append,Matches,false_iff,not_exists,not_and]
        intro x y hxy
        obtain ⟨rfl,rfl⟩ := List.append_eq_nil_iff.mp hxy.symm
        simp
      | cons c bytes =>
        simp only [List.cons_append,Matches,ih]
        constructor
        · rintro ⟨hc,x,y,rfl,hx,hy⟩
          exact ⟨c :: x,y,rfl,⟨hc,hx⟩,hy⟩
        · rintro ⟨x,y,hxy,hx,hy⟩
          cases x with
          | nil => exact hx.elim
          | cons d x =>
            obtain ⟨rfl,rfl⟩ := List.cons.inj hxy
            exact ⟨hx.1,x,y,rfl,hx.2,hy⟩
    | gap low high =>
      simp only [List.cons_append,Matches,ih]
      constructor
      · rintro ⟨k,hhigh,hlow,hk,hdot,x,y,hxy,hx,hy⟩
        refine ⟨bytes.take k ++ x,y,?_,⟨k,hhigh,hlow,?_,?_,?_⟩,hy⟩
        · rw [List.append_assoc,← hxy,List.take_append_drop]
        · simp [hk]
        · simpa [List.take_append,Nat.min_eq_left hk] using hdot
        · simpa [List.drop_append,Nat.min_eq_left hk] using hx
      · rintro ⟨x,y,rfl,⟨k,hhigh,hlow,hk,hdot,hx⟩,hy⟩
        refine ⟨k,hhigh,hlow,?_,?_,x.drop k,y,?_,hx,hy⟩
        · rw [List.length_append]
          omega
        · rwa [List.take_append_of_le_length hk]
        · rw [List.drop_append_of_le_length hk]

/-- Without case folding a row of bytes matches itself only. -/
theorem matches_word (hcase : flags.caseless = false) {word : List UInt8} :
    Matches flags (word.map .byte) bytes ↔ bytes = word := by
  induction word generalizing bytes with
  | nil => rfl
  | cons b word ih =>
    cases bytes with
    | nil => simp [Matches]
    | cons c bytes =>
      simp only [List.map_cons,Matches,ih,byteMatches,hcase,Bool.false_and,Bool.or_false,
        decide_eq_true_eq,List.cons.injEq]

theorem matches_gap (hdot : flags.dotall = true) {low high : Nat} :
    Matches flags [.gap low high] bytes ↔ low ≤ bytes.length ∧ bytes.length ≤ high := by
  simp only [Matches,hdot,Bool.true_eq_false,false_implies,true_and,List.drop_eq_nil_iff]
  constructor
  · rintro ⟨k,hhigh,hlow,hk,hlen⟩
    omega
  · rintro ⟨hlow,hhigh⟩
    exact ⟨bytes.length,hhigh,hlow,le_rfl,le_rfl⟩

/-- What a row of atoms needs, each part of the row needs. -/
theorem Occurs.part {as bs cs : List Atom} (h : Occurs flags (as ++ bs ++ cs) bytes) :
    Occurs flags bs bytes := by
  obtain ⟨before,part,after,rfl,hpart⟩ := h
  obtain ⟨xy,z,rfl,hxy,_⟩ := matches_append.mp hpart
  obtain ⟨x,y,rfl,_,hy⟩ := matches_append.mp hxy
  exact ⟨before ++ x,y,z ++ after,by simp,hy⟩

end Matching

/-! ## Words behind bounded gaps -/

section Links

/-- A word and the bounds of the gap in front of it. -/
structure Link where
  low : Nat
  high : Nat
  word : List UInt8

def Link.atoms (link : Link) : List Atom := .gap link.low link.high :: link.word.map .byte

/-- The byte string consists of the words in order, each behind a gap within its bounds. -/
def Linked : List Link → List UInt8 → Prop
  | [], bytes => bytes = []
  | link :: links, bytes => ∃ gap rest, bytes = gap ++ link.word ++ rest ∧
      link.low ≤ gap.length ∧ gap.length ≤ link.high ∧ Linked links rest

theorem matches_links {flags : Flags} (hcase : flags.caseless = false)
    (hdot : flags.dotall = true) {links : List Link} {bytes : List UInt8} :
    Matches flags (links.flatMap Link.atoms) bytes ↔ Linked links bytes := by
  induction links generalizing bytes with
  | nil => rfl
  | cons link links ih =>
    have hatoms : (link :: links).flatMap Link.atoms =
        [.gap link.low link.high] ++ link.word.map .byte ++ links.flatMap Link.atoms := by
      simp [Link.atoms]
    rw [hatoms,matches_append]
    simp only [matches_append,matches_gap hdot,matches_word hcase,ih]
    constructor
    · rintro ⟨x,rest,rfl,⟨gap,word,rfl,hgap,rfl⟩,hrest⟩
      exact ⟨gap,rest,rfl,hgap.1,hgap.2,hrest⟩
    · rintro ⟨gap,rest,rfl,hlow,hhigh,hrest⟩
      exact ⟨gap ++ link.word,rest,rfl,⟨gap,link.word,rfl,⟨hlow,hhigh⟩,rfl⟩,hrest⟩

/-- The number of bytes in the words. -/
def weight (links : List Link) : Nat := (links.map (·.word.length)).sum

variable {z : UInt8} {links : List Link} {bytes : List UInt8}

theorem countP_word {word : List UInt8} (h : z ∉ word) : word.countP (· ≠ z) = word.length := by
  rw [List.countP_eq_length]
  intro c hc
  simpa using fun heq : c = z => h (heq ▸ hc)

theorem Linked.weight_le (hz : ∀ link ∈ links, z ∉ link.word) (h : Linked links bytes) :
    weight links ≤ bytes.countP (· ≠ z) := by
  induction links generalizing bytes with
  | nil => simp [weight]
  | cons link links ih =>
    obtain ⟨gap,rest,rfl,_,_,hrest⟩ := h
    have := ih (fun l hl => hz l (List.mem_cons_of_mem _ hl)) hrest
    simp only [weight,List.map_cons,List.sum_cons,List.countP_append,
      countP_word (hz link List.mem_cons_self)] at this ⊢
    omega

theorem replicate_append_inj {m n : Nat} {word x y : List UInt8} (hne : word ≠ [])
    (hz : z ∉ word)
    (h : List.replicate m z ++ word ++ x = List.replicate n z ++ word ++ y) :
    m = n ∧ x = y := by
  induction m generalizing n with
  | zero =>
    cases n with
    | zero => simpa using h
    | succ n =>
      cases word with
      | nil => exact absurd rfl hne
      | cons c word =>
        simp only [List.replicate_succ,List.replicate_zero,List.nil_append,List.cons_append,
          List.cons.injEq] at h
        exact absurd (h.1 ▸ List.mem_cons_self) hz
  | succ m ih =>
    cases n with
    | zero =>
      cases word with
      | nil => exact absurd rfl hne
      | cons c word =>
        simp only [List.replicate_succ,List.replicate_zero,List.nil_append,List.cons_append,
          List.cons.injEq] at h
        exact absurd (h.1 ▸ List.mem_cons_self) hz
    | succ n =>
      simp only [List.replicate_succ,List.cons_append,List.cons.injEq,true_and] at h
      obtain ⟨hmn,hxy⟩ := ih h
      exact ⟨congrArg _ hmn,hxy⟩

/-- Where the filler fills the gaps and nothing else, the first gap is read off. -/
theorem Linked.head_gap {link : Link} {k : Nat} {rest : List UInt8}
    (hz : ∀ l ∈ link :: links, z ∉ l.word) (hne : link.word ≠ [])
    (hrest : rest.countP (· ≠ z) = weight links)
    (h : Linked (link :: links) (List.replicate k z ++ link.word ++ rest)) :
    link.low ≤ k ∧ k ≤ link.high ∧ Linked links rest := by
  obtain ⟨gap,rest',heq,hlow,hhigh,hrest'⟩ := h
  have hword := hz link List.mem_cons_self
  have hle := hrest'.weight_le fun l hl => hz l (List.mem_cons_of_mem _ hl)
  have hcount := congrArg (List.countP (· ≠ z)) heq
  simp only [List.countP_append,countP_word hword,hrest] at hcount
  have hfill : (List.replicate k z).countP (· ≠ z) = 0 := by simp [List.countP_replicate]
  have hgap : gap = List.replicate gap.length z := by
    rw [List.eq_replicate_iff]
    refine ⟨rfl,fun c hc => ?_⟩
    have hzero : gap.countP (· ≠ z) = 0 := by omega
    have := List.countP_eq_zero.mp hzero c hc
    simpa using this
  rw [hgap] at heq
  obtain ⟨hk,hsame⟩ := replicate_append_inj hne hword heq
  subst hk
  exact ⟨hlow,hhigh,hsame ▸ hrest'⟩

/-- The gaps can be as short as their bounds allow and be filled with one byte. -/
theorem exists_linked (hz : ∀ link ∈ links, z ∉ link.word)
    (hle : ∀ link ∈ links, link.low ≤ link.high) :
    ∃ bytes, Linked links bytes ∧ bytes.countP (· ≠ z) = weight links := by
  induction links with
  | nil => exact ⟨[],rfl,rfl⟩
  | cons link links ih =>
    obtain ⟨rest,hrest,hcount⟩ := ih (fun l hl => hz l (List.mem_cons_of_mem _ hl))
      fun l hl => hle l (List.mem_cons_of_mem _ hl)
    have hlow := hle link List.mem_cons_self
    refine ⟨List.replicate link.low z ++ link.word ++ rest,
      ⟨_,rest,rfl,by simp,by simpa using hlow,hrest⟩,?_⟩
    have hfill : (List.replicate link.low z).countP (· ≠ z) = 0 := by simp [List.countP_replicate]
    simp only [List.countP_append,hfill,countP_word (hz link List.mem_cons_self),hcount,weight,
      List.map_cons,List.sum_cons,zero_add]

variable {α : Type} {word : α → List UInt8} {low high high' : α → Nat} {xs : List α}

/-- A row that takes every byte string of another with the same words and lower bounds has no
smaller upper bound. -/
theorem high_le_of_linked (hz : ∀ x ∈ xs, z ∉ word x) (hne : ∀ x ∈ xs, word x ≠ [])
    (hle : ∀ x ∈ xs, low x ≤ high x)
    (h : ∀ bytes, bytes.countP (· ≠ z) = weight (xs.map fun x => ⟨low x,high x,word x⟩) →
      Linked (xs.map fun x => ⟨low x,high x,word x⟩) bytes →
        Linked (xs.map fun x => ⟨low x,high' x,word x⟩) bytes) :
    ∀ x ∈ xs, high x ≤ high' x := by
  induction xs with
  | nil => simp
  | cons x xs ih =>
    have hfill : ∀ k, (List.replicate k z).countP (· ≠ z) = 0 := by simp [List.countP_replicate]
    have hweight : weight (xs.map fun x => ⟨low x,high x,word x⟩) =
        weight (xs.map fun x => ⟨low x,high' x,word x⟩) := by simp [weight,Function.comp_def]
    have hstep : ∀ k rest, low x ≤ k → k ≤ high x →
        rest.countP (· ≠ z) = weight (xs.map fun x => ⟨low x,high x,word x⟩) →
        Linked (xs.map fun x => ⟨low x,high x,word x⟩) rest →
        k ≤ high' x ∧ Linked (xs.map fun x => ⟨low x,high' x,word x⟩) rest := by
      intro k rest hlow hhigh hcount hrest
      have htaken := h (List.replicate k z ++ word x ++ rest)
        (by simp only [List.countP_append,hfill,countP_word (hz x List.mem_cons_self),hcount,weight,
              List.map_cons,List.sum_cons,zero_add])
        ⟨_,rest,rfl,by simpa using hlow,by simpa using hhigh,hrest⟩
      have hhead := Linked.head_gap (z := z) (by simpa using hz) (hne x List.mem_cons_self)
        (hcount.trans hweight) htaken
      exact hhead.2
    obtain ⟨rest,hrest,hcount⟩ : ∃ rest,
        Linked (xs.map fun x => ⟨low x,high x,word x⟩) rest ∧
          rest.countP (· ≠ z) = weight (xs.map fun x => ⟨low x,high x,word x⟩) :=
      exists_linked (by simpa using fun y hy => hz y (List.mem_cons_of_mem _ hy))
        (by simpa using fun y hy => hle y (List.mem_cons_of_mem _ hy))
    intro y hy
    rcases List.mem_cons.mp hy with rfl | hy
    · exact (hstep (high y) rest (hle y List.mem_cons_self) le_rfl hcount hrest).1
    · refine ih (fun y hy => hz y (List.mem_cons_of_mem _ hy))
        (fun y hy => hne y (List.mem_cons_of_mem _ hy))
        (fun y hy => hle y (List.mem_cons_of_mem _ hy)) (fun bytes htight hlinked => ?_) y hy
      exact (hstep (low x) bytes le_rfl (hle x List.mem_cons_self) htight hlinked).2

/-- Two rows that differ in their upper bounds alone take the same byte strings only if they
do not differ. -/
theorem linked_iff_high (hz : ∀ x ∈ xs, z ∉ word x) (hne : ∀ x ∈ xs, word x ≠ [])
    (hle : ∀ x ∈ xs, low x ≤ high x) (hle' : ∀ x ∈ xs, low x ≤ high' x) :
    (∀ bytes, Linked (xs.map fun x => ⟨low x,high x,word x⟩) bytes ↔
        Linked (xs.map fun x => ⟨low x,high' x,word x⟩) bytes) ↔ ∀ x ∈ xs, high x = high' x := by
  constructor
  · intro h x hx
    apply le_antisymm
    · exact high_le_of_linked hz hne hle (fun bytes _ => (h bytes).mp) x hx
    · exact high_le_of_linked hz hne hle' (fun bytes _ => (h bytes).mpr) x hx
  · intro h bytes
    have hsame : (xs.map fun x => (⟨low x,high x,word x⟩ : Link)) =
        xs.map fun x => ⟨low x,high' x,word x⟩ :=
      List.map_congr_left fun x hx => by rw [h x hx]
    rw [hsame]

end Links

end Pattern

end Aethon.Framework
