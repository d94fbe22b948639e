import Aethon.Dpi.Modifiers

/-!
# Rule text

The options of a rule as its author means them, how they are printed, and how `parse_rule_line`
cuts the printed text. Quotes, semicolons and backslashes in a quoted value are escaped by a
backslash.
-/

namespace Aethon.Dpi

open Framework Framework.Pattern

section Syntax

def mustEscape (c : UInt8) : Bool := c = quote || c = semicolon || c = backslash

def escapeText (text : Text) : Text :=
  text.flatMap fun c => if mustEscape c then [backslash,c] else [c]

/-- The position modifiers of a content. -/
inductive Position where
  | depth
  | offset
  | distance
  | within
  deriving DecidableEq, Repr

def Position.key : Position → Text
  | .depth => ascii "depth"
  | .offset => ascii "offset"
  | .distance => ascii "distance"
  | .within => ascii "within"

def intText (n : Int) : Text := if n < 0 then minus :: decimal n.natAbs else decimal n.toNat

/-- An option: those that make up the pattern part and the signature id, and any other keyword
without a value, with a plain value or with a quoted one. -/
inductive RuleOption where
  | content (negated : Bool) (text : Text)
  | nocase
  | position (field : Position) (value : Int)
  | sid (value : UInt32)
  | bare (key : Text)
  | plain (key value : Text)
  | quoted (key text : Text)
  deriving DecidableEq, Repr

def RuleOption.key : RuleOption → Text
  | .content _ _ => ascii "content"
  | .nocase => ascii "nocase"
  | .position field _ => field.key
  | .sid _ => ascii "sid"
  | .bare key => key
  | .plain key _ => key
  | .quoted key _ => key

/-- The value as it is printed. -/
def RuleOption.val : RuleOption → Text
  | .content negated text =>
      (if negated then [bang] else []) ++ quote :: escapeText text ++ [quote]
  | .nocase => []
  | .position _ value => intText value
  | .sid value => decimal value.toNat
  | .bare _ => []
  | .plain _ value => value
  | .quoted _ text => quote :: escapeText text ++ [quote]

def RuleOption.isBare : RuleOption → Bool
  | .nocase => true
  | .bare _ => true
  | _ => false

def RuleOption.print (o : RuleOption) : Text :=
  if o.isBare then o.key else o.key ++ colon :: o.val

/-- What stands between the options behind the semicolon, and whether the last option is followed
by a semicolon as well. -/
structure Layout where
  pad : Text
  closing : Bool
  pad_skipped : ∀ c ∈ pad, isSkipped c = true

def printOptions (layout : Layout) : List RuleOption → Text
  | [] => []
  | [o] => o.print ++ if layout.closing then semicolon :: layout.pad else []
  | o :: o' :: opts => o.print ++ semicolon :: layout.pad ++ printOptions layout (o' :: opts)

def isKeyChar (c : UInt8) : Bool := isAlnum c || c = 0x5f || c = 0x2e || c = minus

/-- A keyword that is not one of the pattern part. -/
structure OtherKey (key : Text) : Prop where
  ne_nil : key ≠ []
  chars : ∀ c ∈ key, isKeyChar c = true
  other : optionKey key ∉ [.content,.nocase,.depth,.offset,.distance,.within,.sid]

/-- A text neither starts nor ends with a blank. -/
structure NoBlankEnds (s : Text) : Prop where
  head : ∀ c ∈ s.head?, isBlank c = false
  last : ∀ c ∈ s.getLast?, isBlank c = false

def RuleOption.WellFormed : RuleOption → Prop
  | .content _ _ => True
  | .nocase => True
  | .position _ value => -2 ^ 31 ≤ value ∧ value ≤ 2 ^ 31 - 1
  | .sid _ => True
  | .bare key => OtherKey key
  | .plain key value =>
      OtherKey key ∧ NoBlankEnds value ∧ quote ∉ value ∧ semicolon ∉ value
  | .quoted key _ => OtherKey key

/-- The text between the quotes, if the value is quoted. -/
def RuleOption.quotedText : RuleOption → Option Text
  | .content _ text => some text
  | .quoted _ text => some text
  | _ => none

/-- No quoted text ends in a backslash. -/
def RuleOption.Closed (o : RuleOption) : Prop :=
  ∀ text ∈ o.quotedText, text.getLast? ≠ some backslash

end Syntax

section Scan

/-- The scan of an option goes through a text from one state to another without ending. -/
def Scans (s : Text) (escaped insideQuote escaped' insideQuote' : Bool) : Prop :=
  ∀ rest, scanOption escaped insideQuote (s ++ rest) =
    (s ++ (scanOption escaped' insideQuote' rest).1,(scanOption escaped' insideQuote' rest).2)

theorem Scans.nil (escaped insideQuote : Bool) : Scans [] escaped insideQuote escaped insideQuote :=
  fun _ => rfl

theorem Scans.append {s t : Text} {a b a' b' a'' b'' : Bool} (hs : Scans s a b a' b')
    (ht : Scans t a' b' a'' b'') : Scans (s ++ t) a b a'' b'' := by
  intro rest
  rw [List.append_assoc,hs,ht,List.append_assoc]

theorem Scans.toggle {insideQuote : Bool} : Scans [quote] false insideQuote false (!insideQuote) := by
  intro rest
  simp [scanOption]

theorem Scans.escapedQuote {insideQuote : Bool} : Scans [quote] true insideQuote false insideQuote := by
  intro rest
  have hslash : ¬quote = backslash := by decide
  have hsemi : ¬quote = semicolon := by decide
  simp [scanOption,hslash,hsemi]

/-- Other characters leave the quotes as they are; a semicolon is passed inside quotes only. -/
theorem Scans.char {c : UInt8} {insideQuote : Bool} (hquote : c ≠ quote)
    (hsemi : c = semicolon → insideQuote = true) (escaped : Bool) :
    Scans [c] escaped insideQuote (c = backslash) insideQuote := by
  intro rest
  have hcond : ¬(c = semicolon ∧ (!insideQuote) = true) := by
    rintro ⟨hc,hin⟩
    simp [hsemi hc] at hin
  rw [List.singleton_append,scanOption,if_neg (by simp [hquote]),if_neg hcond]
  rfl

theorem Scans.text {s : Text} {insideQuote : Bool} (hquote : quote ∉ s)
    (hsemi : semicolon ∈ s → insideQuote = true) (escaped : Bool) :
    ∃ escaped', Scans s escaped insideQuote escaped' insideQuote := by
  induction s generalizing escaped with
  | nil => exact ⟨escaped,Scans.nil _ _⟩
  | cons c s ih =>
    rw [List.mem_cons,not_or] at hquote
    have hchar : Scans [c] escaped insideQuote (c = backslash) insideQuote :=
      Scans.char (Ne.symm hquote.1) (fun hc => hsemi (hc ▸ List.mem_cons_self)) escaped
    obtain ⟨escaped',hscan⟩ := ih hquote.2 (fun h => hsemi (List.mem_cons_of_mem _ h))
      (decide (c = backslash))
    exact ⟨escaped',hchar.append hscan⟩

/-- The look-behind after a text: whether its last character is a backslash. -/
def lastSlash (escaped : Bool) (text : Text) : Bool :=
  text.foldl (fun _ c => decide (c = backslash)) escaped

theorem lastSlash_false (text : Text) :
    lastSlash false text = true ↔ text.getLast? = some backslash := by
  induction text using List.reverseRecOn with
  | nil => simp [lastSlash]
  | append_singleton text c _ => simp [lastSlash]

/-- An escaped text is passed inside quotes; behind an escaped backslash the look-behind takes
the next character for an escaped one. -/
theorem Scans.escapeText (text : Text) (escaped : Bool) :
    Scans (Dpi.escapeText text) escaped true (lastSlash escaped text) true := by
  induction text generalizing escaped with
  | nil => exact Scans.nil _ _
  | cons c text ih =>
    have hslash : Scans [backslash] escaped true true true := Scans.char (by decide) (by simp) escaped
    have hchar : Scans (if mustEscape c then [backslash,c] else [c]) escaped true
        (decide (c = backslash)) true := by
      by_cases hc : c = quote
      · subst hc
        exact hslash.append Scans.escapedQuote
      · split
        · exact hslash.append (Scans.char hc (by simp) true)
        · exact Scans.char hc (by simp) escaped
    exact hchar.append (ih _)

/-- A quoted text is passed and closed, unless it ends in a backslash. -/
theorem Scans.quoted (text : Text) : Scans (quote :: Dpi.escapeText text ++ [quote]) false false false
    (decide (text.getLast? = some backslash)) := by
  have hopen : Scans (quote :: Dpi.escapeText text) false false (lastSlash false text) true :=
    Scans.toggle.append (Scans.escapeText text false)
  by_cases hlast : text.getLast? = some backslash
  · rw [(lastSlash_false text).mpr hlast] at hopen
    simpa [hlast] using hopen.append Scans.escapedQuote
  · have hfalse : lastSlash false text = false := by
      simpa using mt (lastSlash_false text).mp hlast
    rw [hfalse] at hopen
    simpa [hlast] using hopen.append Scans.toggle

end Scan

section Options

variable {o : RuleOption}

theorem RuleOption.WellFormed.key_chars (h : o.WellFormed) :
    o.key ≠ [] ∧ ∀ c ∈ o.key, isKeyChar c = true := by
  have hknown : ∀ k ∈ ["content","nocase","sid","depth","offset","distance","within"].map ascii,
      k ≠ [] ∧ ∀ c ∈ k, isKeyChar c = true := by decide +kernel
  cases o with
  | content => exact hknown _ (by simp [RuleOption.key])
  | nocase => exact hknown _ (by simp [RuleOption.key])
  | position field value => cases field <;> exact hknown _ (by simp [RuleOption.key,Position.key])
  | sid => exact hknown _ (by simp [RuleOption.key])
  | bare key => exact ⟨h.ne_nil,h.chars⟩
  | plain key value => exact ⟨h.1.ne_nil,h.1.chars⟩
  | quoted key text => exact ⟨h.ne_nil,h.chars⟩

theorem notMem_key {key : Text} (h : ∀ c ∈ key, isKeyChar c = true) {c : UInt8}
    (hc : isKeyChar c = false) : c ∉ key :=
  fun hmem => absurd (h c hmem) (by simp [hc])

theorem intText_chars (n : Int) : ∀ c ∈ intText n, isDigit c = true ∨ c = minus := by
  unfold intText
  split
  · intro c hc
    rcases List.mem_cons.mp hc with rfl | hc
    · exact .inr rfl
    · exact .inl (decimal_isDigit _ c hc)
  · exact fun c hc => .inl (decimal_isDigit _ c hc)

theorem notMem_intText (n : Int) {c : UInt8} (hdigit : isDigit c = false) (hminus : c ≠ minus) :
    c ∉ intText n := fun hmem => by
  rcases intText_chars n c hmem with h | h
  · simp [hdigit] at h
  · exact hminus h

/-- The quotes of an option are left open. -/
def RuleOption.isOpen (o : RuleOption) : Bool :=
  o.quotedText.any fun text => text.getLast? = some backslash

theorem RuleOption.closed_iff : o.Closed ↔ o.isOpen = false := by
  unfold RuleOption.Closed RuleOption.isOpen
  cases o.quotedText <;> simp

/-- The scan passes the printed value of an option. -/
theorem RuleOption.WellFormed.scans_val (h : o.WellFormed) :
    ∃ escaped, Scans o.val false false escaped o.isOpen := by
  cases o with
  | content negated text =>
    have hbang : Scans [bang] false false false false := Scans.char (by decide) (by decide) false
    cases negated with
    | true => exact ⟨false,hbang.append (Scans.quoted text)⟩
    | false => exact ⟨false,Scans.quoted text⟩
  | nocase => exact ⟨false,Scans.nil _ _⟩
  | position field value =>
    exact Scans.text (notMem_intText value (by decide) (by decide))
      (fun hmem => (notMem_intText value (by decide) (by decide) hmem).elim) false
  | sid value =>
    have hchars : ∀ c, isDigit c = false → c ∉ decimal value.toNat := fun c hc hmem =>
      absurd (decimal_isDigit _ c hmem) (by simp [hc])
    exact Scans.text (hchars _ (by decide)) (fun hmem => (hchars _ (by decide) hmem).elim) false
  | bare key => exact ⟨false,Scans.nil _ _⟩
  | plain key value =>
    exact Scans.text h.2.2.1 (fun hmem => (h.2.2.2 hmem).elim) false
  | quoted key text => exact ⟨false,Scans.quoted text⟩

theorem RuleOption.WellFormed.scans (h : o.WellFormed) :
    ∃ escaped, Scans o.print false false escaped o.isOpen := by
  obtain ⟨_,hchars⟩ := h.key_chars
  obtain ⟨e,hkey⟩ : ∃ e, Scans o.key false false e false :=
    Scans.text (notMem_key hchars (by decide))
      (fun hmem => (notMem_key hchars (by decide) hmem).elim) false
  unfold RuleOption.print
  split
  · rename_i hbare
    have hopen : o.isOpen = false := by cases o <;> first | rfl | simp [RuleOption.isBare] at hbare
    rw [hopen]
    exact ⟨e,hkey⟩
  · obtain ⟨e',hval⟩ := h.scans_val
    have hcolon : Scans [colon] e false false false := Scans.char (by decide) (by decide) e
    exact ⟨e',hkey.append (hcolon.append hval)⟩

theorem NoBlankEnds.trim_eq {s : Text} (h : NoBlankEnds s) : trim s = s := by
  have hdrop : s.dropWhile isBlank = s := by
    cases s with
    | nil => rfl
    | cons c s => simp [h.head c rfl]
  rw [trim,hdrop,List.rdropWhile_eq_self_iff]
  intro hne
  simp [h.last _ (List.getLast?_eq_some_getLast hne)]

/-- A character of a class without blanks is no blank. -/
theorem isBlank_of_class {p : UInt8 → Bool} {c : UInt8} (hspace : p space = false)
    (htab : p tab = false) (hc : p c = true) : isBlank c = false := by
  have h1 : c ≠ space := fun heq => by simp [heq,hspace] at hc
  have h2 : c ≠ tab := fun heq => by simp [heq,htab] at hc
  simp [isBlank,h1,h2]

theorem isBlank_keyChar {c : UInt8} (hc : isKeyChar c = true) : isBlank c = false :=
  isBlank_of_class (by decide) (by decide) hc

theorem isBlank_digit {c : UInt8} (hc : isDigit c = true) : isBlank c = false :=
  isBlank_of_class (by decide) (by decide) hc

theorem noBlankEnds_of_forall {s : Text} (h : ∀ c ∈ s, isBlank c = false) : NoBlankEnds s where
  head c hc := h c (List.mem_of_mem_head? hc)
  last c hc := h c (List.mem_of_mem_getLast? hc)

theorem noBlankEnds_quoted (text : Text) : NoBlankEnds (quote :: escapeText text ++ [quote]) where
  head c hc := by
    cases (Option.some.inj hc : quote = c)
    decide
  last c hc := by
    rw [List.getLast?_append_of_ne_nil _ (by simp)] at hc
    cases (Option.some.inj hc : quote = c)
    decide

/-- The printed value has no blank at its ends. -/
theorem RuleOption.WellFormed.val_ends (h : o.WellFormed) : NoBlankEnds o.val := by
  cases o with
  | content negated text =>
    cases negated with
    | false => exact noBlankEnds_quoted text
    | true =>
      refine ⟨fun c hc => ?_,fun c hc => (noBlankEnds_quoted text).last c ?_⟩
      · cases (Option.some.inj hc : bang = c)
        decide
      · rwa [RuleOption.val,if_pos rfl,List.append_assoc,
          List.getLast?_append_of_ne_nil _ (by simp)] at hc
  | nocase => exact noBlankEnds_of_forall (by simp [RuleOption.val])
  | position field value =>
    refine noBlankEnds_of_forall fun c hc => ?_
    rcases intText_chars value c hc with h | rfl
    · exact isBlank_digit h
    · decide
  | sid value => exact noBlankEnds_of_forall fun c hc => isBlank_digit (decimal_isDigit _ c hc)
  | bare key => exact noBlankEnds_of_forall (by simp [RuleOption.val])
  | plain key value => exact h.2.1
  | quoted key text => exact noBlankEnds_quoted text

theorem RuleOption.WellFormed.print_ends (h : o.WellFormed) : NoBlankEnds o.print := by
  obtain ⟨hne,hchars⟩ := h.key_chars
  have hkey : NoBlankEnds o.key := noBlankEnds_of_forall fun c hc => isBlank_keyChar (hchars c hc)
  unfold RuleOption.print
  split
  · exact hkey
  · refine ⟨fun c hc => hkey.head c ?_,fun c hc => ?_⟩
    · rwa [List.head?_append_of_ne_nil _ hne] at hc
    · rw [List.getLast?_append_of_ne_nil _ (by simp)] at hc
      by_cases hval : o.val = []
      · rw [hval] at hc
        cases (Option.some.inj hc : colon = c)
        decide
      · rw [List.getLast?_cons_of_ne_nil hval] at hc
        exact h.val_ends.last c hc

theorem before_append {c : UInt8} {s : Text} (h : c ∉ s) (rest : Text) :
    before c (s ++ c :: rest) = s := by
  rw [before,List.takeWhile_append_of_pos fun d hd => by
    simpa using fun heq : d = c => h (heq ▸ hd)]
  simp

theorem behind_append {c : UInt8} {s : Text} (h : c ∉ s) (rest : Text) :
    behind c (s ++ c :: rest) = rest := by
  rw [behind,List.dropWhile_append_of_pos fun d hd => by
    simpa using fun heq : d = c => h (heq ▸ hd)]
  simp

theorem keyVal_append {key : Text} (hkey : ∀ c ∈ key, isKeyChar c = true) (val : Text) :
    keyVal (key ++ colon :: val) = (key,val.dropWhile (· = space)) := by
  have hcolon : colon ∉ key := notMem_key hkey (by decide)
  have hspace : key.rdropWhile (· = space) = key := by
    rw [List.rdropWhile_eq_self_iff]
    intro hne
    simpa using fun heq : key.getLast hne = space =>
      notMem_key hkey (by decide) (heq ▸ List.getLast_mem hne)
  rw [keyVal,before_append hcolon,behind_append hcolon,hspace]

/-- The splitter recovers key and value. -/
theorem RuleOption.WellFormed.keyVal_print (h : o.WellFormed) : keyVal o.print = (o.key,o.val) := by
  obtain ⟨_,hchars⟩ := h.key_chars
  unfold RuleOption.print
  split
  · rename_i hbare
    have hval : o.val = [] := by cases o <;> first | rfl | simp [RuleOption.isBare] at hbare
    have hcolon : colon ∉ o.key := notMem_key hchars (by decide)
    have hspace : space ∉ o.key := notMem_key hchars (by decide)
    have hbefore : before colon o.key = o.key := by
      rw [before,List.takeWhile_eq_self_iff]
      exact fun c hc => by simpa using fun heq : c = colon => hcolon (heq ▸ hc)
    have hbehind : behind colon o.key = [] := by
      rw [behind,List.dropWhile_eq_nil_iff.mpr fun c hc => by
        simpa using fun heq : c = colon => hcolon (heq ▸ hc)]
      rfl
    rw [keyVal,hbefore,hbehind,hval,List.dropWhile_nil,Prod.mk.injEq]
    refine ⟨?_,rfl⟩
    rw [List.rdropWhile_eq_self_iff]
    intro hne
    simpa using fun heq : o.key.getLast hne = space => hspace (heq ▸ List.getLast_mem hne)
  · rw [keyVal_append hchars,Prod.mk.injEq]
    refine ⟨rfl,?_⟩
    cases hval : o.val with
    | nil => rfl
    | cons c val =>
      have hblank := h.val_ends.head c (by rw [hval]; rfl)
      have hc : c ≠ space := fun heq => by simp [heq,isBlank] at hblank
      simp [hc]

/-- An option that is closed is cut off at the semicolon behind it, or at the end. -/
theorem RuleOption.WellFormed.scanOption_print (h : o.WellFormed) (hclosed : o.Closed)
    (rest : Text) : scanOption false false (o.print ++ semicolon :: rest) = (o.print,rest) ∧
      scanOption false false o.print = (o.print,[]) := by
  obtain ⟨escaped,hscan⟩ := h.scans
  rw [RuleOption.closed_iff.mp hclosed] at hscan
  constructor
  · have hquote : ¬semicolon = quote := by decide
    rw [hscan]
    simp [scanOption,hquote]
  · have hend := hscan []
    simpa [scanOption] using hend

theorem RuleOption.WellFormed.print_cons (h : o.WellFormed) :
    ∃ c s, o.print = c :: s ∧ isSkipped c = false := by
  obtain ⟨hne,hchars⟩ := h.key_chars
  obtain ⟨c,s,hkey⟩ := List.exists_cons_of_ne_nil hne
  have hc : isKeyChar c = true := hchars c (by simp [hkey])
  have hsemi : c ≠ semicolon := fun heq => absurd hc (by rw [heq]; decide)
  have hskip : isSkipped c = false := by simp [isSkipped,isBlank_keyChar hc,hsemi]
  unfold RuleOption.print
  split
  · exact ⟨c,s,hkey,hskip⟩
  · exact ⟨c,s ++ colon :: o.val,by rw [hkey]; rfl,hskip⟩

theorem dropWhile_skipped {pad : Text} (hpad : ∀ c ∈ pad, isSkipped c = true) (rest : Text) :
    (pad ++ rest).dropWhile isSkipped = rest.dropWhile isSkipped :=
  List.dropWhile_append_of_pos hpad

/-- One round of the option loop over a printed option. -/
theorem splitOptions_step (h : o.WellFormed) {pad rest rest' : Text}
    (hpad : ∀ c ∈ pad, isSkipped c = true)
    (hscan : scanOption false false (o.print ++ rest) = (o.print,rest')) (fuel : Nat) :
    splitOptions (fuel + 1) (pad ++ (o.print ++ rest)) =
      (o.key,o.val) :: splitOptions fuel rest' := by
  obtain ⟨c,s,hprint,hskip⟩ := h.print_cons
  have hdrop : (pad ++ (o.print ++ rest)).dropWhile isSkipped = o.print ++ rest := by
    rw [dropWhile_skipped hpad,hprint]
    simp [hskip]
  have hne : o.print ≠ [] := by simp [hprint]
  simp only [splitOptions,hdrop]
  split
  · rename_i hnil
    simp [hne] at hnil
  · rw [hscan]
    simp only [h.print_ends.trim_eq,hne,if_false,h.keyVal_print]

theorem splitOptions_skipped {pad : Text} (hpad : ∀ c ∈ pad, isSkipped c = true) (fuel : Nat) :
    splitOptions fuel pad = [] := by
  cases fuel with
  | zero => rfl
  | succ fuel => simp [splitOptions,List.dropWhile_eq_nil_iff.mpr hpad]

/-- Closed options are cut as they were printed. -/
theorem splitOptions_print (layout : Layout) {opts : List RuleOption}
    (hwf : ∀ o ∈ opts, o.WellFormed) (hclosed : ∀ o ∈ opts, o.Closed) {fuel : Nat}
    (hfuel : opts.length ≤ fuel) {pad : Text} (hpad : ∀ c ∈ pad, isSkipped c = true) :
    splitOptions fuel (pad ++ printOptions layout opts) = opts.map fun o => (o.key,o.val) := by
  induction opts using printOptions.induct generalizing fuel pad with
  | case1 => simpa [printOptions] using splitOptions_skipped hpad fuel
  | case2 o =>
    obtain ⟨fuel,rfl⟩ := Nat.exists_eq_add_of_le' (show 1 ≤ fuel from hfuel)
    have hscan := (hwf o List.mem_cons_self).scanOption_print (hclosed o List.mem_cons_self)
    simp only [printOptions,List.map_cons,List.map_nil]
    split
    · rw [splitOptions_step (hwf o List.mem_cons_self) hpad (hscan layout.pad).1,
        splitOptions_skipped layout.pad_skipped]
    · rw [splitOptions_step (hwf o List.mem_cons_self) hpad
        (by rw [List.append_nil]; exact (hscan []).2),splitOptions_skipped (by simp)]
  | case3 o o' opts ih =>
    obtain ⟨fuel,rfl⟩ := Nat.exists_eq_add_of_le' (show 1 ≤ fuel by
      rw [List.length_cons] at hfuel; omega)
    have hscan := (hwf o List.mem_cons_self).scanOption_print (hclosed o List.mem_cons_self)
      (layout.pad ++ printOptions layout (o' :: opts))
    have hrest : splitOptions fuel (layout.pad ++ printOptions layout (o' :: opts)) =
        (o' :: opts).map fun o => (o.key,o.val) :=
      ih (fun x hx => hwf x (List.mem_cons_of_mem _ hx))
        (fun x hx => hclosed x (List.mem_cons_of_mem _ hx))
        (by rw [List.length_cons] at hfuel; omega) layout.pad_skipped
    rw [printOptions,List.append_assoc,List.cons_append,
      splitOptions_step (hwf o List.mem_cons_self) hpad hscan.1,hrest]
    rfl

end Options

end Aethon.Dpi
