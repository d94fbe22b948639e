import Aethon.Dpi.RuleText

/-!
# The round trip of rule text

A rule is printed and parsed again. The pattern part comes back for options whose contents need
no escape and whose quoted texts do not end in a backslash; an option of any other kind breaks
some rule that it stands in.
-/

namespace Aethon.Dpi

open Framework Framework.Pattern

section Header

/-- The seven parts of a rule header. -/
structure Header where
  action : Text
  protocol : Text
  srcIp : Text
  srcPort : Text
  direction : Text
  dstIp : Text
  dstPort : Text

def Header.tokens (h : Header) : List Text :=
  [h.action,h.protocol,h.srcIp,h.srcPort,h.direction,h.dstIp,h.dstPort]

structure Header.WellFormed (h : Header) : Prop where
  action : (parseAction h.action).isSome = true
  protocol : (parseProtocol h.protocol).isSome = true
  token : ∀ token ∈ h.tokens, token ≠ [] ∧ openParen ∉ token ∧ ∀ c ∈ token, isBlank c = false

/-- Each part is followed by a space. -/
def Header.print (h : Header) : Text := h.tokens.flatMap fun token => token ++ [space]

theorem headerTokens_print {tokens : List Text}
    (h : ∀ token ∈ tokens, token ≠ [] ∧ ∀ c ∈ token, isBlank c = false) {fuel : Nat}
    (hfuel : tokens.length ≤ fuel) {pad : Text} (hpad : ∀ c ∈ pad, isBlank c = true) :
    headerTokens fuel (pad ++ tokens.flatMap fun token => token ++ [space]) = tokens := by
  induction tokens generalizing fuel pad with
  | nil =>
    cases fuel with
    | zero => rfl
    | succ fuel => simp [headerTokens,List.dropWhile_eq_nil_iff.mpr hpad]
  | cons token tokens ih =>
    obtain ⟨fuel,rfl⟩ := Nat.exists_eq_add_of_le' (show 1 ≤ fuel by
      rw [List.length_cons] at hfuel; omega)
    obtain ⟨hne,hchars⟩ := h token List.mem_cons_self
    have hspan : ∀ c ∈ token, (!isBlank c) = true := fun c hc => by simp [hchars c hc]
    have hblank : isBlank space = true := rfl
    have hrest : headerTokens fuel ([space] ++ tokens.flatMap fun token => token ++ [space]) =
        tokens :=
      ih (fun t ht => h t (List.mem_cons_of_mem _ ht))
        (by rw [List.length_cons] at hfuel; omega) (by simp [hblank])
    have hdrop : (pad ++ (token :: tokens).flatMap fun token => token ++ [space]).dropWhile isBlank =
        token ++ ([space] ++ tokens.flatMap fun token => token ++ [space]) := by
      rw [List.dropWhile_append_of_pos hpad,List.flatMap_cons,List.append_assoc]
      obtain ⟨c,s,hcons⟩ := List.exists_cons_of_ne_nil hne
      rw [hcons] at hchars ⊢
      simp [hchars c List.mem_cons_self]
    simp only [headerTokens,hdrop]
    split
    · rename_i hnil
      simp [hne] at hnil
    · rw [List.takeWhile_append_of_pos hspan,List.dropWhile_append_of_pos hspan]
      simp only [List.cons_append,List.nil_append,hblank,Bool.not_true,List.takeWhile_cons,
        List.dropWhile_cons,Bool.false_eq_true,if_false,List.append_nil]
      exact congrArg _ hrest

/-- A well formed header gives a rule without patterns. -/
theorem parseHeader_print {h : Header} (hwf : h.WellFormed) :
    ∃ rule, parseHeader h.print = some rule ∧ rule.contents = [] ∧ rule.sid = 0 ∧
      rule.hasPcre = false := by
  obtain ⟨action,haction⟩ := Option.isSome_iff_exists.mp hwf.action
  obtain ⟨protocol,hprotocol⟩ := Option.isSome_iff_exists.mp hwf.protocol
  have hlen : h.tokens.length ≤ h.print.length := by
    simp only [Header.tokens,Header.print,List.flatMap_cons,List.length_append,List.length_cons,
      List.length_nil]
    omega
  have htokens : headerTokens h.print.length ([] ++ h.print) = h.tokens :=
    headerTokens_print (fun t ht => ⟨(hwf.token t ht).1,(hwf.token t ht).2.2⟩) hlen (by simp)
  rw [List.nil_append] at htokens
  refine ⟨{ action, protocol, srcPort := parsePortRange h.srcPort,
            dstPort := parsePortRange h.dstPort },?_,rfl,rfl,rfl⟩
  simp only [parseHeader,htokens,Header.tokens,haction,hprotocol]
  rfl

end Header

section Line

/-- A rule line: the header and the options in parentheses. -/
def printLine (h : Header) (layout : Layout) (opts : List RuleOption) : Text :=
  h.print ++ openParen :: printOptions layout opts ++ [closeParen]

/-- The parser finds header and options of a printed line. -/
theorem parseRuleLine_print {h : Header} (hwf : h.WellFormed) (layout : Layout)
    (opts : List RuleOption) :
    ∃ header : AethonRule, header.contents = [] ∧ header.sid = 0 ∧ header.hasPcre = false ∧
      parseRuleLine (printLine h layout opts) =
        if (parseBody header (printOptions layout opts)).accepted then
          some (parseBody header (printOptions layout opts))
        else none := by
  obtain ⟨header,hheader,hcontents,hsid,hpcre⟩ := parseHeader_print hwf
  refine ⟨header,hcontents,hsid,hpcre,?_⟩
  have haction : ∀ token, (parseAction token).isSome = true →
      ∃ c s, token = c :: s ∧ isBlank c = false ∧ c ≠ hash := by
    intro token htoken
    simp only [parseAction] at htoken
    split_ifs at htoken with h1 h2 h3 h4
    · exact ⟨_,_,h1,by decide,by decide⟩
    · exact ⟨_,_,h2,by decide,by decide⟩
    · exact ⟨_,_,h3,by decide,by decide⟩
    · exact ⟨_,_,h4,by decide,by decide⟩
    · simp at htoken
  obtain ⟨c,s,htoken,hblank,hhash⟩ := haction _ hwf.action
  have hcons : ∃ rest, printLine h layout opts = c :: rest := by
    simp only [printLine,Header.print,Header.tokens,List.flatMap_cons,htoken]
    exact ⟨_,rfl⟩
  have hdrop : (printLine h layout opts).dropWhile isBlank = printLine h layout opts := by
    obtain ⟨rest,hrest⟩ := hcons
    simp [hrest,hblank]
  have hfirst : ¬(printLine h layout opts = [] ∨ (printLine h layout opts).head? = some hash) := by
    obtain ⟨rest,hrest⟩ := hcons
    simp [hrest,hhash]
  have hparen : openParen ∉ h.print := by
    simp only [Header.print,List.mem_flatMap,List.mem_append,List.mem_singleton,not_exists,not_and,
      not_or]
    exact fun token htoken => ⟨(hwf.token token htoken).2.1,by decide⟩
  have hline : printLine h layout opts =
      h.print ++ openParen :: (printOptions layout opts ++ [closeParen]) := by
    simp [printLine]
  have hbody : bodyOf (printLine h layout opts) = some (printOptions layout opts) := by
    have hrest : behind openParen (printLine h layout opts) =
        printOptions layout opts ++ [closeParen] := by rw [hline,behind_append hparen]
    have hmem : openParen ∈ printLine h layout opts := by simp [printLine]
    rw [bodyOf,hrest,if_pos ⟨hmem,by simp⟩,List.rdropWhile_concat_neg _ _ _ (by simp),
      List.dropLast_concat]
  have hbefore : before openParen (printLine h layout opts) = h.print := by
    rw [hline,before_append hparen]
  simp only [parseRuleLine,hdrop,if_neg hfirst,hbody,hbefore,hheader,bind,Option.bind]

end Line

section Pattern

/-- A content with the modifiers that belong to it. -/
structure ContentSpec where
  bytes : List UInt8
  negated : Bool
  nocase : Bool := false
  position : Position → Int := fun _ => -1

def ContentSpec.set (spec : ContentSpec) (field : Position) (value : Int) : ContentSpec :=
  { spec with position := fun f => if f = field then value else spec.position f }

/-- What an option means for the contents before it, where `bytes` is the reading of a text. -/
def RuleOption.extend (bytes : Text → List UInt8) (specs : List ContentSpec) :
    RuleOption → List ContentSpec
  | .content negated text => specs ++ [{ bytes := bytes text, negated }]
  | .nocase => modifyLast (fun spec => { spec with nocase := true }) specs
  | .position field value => modifyLast (·.set field value) specs
  | _ => specs

/-- The pattern part of a rule. -/
def patternPart (bytes : Text → List UInt8) (opts : List RuleOption) : List ContentSpec :=
  opts.foldl (RuleOption.extend bytes) []

def RuleOption.sidAfter (sid : UInt32) : RuleOption → UInt32
  | .sid value => value
  | _ => sid

/-- The last signature id. -/
def sidOf (opts : List RuleOption) : UInt32 := opts.foldl RuleOption.sidAfter 0

/-- The option is a regex between slashes. -/
def RuleOption.isPcre : RuleOption → Bool
  | .plain key value => key = ascii "pcre" && (splitPcre value).isSome
  | .quoted key text => key = ascii "pcre" && (splitPcre text).isSome
  | _ => false

def RuleContent.position (c : RuleContent) : Position → Int
  | .depth => c.depth
  | .offset => c.offset
  | .distance => c.distance
  | .within => c.within

/-- A parsed content is the one that is meant. -/
structure Denotes (c : RuleContent) (spec : ContentSpec) : Prop where
  pattern : read c.pattern = some (spec.bytes.map .byte)
  negated : c.isNegated = spec.negated
  nocase : c.nocase = spec.nocase
  position : ∀ field, c.position field = spec.position field

theorem forall₂_modifyLast {α β : Type} {R : α → β → Prop} {f : α → α} {g : β → β} {xs : List α}
    {ys : List β} (h : List.Forall₂ R xs ys) (hfg : ∀ x y, R x y → R (f x) (g y)) :
    List.Forall₂ R (modifyLast f xs) (modifyLast g ys) := by
  induction h with
  | nil => exact .nil
  | cons hxy hrest ih =>
    cases hrest with
    | nil => exact .cons (hfg _ _ hxy) .nil
    | cons hxy' hrest => exact .cons hxy ih

theorem modifyLast_id {α : Type} (xs : List α) : modifyLast id xs = xs := by
  induction xs using modifyLast.induct with
  | case1 => rfl
  | case2 x => rfl
  | case3 x y xs ih => rw [modifyLast,ih]

theorem unquote_quoted (s : Text) : unquote (quote :: (s ++ [quote])) = s := by
  have hlast : (quote :: (s ++ [quote])).getLast? = some quote := by
    rw [← List.cons_append,List.getLast?_append_of_ne_nil _ (by simp)]
    rfl
  rw [unquote,if_pos ⟨by simp,rfl,hlast⟩]
  simp

theorem parseContent_val (negated : Bool) (text : Text) :
    parseContent (RuleOption.content negated text).val =
      { pattern := normalizeContentToRegex (escapeText text), isNegated := negated } := by
  have hbang : quote ≠ bang := by decide
  cases negated with
  | true => simp [parseContent,RuleOption.val,unquote_quoted]
  | false => simp [parseContent,RuleOption.val,unquote_quoted,hbang]

theorem fromChars_decimal {least greatest : Int} {n : Nat} (hlow : least ≤ n)
    (hhigh : (n : Int) ≤ greatest) : fromChars least greatest (decimal n) = some (n : Int) := by
  have hminus : (decimal n).head? ≠ some minus := fun h =>
    absurd (decimal_isDigit n minus (List.mem_of_mem_head? h)) (by decide)
  have hdigits : (decimal n).takeWhile isDigit = decimal n :=
    List.takeWhile_eq_self_iff.mpr (decimal_isDigit n)
  simp [fromChars,hminus,hdigits,decimal_ne_nil,hlow,hhigh]

theorem fromCharsI32_intText {n : Int} (hlow : -2 ^ 31 ≤ n) (hhigh : n ≤ 2 ^ 31 - 1) :
    fromCharsI32 (intText n) = some n := by
  unfold intText fromCharsI32
  split
  · have hdigits : (decimal n.natAbs).takeWhile isDigit = decimal n.natAbs :=
      List.takeWhile_eq_self_iff.mpr (decimal_isDigit _)
    have habs : -(n.natAbs : Int) = n := by omega
    have hneg : decide ((-2 ^ 31 : Int) < 0 ∧ (minus :: decimal n.natAbs).head? = some minus) =
        true := by simp
    simp only [fromChars,hneg,if_true,List.tail_cons,hdigits,decimal_ne_nil,if_false,
      decimalValue_decimal,habs]
    exact if_pos ⟨hlow,hhigh⟩
  · rw [fromChars_decimal (by omega) (by omega)]
    congr 1
    omega

theorem fromCharsU32_decimal (n : UInt32) : fromCharsU32 (decimal n.toNat) = some n := by
  have hlt := n.toNat_lt
  rw [fromCharsU32,fromChars_decimal (by omega) (by omega)]
  simp

theorem splitPcre_escapeText (text : Text) :
    (splitPcre (escapeText text)).isSome = (splitPcre text).isSome := by
  have hmem : ∀ s : Text, slash ∈ escapeText s ↔ slash ∈ s := by
    intro s
    have hslash : slash ≠ backslash := by decide
    simp only [escapeText,List.mem_flatMap]
    constructor
    · rintro ⟨c,hc,hin⟩
      split at hin
      · simp only [List.mem_cons,hslash,List.not_mem_nil,or_false,false_or] at hin
        exact hin ▸ hc
      · exact List.mem_singleton.mp hin ▸ hc
    · intro h
      exact ⟨slash,h,by decide⟩
  cases text with
  | nil => rfl
  | cons c text =>
    by_cases hc : mustEscape c = true
    · have hne : c ≠ slash := by rintro rfl; exact absurd hc (by decide)
      have hb : backslash ≠ slash := by decide
      simp [escapeText,splitPcre,hc,hne,hb]
    · have := hmem text
      have hcons : escapeText (c :: text) = c :: escapeText text := by simp [escapeText,hc]
      rw [hcons]
      simp only [splitPcre,this]
      split <;> rfl

def RuleContent.setPosition (c : RuleContent) (field : Position) (value : Int) : RuleContent :=
  match field with
  | .depth => { c with depth := value }
  | .offset => { c with offset := value }
  | .distance => { c with distance := value }
  | .within => { c with within := value }

theorem RuleContent.setPosition_position (c : RuleContent) (field : Position) (value : Int)
    (g : Position) :
    (c.setPosition field value).position g = if g = field then value else c.position g := by
  cases field <;> cases g <;> rfl

theorem RuleContent.setPosition_frame (c : RuleContent) (field : Position) (value : Int) :
    (c.setPosition field value).pattern = c.pattern ∧
      (c.setPosition field value).isNegated = c.isNegated ∧
      (c.setPosition field value).nocase = c.nocase := by
  cases field <;> exact ⟨rfl,rfl,rfl⟩

theorem Denotes.set {c : RuleContent} {spec : ContentSpec} (h : Denotes c spec) (field : Position)
    (value : Int) : Denotes (c.setPosition field value) (spec.set field value) := by
  obtain ⟨hpattern,hnegated,hnocase⟩ := c.setPosition_frame field value
  refine ⟨hpattern ▸ h.pattern,hnegated ▸ h.negated,hnocase ▸ h.nocase,fun g => ?_⟩
  rw [c.setPosition_position,h.position]
  rfl

theorem applyOption_position (rule : AethonRule) (field : Position) (val : Text) :
    applyOption rule field.key val =
      rule.modifyContent (·.setPosition field ((fromCharsI32 val).getD (-1))) := by
  have hkeys : optionKey (ascii "depth") = .depth ∧ optionKey (ascii "offset") = .offset ∧
      optionKey (ascii "distance") = .distance ∧ optionKey (ascii "within") = .within := by decide
  cases field with
  | depth => simp only [applyOption,Position.key,hkeys.1]; rfl
  | offset => simp only [applyOption,Position.key,hkeys.2.1]; rfl
  | distance => simp only [applyOption,Position.key,hkeys.2.2.1]; rfl
  | within => simp only [applyOption,Position.key,hkeys.2.2.2]; rfl

theorem optionKey_pcre {key : Text} : optionKey key = .pcre ↔ key = ascii "pcre" := by
  have honly : ∀ entry ∈ optionNames, entry.2 = .pcre → entry.1 = "pcre" := by decide
  constructor
  · intro h
    unfold optionKey at h
    split at h
    · rename_i entry hfind
      have hname := honly entry (List.mem_of_find?_eq_some hfind) h
      have hkey := List.find?_some hfind
      rw [decide_eq_true_eq,hname] at hkey
      exact hkey.symm
    · cases h
  · rintro rfl
    decide

theorem applyMetadata_sid (rule : AethonRule) (items : List Text) :
    (items.foldl applyMetadata rule).sid = rule.sid ∧
      (items.foldl applyMetadata rule).hasPcre = rule.hasPcre := by
  induction items generalizing rule with
  | nil => exact ⟨rfl,rfl⟩
  | cons item items ih =>
    obtain ⟨h1,h2⟩ := ih (applyMetadata rule item)
    rw [List.foldl_cons,h1,h2]
    simp only [applyMetadata]
    split_ifs <;> exact ⟨rfl,rfl⟩

/-- A keyword of no pattern part leaves the contents as they are meant and the signature id. -/
theorem applyOption_other {key : Text} (h : OtherKey key) (val : Text) {rule : AethonRule}
    {specs : List ContentSpec} (hspecs : List.Forall₂ Denotes rule.contents specs) :
    List.Forall₂ Denotes (applyOption rule key val).contents specs ∧
      (applyOption rule key val).sid = rule.sid ∧
      (applyOption rule key val).hasPcre =
        (rule.hasPcre || (key = ascii "pcre" && (splitPcre (unquote val)).isSome)) := by
  have hfast : List.Forall₂ Denotes
      (rule.modifyContent fun c => { c with fastPattern := true }).contents specs := by
    have := forall₂_modifyLast (f := fun c : RuleContent => { c with fastPattern := true }) (g := id)
      hspecs fun c spec hd => ⟨hd.pattern,hd.negated,hd.nocase,fun field => by
        have := hd.position field
        cases field <;> exact this⟩
    rwa [modifyLast_id] at this
  have hother := h.other
  by_cases hpcre : key = ascii "pcre"
  · have hkey : optionKey (ascii "pcre") = .pcre := by decide
    subst hpcre
    simp only [applyOption,hkey,decide_true,Bool.true_and]
    cases splitPcre (unquote val) with
    | none => exact ⟨hspecs,rfl,by simp⟩
    | some r => exact ⟨hspecs,rfl,by simp⟩
  · have hne : optionKey key ≠ .pcre := mt optionKey_pcre.mp hpcre
    simp only [applyOption,hpcre,decide_false,Bool.false_and,Bool.or_false]
    cases hkey : optionKey key with
    | content => simp [hkey] at hother
    | nocase => simp [hkey] at hother
    | depth => simp [hkey] at hother
    | offset => simp [hkey] at hother
    | distance => simp [hkey] at hother
    | within => simp [hkey] at hother
    | sid => simp [hkey] at hother
    | pcre => exact absurd hkey hne
    | fastPattern => exact ⟨hfast,rfl,rfl⟩
    | reference =>
      dsimp only
      split_ifs <;> exact ⟨hspecs,rfl,rfl⟩
    | metadata => exact ⟨(applyMetadata_contents rule _).symm ▸ hspecs,applyMetadata_sid _ _⟩
    | _ => exact ⟨hspecs,rfl,rfl⟩

/-- What one printed option does to the rule. -/
theorem applyOption_print {o : RuleOption} (h : o.WellFormed) {rule : AethonRule}
    {specs : List ContentSpec} (hspecs : List.Forall₂ Denotes rule.contents specs) :
    List.Forall₂ Denotes (applyOption rule o.key o.val).contents
        (o.extend (fun text => contentBytes (escapeText text)) specs) ∧
      (applyOption rule o.key o.val).sid = o.sidAfter rule.sid ∧
      (applyOption rule o.key o.val).hasPcre = (rule.hasPcre || o.isPcre) := by
  have hkeys : optionKey (ascii "content") = .content ∧ optionKey (ascii "nocase") = .nocase ∧
      optionKey (ascii "sid") = .sid := by decide
  cases o with
  | content negated text =>
    simp only [applyOption,RuleOption.key,hkeys.1,parseContent_val]
    refine ⟨List.rel_append hspecs (.cons ⟨(reads_content _).read_eq,rfl,rfl,?_⟩ .nil),rfl,
      by simp [RuleOption.isPcre]⟩
    intro field
    cases field <;> rfl
  | nocase =>
    simp only [applyOption,RuleOption.key,hkeys.2.1]
    refine ⟨forall₂_modifyLast hspecs fun c spec hd => ⟨hd.pattern,hd.negated,rfl,fun field => ?_⟩,
      rfl,by simp [RuleOption.isPcre,AethonRule.modifyContent]⟩
    have := hd.position field
    cases field <;> exact this
  | position field value =>
    have hvalue : (fromCharsI32 (RuleOption.position field value).val).getD (-1) = value := by
      rw [RuleOption.val,fromCharsI32_intText h.1 h.2]
      rfl
    rw [RuleOption.key,applyOption_position,hvalue]
    exact ⟨forall₂_modifyLast hspecs fun c spec hd => hd.set field value,rfl,
      by simp [RuleOption.isPcre,AethonRule.modifyContent]⟩
  | sid value =>
    have hvalue : (fromCharsU32 (RuleOption.sid value).val).getD 0 = value := by
      rw [RuleOption.val,fromCharsU32_decimal]
      rfl
    simp only [applyOption,RuleOption.key,hkeys.2.2,hvalue]
    exact ⟨hspecs,rfl,by simp [RuleOption.isPcre]⟩
  | bare key =>
    obtain ⟨h1,h2,h3⟩ := applyOption_other h (RuleOption.bare key).val hspecs
    refine ⟨h1,h2,h3.trans ?_⟩
    have hnone : (splitPcre (unquote [])).isSome = false := by decide
    simp [RuleOption.isPcre,RuleOption.val,hnone]
  | plain key value =>
    obtain ⟨h1,h2,h3⟩ := applyOption_other h.1 (RuleOption.plain key value).val hspecs
    refine ⟨h1,h2,h3.trans ?_⟩
    have hunquote : unquote value = value := if_neg fun hq =>
      h.2.2.1 (List.mem_of_mem_head? hq.2.1)
    simp [RuleOption.isPcre,RuleOption.val,hunquote]
  | quoted key text =>
    obtain ⟨h1,h2,h3⟩ := applyOption_other h (RuleOption.quoted key text).val hspecs
    refine ⟨h1,h2,h3.trans ?_⟩
    simp [RuleOption.isPcre,RuleOption.val,unquote_quoted,splitPcre_escapeText]

/-- What all printed options do to the rule of a header. -/
theorem foldl_applyOption_print {opts : List RuleOption} (h : ∀ o ∈ opts, o.WellFormed)
    {rule : AethonRule} {specs : List ContentSpec}
    (hspecs : List.Forall₂ Denotes rule.contents specs) :
    let rule' := (opts.map fun o => (o.key,o.val)).foldl
      (fun rule opt => applyOption rule opt.1 opt.2) rule
    List.Forall₂ Denotes rule'.contents
        (opts.foldl (RuleOption.extend fun text => contentBytes (escapeText text)) specs) ∧
      rule'.sid = opts.foldl RuleOption.sidAfter rule.sid ∧
      rule'.hasPcre = (rule.hasPcre || opts.any (·.isPcre)) := by
  induction opts generalizing rule specs with
  | nil => exact ⟨hspecs,rfl,by simp⟩
  | cons o opts ih =>
    obtain ⟨h1,h2,h3⟩ := applyOption_print (h o List.mem_cons_self) hspecs
    obtain ⟨i1,i2,i3⟩ := ih (fun o' ho => h o' (List.mem_cons_of_mem _ ho)) h1
    refine ⟨i1,?_,?_⟩
    · rw [List.foldl_cons,← h2]
      exact i2
    · rw [List.any_cons,← Bool.or_assoc,← h3]
      exact i3

end Pattern

section RoundTrip

variable {h : Header} {layout : Layout} {opts : List RuleOption}

/-- The pattern part comes back from the printed rule. -/
def Recovers (h : Header) (layout : Layout) (opts : List RuleOption) : Prop :=
  ∃ rule, parseRuleLine (printLine h layout opts) = some rule ∧
    List.Forall₂ Denotes rule.contents (patternPart contentBytes opts)

/-- The options give a rule: a signature id and a content or a regex. -/
def GivesRule (opts : List RuleOption) : Prop :=
  sidOf opts ≠ 0 ∧ (patternPart contentBytes opts ≠ [] ∨ ∃ o ∈ opts, o.isPcre = true)

/-- Nothing in a content is escaped, and no quoted text ends in a backslash. -/
structure RuleOption.Faithful (o : RuleOption) : Prop where
  closed : o.Closed
  unescaped : ∀ negated text, o = .content negated text → ∀ c ∈ text, mustEscape c = false

/-- What the parser makes of printed options whose quotes are closed: a content is read with the
escapes in it. -/
theorem parseRuleLine_closed (layout : Layout) (hwf : h.WellFormed) (hopts : ∀ o ∈ opts, o.WellFormed)
    (hclosed : ∀ o ∈ opts, o.Closed) :
    ∃ rule : AethonRule, List.Forall₂ Denotes rule.contents
        (patternPart (fun text => contentBytes (escapeText text)) opts) ∧
      rule.sid = sidOf opts ∧ rule.hasPcre = opts.any (·.isPcre) ∧
      parseRuleLine (printLine h layout opts) = if rule.accepted then some rule else none := by
  obtain ⟨header,hcontents,hsid,hpcre,hparse⟩ := parseRuleLine_print hwf layout opts
  have hlen : opts.length ≤ (printOptions layout opts).length := by
    clear hclosed hparse
    induction opts using printOptions.induct with
    | case1 => simp
    | case2 o =>
      obtain ⟨c,s,hprint,_⟩ := (hopts o List.mem_cons_self).print_cons
      simp [printOptions,hprint]
    | case3 o o' opts ih =>
      obtain ⟨c,s,hprint,_⟩ := (hopts o List.mem_cons_self).print_cons
      have := ih fun x hx => hopts x (List.mem_cons_of_mem _ hx)
      simp only [printOptions,hprint,List.length_append,List.length_cons] at this ⊢
      omega
  have hsplit : splitOptions (printOptions layout opts).length ([] ++ printOptions layout opts) =
      opts.map fun o => (o.key,o.val) :=
    splitOptions_print layout hopts hclosed hlen (by simp)
  have hnil : List.Forall₂ Denotes header.contents [] := by
    rw [hcontents]
    exact .nil
  obtain ⟨h1,h2,h3⟩ := foldl_applyOption_print hopts hnil
  rw [← hsplit,List.nil_append] at h1 h2 h3
  refine ⟨parseBody header (printOptions layout opts),h1,?_,?_,hparse⟩
  · rw [hsid] at h2
    exact h2
  · rw [hpcre,Bool.false_or] at h3
    exact h3

theorem escapeText_eq {text : Text} (htext : ∀ c ∈ text, mustEscape c = false) :
    escapeText text = text := by
  induction text with
  | nil => rfl
  | cons c text ih =>
    have hrest := ih fun d hd => htext d (List.mem_cons_of_mem _ hd)
    rw [escapeText,List.flatMap_cons,htext c List.mem_cons_self]
    exact congrArg (c :: ·) hrest

/-- Where nothing is escaped the contents are read as they are meant. -/
theorem patternPart_faithful (hfaithful : ∀ o ∈ opts, o.Faithful) :
    patternPart (fun text => contentBytes (escapeText text)) opts =
      patternPart contentBytes opts := by
  apply List.foldl_ext
  intro specs o ho
  cases o with
  | content negated text =>
    simp only [RuleOption.extend,
      escapeText_eq ((hfaithful _ ho).unescaped negated text rfl)]
  | _ => rfl

theorem forall₂_ne_nil {α β : Type} {R : α → β → Prop} {xs : List α} {ys : List β}
    (h : List.Forall₂ R xs ys) : xs ≠ [] ↔ ys ≠ [] := by
  cases h <;> simp

theorem recovers_iff_givesRule (hwf : h.WellFormed)
    (hopts : ∀ o ∈ opts, o.WellFormed ∧ o.Faithful) :
    Recovers h layout opts ↔ GivesRule opts := by
  obtain ⟨rule,hspecs,hsid,hpcre,hparse⟩ := parseRuleLine_closed layout hwf
    (fun o ho => (hopts o ho).1) fun o ho => (hopts o ho).2.closed
  rw [patternPart_faithful fun o ho => (hopts o ho).2] at hspecs
  have haccepted : rule.accepted = true ↔ GivesRule opts := by
    simp only [AethonRule.accepted,GivesRule,Bool.and_eq_true,Bool.or_eq_true,decide_eq_true_eq,
      hsid,hpcre,List.any_eq_true,forall₂_ne_nil hspecs]
  rw [Recovers,hparse,← haccepted]
  constructor
  · rintro ⟨rule',hrule',_⟩
    by_contra hnot
    rw [if_neg hnot] at hrule'
    cases hrule'
  · intro hyes
    exact ⟨rule,if_pos hyes,hspecs⟩

end RoundTrip

section Broken

variable {h : Header} {layout : Layout}

/-- Between pipes stand hexadecimal digits and blanks only, and the last pipe closes. -/
def hexOk : Bool → Text → Bool
  | inHex, [] => !inHex
  | inHex, c :: text =>
      if c = pipe then hexOk (!inHex) text
      else (!inHex || (hexVal c).isSome || isBlank c) && hexOk inHex text

def RuleOption.HexOk (o : RuleOption) : Prop :=
  ∀ negated text, o = .content negated text → hexOk false text = true

theorem mustEscape_hex {c : UInt8} (h : (hexVal c).isSome = true ∨ isBlank c = true) :
    mustEscape c = false := by
  by_contra hesc
  have hcases : c = quote ∨ c = semicolon ∨ c = backslash := by
    simp only [mustEscape,Bool.not_eq_false,Bool.or_eq_true,decide_eq_true_eq] at hesc
    tauto
  rcases hcases with rfl | rfl | rfl <;> exact absurd h (by decide)

theorem escapeText_cons (c : UInt8) (text : Text) : escapeText (c :: text) =
    if mustEscape c then backslash :: c :: escapeText text else c :: escapeText text := by
  rw [escapeText,List.flatMap_cons]
  split <;> rfl

theorem bytesFrom_plain {c : UInt8} (hc : c ≠ pipe) (pending : Option UInt8) (text : Text) :
    bytesFrom false pending (c :: text) = c :: bytesFrom false pending text := by
  simp [bytesFrom,hc]

/-- Each escape adds a byte to what a text stands for. -/
theorem bytesFrom_escapeText {inHex : Bool} {text : Text} (hhex : hexOk inHex text = true)
    (pending : Option UInt8) :
    (bytesFrom inHex pending (escapeText text)).length =
      (bytesFrom inHex pending text).length + text.countP mustEscape := by
  induction text generalizing inHex pending with
  | nil => rfl
  | cons c text ih =>
    rw [hexOk] at hhex
    rw [escapeText_cons,List.countP_cons]
    by_cases hpipe : c = pipe
    · have hplain : mustEscape c = false := by rw [hpipe]; decide
      rw [if_pos hpipe] at hhex
      have hstep : ∀ t, bytesFrom inHex pending (c :: t) = bytesFrom (!inHex) none t := fun t => by
        simp [bytesFrom,hpipe]
      simp only [hplain,hstep,ih hhex,Bool.false_eq_true,if_false,Nat.add_zero]
    · rw [if_neg hpipe,Bool.and_eq_true] at hhex
      cases inHex with
      | true =>
        have hplain : mustEscape c = false := mustEscape_hex (by simpa using hhex.1)
        simp only [hplain,Bool.false_eq_true,if_false,Nat.add_zero,bytesFrom,hpipe,if_true]
        split
        · exact ih hhex.2 pending
        · split
          · exact ih hhex.2 _
          · rw [List.length_append,List.length_append,ih hhex.2]
            omega
      | false =>
        have hslash : backslash ≠ pipe := by decide
        have hrest := ih hhex.2 pending
        split
        · rw [bytesFrom_plain hslash,bytesFrom_plain hpipe,bytesFrom_plain hpipe]
          simp only [List.length_cons]
          omega
        · rw [bytesFrom_plain hpipe,bytesFrom_plain hpipe]
          simp only [List.length_cons]
          omega

theorem contentBytes_escapeText_ne {text : Text} (hhex : hexOk false text = true) {c : UInt8}
    (hmem : c ∈ text) (hc : mustEscape c = true) :
    contentBytes (escapeText text) ≠ contentBytes text := by
  intro heq
  have hlen := bytesFrom_escapeText hhex none
  have hpos : 0 < text.countP mustEscape := List.countP_pos_iff.mpr ⟨c,hmem,hc⟩
  have hsame : (bytesFrom false none (escapeText text)).length =
      (bytesFrom false none text).length := congrArg List.length heq
  omega

/-- A signature id, and in front of it a content where the option is none. -/
def sidOption : RuleOption := .sid 1

def wordOption : RuleOption := .content false (ascii "a")

theorem sidOption_faithful : sidOption.WellFormed ∧ sidOption.Faithful :=
  ⟨trivial,⟨by simp [RuleOption.Closed,RuleOption.quotedText,sidOption],
    by simp [sidOption]⟩⟩

theorem wordOption_faithful : wordOption.WellFormed ∧ wordOption.Faithful := by
  refine ⟨trivial,⟨?_,?_⟩⟩
  · intro text htext
    cases htext
    decide
  · intro negated text heq
    cases heq
    decide +kernel

/-- A content in which something is escaped does not come back. -/
theorem not_recovers_escaped (hwf : h.WellFormed) {negated : Bool} {text : Text}
    (hclosed : (RuleOption.content negated text).Closed) (hhex : hexOk false text = true)
    {c : UInt8} (hmem : c ∈ text) (hc : mustEscape c = true) :
    ¬Recovers h layout [.content negated text,sidOption] := by
  rintro ⟨rule',hrule',hmeant⟩
  have hall : ∀ o ∈ [RuleOption.content negated text,sidOption], o.WellFormed ∧ o.Closed := by
    simpa using ⟨⟨trivial,hclosed⟩,sidOption_faithful.1,sidOption_faithful.2.closed⟩
  obtain ⟨rule,hspecs,_,_,hparse⟩ := parseRuleLine_closed layout hwf (fun o ho => (hall o ho).1)
    fun o ho => (hall o ho).2
  rw [hparse] at hrule'
  split at hrule'
  · rw [← Option.some.inj hrule'] at hmeant
    have hread : List.Forall₂ Denotes rule.contents
        [{ bytes := contentBytes (escapeText text), negated }] := hspecs
    have hmeant' : List.Forall₂ Denotes rule.contents [{ bytes := contentBytes text, negated }] :=
      hmeant
    generalize rule.contents = contents at hread hmeant'
    cases hread with
    | cons hd _ =>
      cases hmeant' with
      | cons hd' _ =>
        have heq := Option.some.inj (hd.pattern.symm.trans hd'.pattern)
        have hinj : Function.Injective Atom.byte := fun a b hab => by cases hab; rfl
        exact contentBytes_escapeText_ne hhex hmem hc (hinj.list_map heq)
  · cases hrule'

theorem rdropWhile_append_cons {p : UInt8 → Bool} {c : UInt8} (hc : p c = false) (s t : Text) :
    (s ++ c :: t).rdropWhile p = s ++ c :: t.rdropWhile p := by
  induction t using List.reverseRecOn with
  | nil => rw [List.rdropWhile_concat_neg p s c (by simp [hc])]; rfl
  | append_singleton t d ih =>
    have hassoc : s ++ c :: (t ++ [d]) = s ++ c :: t ++ [d] := by simp
    rw [hassoc]
    by_cases hd : p d = true
    · rw [List.rdropWhile_concat_pos _ _ _ hd,List.rdropWhile_concat_pos _ _ _ hd,ih]
    · rw [List.rdropWhile_concat_neg _ _ _ hd,List.rdropWhile_concat_neg _ _ _ hd]
      simp

theorem applyOption_sid {key : Text} (hkey : optionKey key ≠ .sid) (rule : AethonRule)
    (val : Text) : (applyOption rule key val).sid = rule.sid := by
  unfold applyOption
  cases hcase : optionKey key with
  | sid => exact absurd hcase hkey
  | pcre =>
    dsimp only
    split <;> rfl
  | reference =>
    dsimp only
    split_ifs <;> rfl
  | metadata => exact (applyMetadata_sid ..).1
  | _ => rfl

/-- The scan of an open option goes on through a content and a signature id behind it. -/
theorem scans_open (layout : Layout) {o : RuleOption} (ho : o.WellFormed) (hopen : o.isOpen = true) :
    ∃ escaped, Scans (printOptions layout [o,wordOption,sidOption]) false false escaped true := by
  have hpad : quote ∉ semicolon :: layout.pad := by
    have hquote : isSkipped quote = false := by decide
    rw [List.mem_cons,not_or]
    exact ⟨by decide,fun hmem => absurd (layout.pad_skipped _ hmem) (by simp [hquote])⟩
  have htail : quote ∉ sidOption.print ++
      if layout.closing = true then semicolon :: layout.pad else [] := by
    rw [List.mem_append,not_or]
    refine ⟨by decide,?_⟩
    split
    · exact hpad
    · simp
  obtain ⟨e1,h1⟩ := ho.scans
  rw [hopen] at h1
  obtain ⟨e2,h2⟩ := Scans.text hpad (fun _ => rfl) e1
  obtain ⟨e3,h3⟩ : ∃ e3, Scans (ascii "content") e2 true e3 true :=
    Scans.text (by decide) (fun _ => rfl) e2
  have hcolon : Scans [colon] e3 true false true := Scans.char (by decide) (by simp) e3
  have hletter : Scans (ascii "a") false false false false := Scans.char (by decide) (by decide) false
  have hword : Scans wordOption.print e2 true false true :=
    h3.append (hcolon.append (Scans.toggle.append (hletter.append Scans.toggle)))
  obtain ⟨e4,h4⟩ := Scans.text hpad (fun _ => rfl) false
  obtain ⟨e5,h5⟩ := Scans.text htail (fun _ => rfl) e4
  refine ⟨e5,?_⟩
  have hall := (h1.append h2).append ((hword.append h4).append h5)
  simpa [printOptions] using hall

/-- An option whose quotes stay open takes in the options behind it. -/
theorem not_recovers_open (hwf : h.WellFormed) {o : RuleOption} (ho : o.WellFormed)
    (hopen : o.isOpen = true) : ¬Recovers h layout [o,wordOption,sidOption] := by
  obtain ⟨header,_,hsid,_,hparse⟩ := parseRuleLine_print hwf layout [o,wordOption,sidOption]
  obtain ⟨hne,hchars⟩ := ho.key_chars
  have hnotSid : optionKey o.key ≠ .sid := by
    cases o with
    | content => exact fun heq => absurd heq (show optionKey (ascii "content") ≠ .sid by decide)
    | quoted key text => exact fun heq => ho.other (by simp [show optionKey key = .sid from heq])
    | _ => simp [RuleOption.isOpen,RuleOption.quotedText] at hopen
  have hprint : o.print = o.key ++ colon :: o.val := by
    cases o <;> first | rfl | simp [RuleOption.isOpen,RuleOption.quotedText] at hopen
  obtain ⟨rest,hbody⟩ : ∃ rest, printOptions layout [o,wordOption,sidOption] =
      o.key ++ colon :: rest := by
    simp only [printOptions,hprint,List.append_assoc,List.cons_append]
    exact ⟨_,rfl⟩
  obtain ⟨escaped,hscans⟩ := scans_open layout ho hopen
  have hscan : scanOption false false (printOptions layout [o,wordOption,sidOption]) =
      (printOptions layout [o,wordOption,sidOption],[]) := by
    simpa [scanOption] using hscans []
  rw [hbody] at hscan
  obtain ⟨c,s,hkey⟩ := List.exists_cons_of_ne_nil hne
  have hc : isKeyChar c = true := hchars c (by simp [hkey])
  have hskip : isSkipped c = false := by
    have hsemi : c ≠ semicolon := fun heq => absurd hc (by rw [heq]; decide)
    simp [isSkipped,isBlank_keyChar hc,hsemi]
  have hdrop : (o.key ++ colon :: rest).dropWhile isSkipped = o.key ++ colon :: rest := by
    simp [hkey,hskip]
  have htrim : trim (o.key ++ colon :: rest) = o.key ++ colon :: rest.rdropWhile isBlank := by
    have hblank : (o.key ++ colon :: rest).dropWhile isBlank = o.key ++ colon :: rest := by
      simp [hkey,isBlank_keyChar hc]
    rw [trim,hblank,rdropWhile_append_cons (by decide)]
  obtain ⟨n,hn⟩ : ∃ n, (o.key ++ colon :: rest).length = n + 1 :=
    ⟨o.key.length + rest.length,by simp [Nat.add_assoc]⟩
  have hsplit : ∃ val, splitOptions (n + 1) (o.key ++ colon :: rest) = [(o.key,val)] := by
    simp only [splitOptions,hdrop]
    split
    · rename_i hnil
      simp at hnil
    · rw [hscan]
      simp only [htrim,keyVal_append hchars,splitOptions_skipped (by simp : ∀ c ∈ [],isSkipped c = true)]
      rw [if_neg (by simp)]
      exact ⟨_,rfl⟩
  obtain ⟨val,hval⟩ := hsplit
  have hzero : (parseBody header (printOptions layout [o,wordOption,sidOption])).sid = 0 := by
    rw [parseBody,hbody,hn,hval,List.foldl_cons,List.foldl_nil,applyOption_sid hnotSid,hsid]
  rintro ⟨rule,hrule,_⟩
  rw [hparse,if_neg (by simp [AethonRule.accepted,hzero])] at hrule
  cases hrule

/-- Printed and parsed again, options that are all faithful give back their pattern part exactly
if they give a rule at all; an option that is not faithful stands in a rule, of otherwise
faithful options, whose pattern part does not come back. -/
theorem round_trip_iff (hwf : h.WellFormed) (layout : Layout) :
    (∀ opts : List RuleOption, (∀ o ∈ opts, o.WellFormed ∧ o.Faithful) →
      (Recovers h layout opts ↔ GivesRule opts)) ∧
    ∀ o : RuleOption, o.WellFormed → o.HexOk → ¬o.Faithful →
      ∃ rest, (∀ o' ∈ rest, o'.WellFormed ∧ o'.Faithful) ∧ GivesRule (o :: rest) ∧
        ¬Recovers h layout (o :: rest) := by
  refine ⟨fun opts hopts => recovers_iff_givesRule hwf hopts,fun o ho hhex hnot => ?_⟩
  by_cases hopen : o.isOpen = true
  · refine ⟨[wordOption,sidOption],?_,⟨?_,.inl ?_⟩,not_recovers_open hwf ho hopen⟩
    · simpa using ⟨wordOption_faithful,sidOption_faithful⟩
    · simp [sidOf,sidOption,RuleOption.sidAfter]
    · simp [patternPart,wordOption,sidOption,RuleOption.extend]
  · have hclosed : o.Closed := RuleOption.closed_iff.mpr (by simpa using hopen)
    have hesc : ∃ negated text, o = .content negated text ∧ ∃ c ∈ text, mustEscape c = true := by
      by_contra hnone
      push Not at hnone
      exact hnot ⟨hclosed,fun negated text heq c hc => by
        simpa using hnone negated text heq c hc⟩
    obtain ⟨negated,text,rfl,c,hmem,hc⟩ := hesc
    refine ⟨[sidOption],?_,⟨?_,.inl ?_⟩,
      not_recovers_escaped hwf hclosed (hhex negated text rfl) hmem hc⟩
    · simpa using sidOption_faithful
    · simp [sidOf,sidOption,RuleOption.sidAfter]
    · simp [patternPart,sidOption,RuleOption.extend]

def anyHeader : Header :=
  ⟨ascii "alert",ascii "tcp",ascii "any",ascii "any",ascii "->",ascii "any",ascii "any"⟩

theorem anyHeader_wellFormed : anyHeader.WellFormed :=
  ⟨by decide,by decide,by decide +kernel⟩

/-- The layout of the shipped rule files. -/
def shippedLayout : Layout := ⟨[space],true,by decide +kernel⟩

theorem round_trip_iff_word : Recovers anyHeader shippedLayout [wordOption,.nocase,sidOption] :=
  ((round_trip_iff anyHeader_wellFormed shippedLayout).1 _ (by
    have hnocase : RuleOption.nocase.WellFormed ∧ RuleOption.nocase.Faithful :=
      ⟨trivial,⟨by simp [RuleOption.Closed,RuleOption.quotedText],by simp⟩⟩
    simpa using ⟨wordOption_faithful,hnocase,sidOption_faithful⟩)).mpr
    ⟨by decide,.inl (by
      simp [patternPart,wordOption,sidOption,RuleOption.extend,modifyLast])⟩

/-- A semicolon in a content comes back with its backslash, and a message that ends in a backslash
takes the rest of the rule. -/
theorem round_trip_fails :
    (GivesRule [.content false (ascii "a;b"),sidOption] ∧
      ¬Recovers anyHeader shippedLayout [.content false (ascii "a;b"),sidOption]) ∧
    GivesRule [.quoted (ascii "msg") (ascii "a\\"),wordOption,sidOption] ∧
      parseRuleLine (printLine anyHeader shippedLayout
        [.quoted (ascii "msg") (ascii "a\\"),wordOption,sidOption]) = none := by
  refine ⟨⟨⟨by decide,.inl ?_⟩,?_⟩,⟨by decide,.inl ?_⟩,by decide +kernel⟩
  · simp [patternPart,sidOption,RuleOption.extend]
  · refine not_recovers_escaped anyHeader_wellFormed ?_ (by decide) (c := semicolon) (by decide)
      (by decide)
    exact RuleOption.closed_iff.mpr (by decide)
  · simp [patternPart,wordOption,sidOption,RuleOption.extend]

end Broken

end Aethon.Dpi
