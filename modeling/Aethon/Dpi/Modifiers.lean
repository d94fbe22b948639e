import Aethon.Dpi.Stitching

/-!
# Modifiers of a content

Where `nocase`, a negation and the flags of a `pcre` end up: one expression with one set of flags
stands for all contents of a rule.
-/

namespace Aethon.Dpi

open Framework Framework.Pattern

section Denotation

def hexByte (first second : UInt8) : List UInt8 :=
  match hexVal first, hexVal second with
  | some h1, some h2 => [UInt8.ofNat (h1 * 16 + h2)]
  | _, _ => []

/-- The bytes that a content text stands for, with the state in which the rest of it is read:
plain characters, and hexadecimal digits between pipes. -/
def bytesFrom : Bool → Option UInt8 → Text → List UInt8
  | _, _, [] => []
  | inHex, pending, c :: text =>
      if c = pipe then bytesFrom (!inHex) none text
      else if inHex then
        if isBlank c then bytesFrom true pending text
        else
          match pending with
          | none => bytesFrom true (some c) text
          | some first => hexByte first c ++ bytesFrom true none text
      else c :: bytesFrom false pending text

def contentBytes (text : Text) : List UInt8 := bytesFrom false none text

/-- An expression for one byte: a character that stands for itself, one behind a backslash, or
two hexadecimal digits. -/
inductive LiteralAtom : Text → UInt8 → Prop where
  | plain {c : UInt8} (hc : isSpecial c = false) : LiteralAtom [c] c
  | escaped {c : UInt8} (hc : isSpecial c = true) : LiteralAtom [backslash,c] c
  | hex (b : UInt8) : LiteralAtom (hexText b) b

/-- A text made of literal atoms for these bytes. -/
def Literals (text : Text) (bytes : List UInt8) : Prop :=
  ∃ atoms, text = atoms.flatten ∧ List.Forall₂ LiteralAtom atoms bytes

theorem Literals.nil : Literals [] [] := ⟨[],rfl,.nil⟩

theorem LiteralAtom.literals {text : Text} {b : UInt8} (h : LiteralAtom text b) :
    Literals text [b] := ⟨[text],by simp,.cons h .nil⟩

theorem Literals.append {s t : Text} {bs bs' : List UInt8} (hs : Literals s bs)
    (ht : Literals t bs') : Literals (s ++ t) (bs ++ bs') := by
  obtain ⟨atoms,rfl,hatoms⟩ := hs
  obtain ⟨atoms',rfl,hatoms'⟩ := ht
  exact ⟨atoms ++ atoms',by rw [List.flatten_append],List.rel_append hatoms hatoms'⟩

theorem LiteralAtom.reads {text : Text} {b : UInt8} (h : LiteralAtom text b) :
    Reads text [.byte b] := by
  cases h with
  | plain hc => exact Reads.plain hc
  | escaped hc => exact Reads.escaped hc
  | hex b => exact Reads.hex b

theorem Literals.reads {text : Text} {bytes : List UInt8} (h : Literals text bytes) :
    Reads text (bytes.map .byte) := by
  obtain ⟨atoms,rfl,hatoms⟩ := h
  induction hatoms with
  | nil => exact Reads.nil
  | cons hatom _ ih => exact hatom.reads.append ih

theorem literals_hexPair (first second : UInt8) :
    Literals (hexPair first second) (hexByte first second) := by
  unfold hexPair hexByte
  cases hexVal first with
  | none => exact Literals.nil
  | some h1 =>
    cases hexVal second with
    | none => exact Literals.nil
    | some h2 => exact (LiteralAtom.hex _).literals

theorem literals_escapeRegex (c : UInt8) : Literals (escapeRegex c) [c] := by
  unfold escapeRegex
  cases hc : isSpecial c with
  | true => exact (LiteralAtom.escaped hc).literals
  | false => exact (LiteralAtom.plain hc).literals

theorem literals_normalizeFrom (inHex : Bool) (pending : Option UInt8) (text : Text) :
    Literals (normalizeFrom inHex pending text) (bytesFrom inHex pending text) := by
  induction text generalizing inHex pending with
  | nil => exact Literals.nil
  | cons c text ih =>
    simp only [normalizeFrom,bytesFrom]
    split
    · exact ih _ _
    · split
      · split
        · exact ih _ _
        · split
          · exact ih _ _
          · exact (literals_hexPair _ _).append (ih _ _)
      · exact (literals_escapeRegex c).append (ih _ _)

/-- The expression that a content text is normalised to denotes its bytes. -/
theorem reads_content (text : Text) :
    Reads (normalizeContentToRegex text) ((contentBytes text).map .byte) :=
  (literals_normalizeFrom false none text).reads

theorem zero_notMem_normalizeFrom (inHex : Bool) (pending : Option UInt8) {text : Text}
    (h : 0 ∉ text) : 0 ∉ normalizeFrom inHex pending text := by
  have hhex : ∀ b, 0 ∉ hexText b := fun b hz => by
    have hdigit : ∀ n < 16, hexDigit n ≠ 0 := by decide
    simp only [hexText,List.mem_append,List.mem_cons,List.not_mem_nil,or_false] at hz
    rcases hz with hz | hz | hz
    · exact absurd hz (by decide)
    · exact hdigit _ (by have := b.toNat_lt; omega) hz.symm
    · exact hdigit _ (by omega) hz.symm
  induction text generalizing inHex pending with
  | nil => simp [normalizeFrom]
  | cons c text ih =>
    rw [List.mem_cons,not_or] at h
    have hrest := fun inHex pending => ih inHex pending h.2
    simp only [normalizeFrom]
    split
    · exact hrest _ _
    · split
      · split
        · exact hrest _ _
        · split
          · exact hrest _ _
          · rw [List.mem_append,not_or]
            refine ⟨?_,hrest _ _⟩
            unfold hexPair
            split
            · exact hhex _
            · simp
      · rw [List.mem_append,not_or]
        refine ⟨?_,hrest _ _⟩
        unfold escapeRegex
        have hslash : (0 : UInt8) ≠ backslash := by decide
        split <;> simp [h.1,hslash]

end Denotation

section Parsed

/-- A pattern comes from a text of these characters. -/
def FromText (line : Text) (pattern : Text) : Prop :=
  ∃ text, text ⊆ line ∧ pattern = normalizeContentToRegex text

theorem behind_subset (c : UInt8) (s : Text) : behind c s ⊆ s :=
  ((List.tail_sublist _).trans (List.dropWhile_sublist _)).subset

theorem scanOption_subset (escaped insideQuote : Bool) (body : Text) :
    (scanOption escaped insideQuote body).1 ⊆ body ∧
      (scanOption escaped insideQuote body).2 ⊆ body := by
  induction body generalizing escaped insideQuote with
  | nil => simp [scanOption]
  | cons c body ih =>
    simp only [scanOption]
    split
    · exact ⟨List.cons_subset_cons c (ih _ _).1,List.subset_cons_of_subset c (ih _ _).2⟩
    · split
      · exact ⟨List.nil_subset _,List.subset_cons_self c body⟩
      · exact ⟨List.cons_subset_cons c (ih _ _).1,List.subset_cons_of_subset c (ih _ _).2⟩

theorem keyVal_subset (opt : Text) : (keyVal opt).2 ⊆ opt :=
  List.Subset.trans (List.dropWhile_sublist _).subset (behind_subset colon opt)

theorem trim_subset (s : Text) : trim s ⊆ s :=
  List.Subset.trans (List.rdropWhile_prefix _ _).subset (List.dropWhile_sublist _).subset

theorem splitOptions_subset (fuel : Nat) (body : Text) :
    ∀ opt ∈ splitOptions fuel body, opt.2 ⊆ body := by
  induction fuel generalizing body with
  | zero => simp [splitOptions]
  | succ fuel ih =>
    intro opt hopt
    have hskip : body.dropWhile isSkipped ⊆ body := (List.dropWhile_sublist _).subset
    simp only [splitOptions] at hopt
    split at hopt
    · simp at hopt
    · obtain ⟨hscan,hrest⟩ := scanOption_subset false false (body.dropWhile isSkipped)
      split at hopt
      · exact List.Subset.trans (ih _ opt hopt) (List.Subset.trans hrest hskip)
      · rcases List.mem_cons.mp hopt with rfl | hopt
        · exact List.Subset.trans (keyVal_subset _)
            (List.Subset.trans (trim_subset _) (List.Subset.trans hscan hskip))
        · exact List.Subset.trans (ih _ opt hopt) (List.Subset.trans hrest hskip)

theorem bodyOf_subset {line body : Text} (h : bodyOf line = some body) : body ⊆ line := by
  simp only [bodyOf] at h
  split at h
  · cases h
    exact List.Subset.trans ((List.dropLast_sublist _).trans (List.rdropWhile_prefix _ _).sublist).subset
      (behind_subset openParen line)
  · cases h

theorem parseHeader_contents {header : Text} {rule : AethonRule}
    (h : parseHeader header = some rule) : rule.contents = [] := by
  unfold parseHeader at h
  split at h
  · obtain ⟨action,_,h⟩ := Option.bind_eq_some_iff.mp h
    obtain ⟨protocol,_,h⟩ := Option.bind_eq_some_iff.mp h
    cases h
    rfl
  · cases h

theorem applyMetadata_contents (rule : AethonRule) (items : List Text) :
    (items.foldl applyMetadata rule).contents = rule.contents := by
  induction items generalizing rule with
  | nil => rfl
  | cons item items ih =>
    rw [List.foldl_cons,ih]
    simp only [applyMetadata]
    split_ifs <;> rfl

theorem mem_modifyLast {α : Type} {f : α → α} {xs : List α} {y : α} (h : y ∈ modifyLast f xs) :
    ∃ x ∈ xs, y = x ∨ y = f x := by
  induction xs using modifyLast.induct with
  | case1 => simp [modifyLast] at h
  | case2 x =>
    rw [modifyLast,List.mem_singleton] at h
    exact ⟨x,List.mem_singleton_self x,.inr h⟩
  | case3 x x' xs ih =>
    rw [modifyLast,List.mem_cons] at h
    rcases h with rfl | h
    · exact ⟨y,List.mem_cons_self,.inl rfl⟩
    · obtain ⟨z,hz,hy⟩ := ih h
      exact ⟨z,List.mem_cons_of_mem _ hz,hy⟩

/-- What an option makes of the contents: it adds one, changes modifiers of the last one, or
leaves them. -/
theorem applyOption_contents (rule : AethonRule) (key val : Text) :
    (applyOption rule key val).contents = rule.contents ++ [parseContent val] ∨
      (∃ f : RuleContent → RuleContent, (∀ c, (f c).pattern = c.pattern) ∧
        (applyOption rule key val).contents = modifyLast f rule.contents) ∨
      (applyOption rule key val).contents = rule.contents := by
  have hmodify : ∀ f : RuleContent → RuleContent, (∀ c, (f c).pattern = c.pattern) →
      ∃ g : RuleContent → RuleContent, (∀ c, (g c).pattern = c.pattern) ∧
        (rule.modifyContent f).contents = modifyLast g rule.contents := fun f hf => ⟨f,hf,rfl⟩
  unfold applyOption
  cases optionKey key with
  | content => exact .inl rfl
  | nocase => exact .inr (.inl (hmodify _ fun _ => rfl))
  | fastPattern => exact .inr (.inl (hmodify _ fun _ => rfl))
  | depth => exact .inr (.inl (hmodify _ fun _ => rfl))
  | offset => exact .inr (.inl (hmodify _ fun _ => rfl))
  | distance => exact .inr (.inl (hmodify _ fun _ => rfl))
  | within => exact .inr (.inl (hmodify _ fun _ => rfl))
  | pcre =>
    refine .inr (.inr ?_)
    dsimp only
    split <;> rfl
  | reference =>
    refine .inr (.inr ?_)
    dsimp only
    split_ifs <;> rfl
  | metadata => exact .inr (.inr (applyMetadata_contents ..))
  | _ => exact .inr (.inr rfl)

theorem parseContent_fromText (val : Text) : FromText val (parseContent val).pattern := by
  have hunquote : ∀ v, unquote v ⊆ v := fun v => by
    unfold unquote
    split
    · exact ((List.dropLast_sublist _).trans (List.tail_sublist _)).subset
    · exact List.Subset.refl v
  unfold parseContent
  split
  · exact ⟨_,List.Subset.trans (hunquote _) (List.tail_sublist _).subset,rfl⟩
  · exact ⟨_,hunquote _,rfl⟩

theorem applyOption_fromText {line : Text} {rule : AethonRule} {key val : Text}
    (hval : val ⊆ line) (h : ∀ c ∈ rule.contents, FromText line c.pattern) :
    ∀ c ∈ (applyOption rule key val).contents, FromText line c.pattern := by
  rcases applyOption_contents rule key val with heq | ⟨f,hf,heq⟩ | heq
  · rw [heq]
    intro c hc
    rcases List.mem_append.mp hc with hc | hc
    · exact h c hc
    · cases List.mem_singleton.mp hc
      obtain ⟨text,htext,hpattern⟩ := parseContent_fromText val
      exact ⟨text,List.Subset.trans htext hval,hpattern⟩
  · rw [heq]
    intro c hc
    obtain ⟨c',hc',rfl | rfl⟩ := mem_modifyLast hc
    · exact h _ hc'
    · rw [hf]
      exact h c' hc'
  · rwa [heq]

/-- Every content of an accepted rule is normalised from a part of its line. -/
theorem parseRuleLine_fromText {line : Text} {rule : AethonRule}
    (h : parseRuleLine line = some rule) :
    rule.accepted = true ∧ ∀ c ∈ rule.contents, FromText line c.pattern := by
  have hfold : ∀ (opts : List (Text × Text)) (rule : AethonRule), (∀ opt ∈ opts, opt.2 ⊆ line) →
      (∀ c ∈ rule.contents, FromText line c.pattern) →
      ∀ c ∈ (opts.foldl (fun rule opt => applyOption rule opt.1 opt.2) rule).contents,
        FromText line c.pattern := by
    intro opts
    induction opts with
    | nil => exact fun _ _ hrule => hrule
    | cons opt opts ih =>
      intro rule hopts hrule
      exact ih _ (fun o ho => hopts o (List.mem_cons_of_mem _ ho))
        (applyOption_fromText (hopts opt List.mem_cons_self) hrule)
  simp only [parseRuleLine] at h
  split at h
  · cases h
  · obtain ⟨body,hbody,h⟩ := Option.bind_eq_some_iff.mp h
    obtain ⟨header,hheader,h⟩ := Option.bind_eq_some_iff.mp h
    split at h
    · rename_i haccepted
      cases h
      refine ⟨haccepted,hfold _ header (fun opt hopt => ?_) ?_⟩
      · refine List.Subset.trans (splitOptions_subset _ body opt hopt) ?_
        refine List.Subset.trans (bodyOf_subset hbody) (List.dropWhile_sublist _).subset
      · rw [parseHeader_contents hheader]
        simp
    · cases h

end Parsed

section Meaning

/-- The expression is found in a payload. -/
def Expression.Occurs (e : Expression) (payload : List UInt8) : Prop :=
  ∃ atoms, read e.text = some atoms ∧ Pattern.Occurs e.flags atoms payload

/-- A content is found in a payload, in its own case or in any. -/
def RuleContent.Occurs (c : RuleContent) (payload : List UInt8) : Prop :=
  ∃ atoms, read c.pattern = some atoms ∧
    Pattern.Occurs { caseless := c.nocase, dotall := true } atoms payload

/-- The expression that `compile_rules` makes of the rule is found in the payload. -/
def AethonRule.Triggers (rule : AethonRule) (payload : List UInt8) : Prop :=
  ∃ e, ruleExpression rule = some e ∧ e.Occurs payload

instance (e : Expression) (payload : List UInt8) : Decidable (e.Occurs payload) :=
  decidable_of_iff (∃ atoms ∈ (read e.text).toList, Pattern.Occurs e.flags atoms payload)
    (by simp [Expression.Occurs])

instance (c : RuleContent) (payload : List UInt8) : Decidable (c.Occurs payload) :=
  decidable_of_iff (∃ atoms ∈ (read c.pattern).toList,
    Pattern.Occurs { caseless := c.nocase, dotall := true } atoms payload)
    (by simp [RuleContent.Occurs])

instance (rule : AethonRule) (payload : List UInt8) : Decidable (rule.Triggers payload) :=
  decidable_of_iff (∃ e ∈ (ruleExpression rule).toList, e.Occurs payload)
    (by simp [AethonRule.Triggers])

/-- The rule does not match where the content is not present. -/
def AethonRule.Requires (rule : AethonRule) (c : RuleContent) : Prop :=
  ∀ payload, rule.Triggers payload → c.Occurs payload

/-- The flags of the last `pcre` option that has a regex between slashes. -/
def pcreFlags (line : Text) : Text :=
  match bodyOf (line.dropWhile isBlank) with
  | none => []
  | some body =>
      (splitOptions body.length body).foldl (fun flags opt =>
        match optionKey opt.1, splitPcre (unquote opt.2) with
        | .pcre, some (_,flags') => flags'
        | _, _ => flags) []

/-- The letter `i` among the flags of a regex. -/
abbrev caselessFlag : UInt8 := 0x69

/-- Each modifier of the rule text keeps its meaning in the expression and its flags. -/
structure KeepsModifiers (line : Text) (rule : AethonRule) : Prop where
  nocase : ∀ e, ruleExpression rule = some e → ∀ c ∈ rule.contents,
    (e.flags.caseless = true ↔ c.nocase = true)
  negated : ∀ c ∈ rule.contents, c.isNegated = true → ¬rule.Requires c ∧
    ∀ payload, (∀ d ∈ rule.contents, d.isNegated = false → d.Occurs payload) →
      (∀ d ∈ rule.contents, d.isNegated = true → ¬d.Occurs payload) → rule.Triggers payload
  pcre : rule.contents = [] → ∀ e, ruleExpression rule = some e →
    (e.flags.caseless = true ↔ caselessFlag ∈ pcreFlags line)

variable {line : Text} {rule : AethonRule}

/-- The pattern of a rule with contents reads as theirs, with the gaps between them. -/
theorem reads_rulePattern {first : RuleContent} {rest : List RuleContent}
    (hc : rule.contents = first :: rest) {atoms : RuleContent → List Atom}
    (hreads : ∀ c ∈ rule.contents, Reads c.pattern (atoms c)) :
    Reads (rulePattern rule) (atoms first ++
      rest.flatMap fun c => .gap (gapBounds c).1 (gapBounds c).2 :: atoms c) := by
  rw [hc] at hreads
  have hrest : ∀ rest : List RuleContent, (∀ c ∈ rest, Reads c.pattern (atoms c)) →
      Reads (rest.flatMap linkText)
        (rest.flatMap fun c => .gap (gapBounds c).1 (gapBounds c).2 :: atoms c) := by
    intro rest
    induction rest with
    | nil => exact fun _ => Reads.nil
    | cons c rest ih =>
      intro h
      exact (reads_linkText (h c List.mem_cons_self)).append
        (ih fun d hd => h d (List.mem_cons_of_mem _ hd))
  simp only [rulePattern,hc]
  exact (hreads first List.mem_cons_self).append
    (hrest rest fun c hmem => hreads c (List.mem_cons_of_mem _ hmem))

/-- The atoms of each content are a part of those of the rule. -/
theorem atoms_part (atoms : RuleContent → List Atom) {first c : RuleContent}
    {rest : List RuleContent} (hmem : c ∈ first :: rest) :
    ∃ as cs, atoms first ++ (rest.flatMap fun c =>
      .gap (gapBounds c).1 (gapBounds c).2 :: atoms c) = as ++ atoms c ++ cs := by
  rcases List.mem_cons.mp hmem with rfl | hmem
  · exact ⟨[],_,by simp; rfl⟩
  · obtain ⟨l,r,rfl⟩ := List.append_of_mem hmem
    refine ⟨atoms first ++ (l.flatMap fun c => .gap (gapBounds c).1 (gapBounds c).2 :: atoms c) ++
      [.gap (gapBounds c).1 (gapBounds c).2],
      r.flatMap fun c => .gap (gapBounds c).1 (gapBounds c).2 :: atoms c,?_⟩
    simp

/-- Where the case of the expression is that of a content, the rule does not match without it. -/
theorem AethonRule.requires (hparse : parseRuleLine line = some rule) (hnull : 0 ∉ line)
    {c : RuleContent} (hmem : c ∈ rule.contents)
    (hcase : ∀ e, ruleExpression rule = some e → (e.flags.caseless = true ↔ c.nocase = true)) :
    rule.Requires c := by
  obtain ⟨_,htext⟩ := parseRuleLine_fromText hparse
  have hreads : ∀ d ∈ rule.contents, ∃ atoms, Reads d.pattern atoms := fun d hd => by
    obtain ⟨text,_,hpattern⟩ := htext d hd
    exact ⟨_,hpattern ▸ reads_content text⟩
  have hzero : ∀ d ∈ rule.contents, 0 ∉ d.pattern := fun d hd => by
    obtain ⟨text,hsub,hpattern⟩ := htext d hd
    rw [hpattern]
    exact zero_notMem_normalizeFrom _ _ fun hz => hnull (hsub hz)
  choose! atoms hatoms using hreads
  obtain ⟨first,rest,hc⟩ := List.exists_cons_of_ne_nil (List.ne_nil_of_mem hmem)
  rintro payload ⟨e,he,atoms',hread,hocc⟩
  have hflags : e.flags = { caseless := c.nocase, dotall := true } := by
    have hiff := hcase e he
    unfold ruleExpression at he
    split at he
    · cases he
    · cases he
      exact congrArg (Flags.mk · true) (Bool.eq_iff_iff.mpr hiff)
  have htext' : e.text = rulePattern rule := by
    unfold ruleExpression at he
    split at he
    · cases he
    · cases he
      exact cStr_eq (zero_notMem_rulePattern hc hzero)
  rw [htext',(reads_rulePattern hc hatoms).read_eq] at hread
  obtain ⟨as,cs,hpart⟩ := atoms_part atoms (hc ▸ hmem)
  rw [hflags,← Option.some.inj hread,hpart] at hocc
  exact ⟨_,(hatoms c hmem).read_eq,hocc.part⟩

theorem ruleExpression_caseless {e : Expression} (he : ruleExpression rule = some e) :
    rulePattern rule ≠ [] ∧ e.flags.caseless = rule.contents.any (·.nocase) := by
  unfold ruleExpression at he
  split at he
  · cases he
  · cases he
    exact ⟨‹_›,rfl⟩

/-- A rule with several contents has an expression. -/
theorem ruleExpression_isSome {first c : RuleContent} {rest : List RuleContent}
    (hc : rule.contents = first :: c :: rest) : ∃ e, ruleExpression rule = some e := by
  have hne : rulePattern rule ≠ [] := by
    simp [rulePattern,hc,linkText,gapText,ascii]
  exact ⟨_,if_neg hne⟩

/-- The modifiers keep their meaning if and only if all contents agree in their case, none is
negated and a lone regex is not flagged caseless. -/
theorem keepsModifiers_iff (hparse : parseRuleLine line = some rule) (hnull : 0 ∉ line) :
    KeepsModifiers line rule ↔
      (∀ c ∈ rule.contents, ∀ d ∈ rule.contents, c.nocase = d.nocase) ∧
      (∀ c ∈ rule.contents, c.isNegated = false) ∧
      (rule.contents = [] → rule.pcreRegex ≠ [] → caselessFlag ∉ pcreFlags line) := by
  obtain ⟨haccepted,_⟩ := parseRuleLine_fromText hparse
  constructor
  · intro hkeeps
    refine ⟨fun c hcmem d hdmem => ?_,fun c hmem => ?_,fun hnil hne hflag => ?_⟩
    · obtain ⟨first,rest,hc⟩ := List.exists_cons_of_ne_nil (List.ne_nil_of_mem hcmem)
      cases rest with
      | nil =>
        rw [hc,List.mem_singleton] at hcmem hdmem
        rw [hcmem,hdmem]
      | cons second rest =>
        obtain ⟨e,he⟩ := ruleExpression_isSome hc
        exact Bool.eq_iff_iff.mpr
          ((hkeeps.nocase e he c hcmem).symm.trans (hkeeps.nocase e he d hdmem))
    · by_contra hneg
      have hneg : c.isNegated = true := by simpa using hneg
      exact (hkeeps.negated c hmem hneg).1
        (AethonRule.requires hparse hnull hmem fun e he => hkeeps.nocase e he c hmem)
    · have hpcre : rule.hasPcre = true := by
        simp only [AethonRule.accepted,hnil,Bool.and_eq_true] at haccepted
        simpa using haccepted.2
      have hpattern : rulePattern rule ≠ [] := by simpa [rulePattern,hnil,hpcre] using hne
      have hfalse := (hkeeps.pcre hnil _ (if_neg hpattern)).mpr hflag
      simp [hnil] at hfalse
  · rintro ⟨hcase,hpositive,hpcre⟩
    refine ⟨fun e he c hmem => ?_,fun c hmem hneg => ?_,fun hnil e he => ?_⟩
    · rw [(ruleExpression_caseless he).2,List.any_eq_true]
      constructor
      · rintro ⟨d,hd,hnocase⟩
        rw [hcase c hmem d hd]
        exact hnocase
      · exact fun hnocase => ⟨c,hmem,hnocase⟩
    · exact absurd hneg (by simp [hpositive c hmem])
    · obtain ⟨hpattern,hflag⟩ := ruleExpression_caseless he
      have hne : rule.pcreRegex ≠ [] := by
        intro hempty
        simp [rulePattern,hnil,hempty] at hpattern
      simp [hflag,hnil,hpcre hnil hne]

/-- A rule with the given options. -/
def lineOf (options : String) : Text := ascii ("alert tcp any any -> any any (" ++ options ++ " sid:7;)")

def ruleOf (contents : List RuleContent) (pcreRegex : Text) : AethonRule :=
  { sid := 7, action := .alert, protocol := .tcp, contents, pcreRegex, hasPcre := pcreRegex ≠ [] }

theorem keepsModifiers_iff_words : KeepsModifiers
    (lineOf "content:\"ab\"; content:\"cd\";")
    (ruleOf [{ pattern := ascii "ab" },{ pattern := ascii "cd" }] []) :=
  (keepsModifiers_iff (by decide +kernel) (by decide +kernel)).mpr
    ⟨by decide,by decide,by decide⟩

/-- A modifier of one content reaches the others, a negated content is required, and the flag of a
regex is lost. -/
theorem modifiers_not_kept :
    (∃ rule e, parseRuleLine (lineOf "content:\"ab\"; nocase; content:\"cd\";") = some rule ∧
      ruleExpression rule = some e ∧ e.flags.caseless = true ∧
        ∃ c ∈ rule.contents, c.nocase = false) ∧
    (∃ rule, parseRuleLine (lineOf "content:\"ab\"; content:!\"cd\";") = some rule ∧
      (∀ c ∈ rule.contents, c.isNegated = false → c.Occurs (ascii "ab")) ∧
      (∀ c ∈ rule.contents, c.isNegated = true → ¬c.Occurs (ascii "ab")) ∧
        ¬rule.Triggers (ascii "ab")) ∧
    (∃ rule e, parseRuleLine (lineOf "pcre:\"/ab/i\";") = some rule ∧ rule.contents = [] ∧
      ruleExpression rule = some e ∧ e.flags.caseless = false ∧
        caselessFlag ∈ pcreFlags (lineOf "pcre:\"/ab/i\";")) := by
  refine ⟨⟨ruleOf [{ pattern := ascii "ab", nocase := true },{ pattern := ascii "cd" }] [],_,?_,rfl,
      rfl,{ pattern := ascii "cd" },by simp [ruleOf],rfl⟩,
    ⟨ruleOf [{ pattern := ascii "ab" },{ pattern := ascii "cd", isNegated := true }] [],?_,?_,?_,?_⟩,
    ⟨ruleOf [] (ascii "ab"),_,?_,rfl,rfl,rfl,?_⟩⟩
  all_goals decide +kernel

end Meaning

end Aethon.Dpi
