import Aethon.Dpi.Detection

/-!
# Relative positions

What the expression of a rule with several contents matches, against the gaps that the rule
reference documents for `distance` and `within`.
-/

namespace Aethon.Dpi

open Framework Framework.Pattern

/-- The expression matches the whole of a byte string. -/
def Expression.Matches (e : Expression) (bytes : List UInt8) : Prop :=
  ∃ atoms, read e.text = some atoms ∧ Pattern.Matches e.flags atoms bytes

instance (e : Expression) (bytes : List UInt8) : Decidable (e.Matches bytes) :=
  decidable_of_iff (∃ atoms ∈ (read e.text).toList, Pattern.Matches e.flags atoms bytes)
    (by simp [Expression.Matches])

/-- The contents in rule order, each behind a gap that a rule of reading gives it. -/
def Arranged (link : RuleContent → Link) (first : RuleContent) (rest : List RuleContent)
    (bytes : List UInt8) : Prop :=
  ∃ tail, bytes = first.pattern ++ tail ∧ Linked (rest.map link) tail

/-- The rule reference: a gap of at least `distance` and at most `distance + within` bytes. -/
def documentedLink (c : RuleContent) : Link :=
  ⟨c.distance.toNat,c.distance.toNat + c.within.toNat,c.pattern⟩

/-- The gap that `compile_rules` writes. -/
def compiledLink (c : RuleContent) : Link := ⟨(gapBounds c).1,(gapBounds c).2,c.pattern⟩

/-- A positive word matched in its own case. -/
structure PlainWord (c : RuleContent) : Prop where
  word : IsWord c.pattern
  nocase : c.nocase = false
  positive : c.isNegated = false

/-- Both position modifiers are set, within the range that `compile_rules` does not clamp. -/
structure Positioned (c : RuleContent) : Prop where
  distance_nonneg : 0 ≤ c.distance
  distance_le : c.distance ≤ 500
  within_nonneg : 0 ≤ c.within
  within_le : c.within ≤ 1000

theorem gapBounds_le (c : RuleContent) : (gapBounds c).1 ≤ (gapBounds c).2 := by
  simp only [gapBounds]
  split_ifs <;> omega

theorem gapBounds_positioned {c : RuleContent} (h : Positioned c) : gapBounds c =
    (c.distance.toNat,
      if c.within < c.distance then c.distance.toNat + 100 else c.within.toNat) := by
  have h1 := h.distance_nonneg
  have h2 := h.distance_le
  have h3 := h.within_nonneg
  have h4 := h.within_le
  have hd : ¬c.distance.toNat > 500 := by omega
  have hw : ¬c.within.toNat > 1000 := by omega
  simp only [gapBounds,ge_iff_le,h1,h3,if_true,hd,hw,if_false,Prod.mk.injEq,true_and]
  exact if_congr (by omega) rfl rfl

/-- The text of a content behind the first reads as its gap and its atoms. -/
theorem reads_linkText {c : RuleContent} {atoms : List Atom} (h : Reads c.pattern atoms) :
    Reads (linkText c) (.gap (gapBounds c).1 (gapBounds c).2 :: atoms) :=
  (Reads.gap (gapBounds_le c)).append h

theorem reads_links {rest : List RuleContent} (h : ∀ c ∈ rest, IsWord c.pattern) :
    Reads (rest.flatMap linkText) ((rest.map compiledLink).flatMap Link.atoms) := by
  induction rest with
  | nil => exact Reads.nil
  | cons c rest ih =>
    exact (reads_linkText (h c List.mem_cons_self).reads).append
      (ih fun d hd => h d (List.mem_cons_of_mem _ hd))

theorem zero_notMem_gapText (low high : Nat) : 0 ∉ gapText low high := by
  have hdecimal : ∀ n, 0 ∉ decimal n := fun n hz => absurd (decimal_isDigit n 0 hz) (by decide)
  have hascii : ∀ s ∈ [".\x7b",",","\x7d"], 0 ∉ ascii s := by decide
  simp only [gapText,List.mem_append,not_or]
  exact ⟨⟨⟨⟨hascii _ (by simp),hdecimal _⟩,hascii _ (by simp)⟩,hdecimal _⟩,hascii _ (by simp)⟩

theorem zero_notMem_rulePattern {rule : AethonRule} {first : RuleContent}
    {rest : List RuleContent} (hc : rule.contents = first :: rest)
    (h : ∀ c ∈ rule.contents, 0 ∉ c.pattern) : 0 ∉ rulePattern rule := by
  rw [hc] at h
  simp only [rulePattern,hc,List.mem_append,not_or,List.mem_flatMap,linkText,not_exists,not_and]
  exact ⟨h first List.mem_cons_self,
    fun c hmem => ⟨zero_notMem_gapText _ _,h c (List.mem_cons_of_mem _ hmem)⟩⟩

section Rule

variable {rule : AethonRule} {first : RuleContent} {rest : List RuleContent}

/-- The expression of a rule of plain words. -/
theorem ruleExpression_words (hc : rule.contents = first :: rest)
    (hplain : ∀ c ∈ rule.contents, PlainWord c) :
    ruleExpression rule = some
      { text := first.pattern ++ rest.flatMap linkText
        flags := { caseless := false, dotall := true }
        singlematch := true
        id := rule.sid } := by
  have hpattern : rulePattern rule = first.pattern ++ rest.flatMap linkText := by
    simp [rulePattern,hc]
  have hfirst := hplain first (by simp [hc])
  have hne : rulePattern rule ≠ [] := by simp [hpattern,hfirst.word.ne_nil]
  have hnocase : rule.contents.any (·.nocase) = false := by
    rw [List.any_eq_false]
    intro c hmem
    simp [(hplain c hmem).nocase]
  rw [ruleExpression,if_neg hne,
    cStr_eq (zero_notMem_rulePattern hc fun c h => (hplain c h).word.zero_notMem),hpattern,hnocase]

/-- It matches the contents in order, each behind the gap that is written for it. -/
theorem ruleExpression_matches (hc : rule.contents = first :: rest)
    (hplain : ∀ c ∈ rule.contents, PlainWord c) :
    ∃ e, ruleExpression rule = some e ∧
      ∀ bytes, e.Matches bytes ↔ Arranged compiledLink first rest bytes := by
  refine ⟨_,ruleExpression_words hc hplain,fun bytes => ?_⟩
  rw [hc] at hplain
  have hreads := (hplain first List.mem_cons_self).word.reads.append
    (reads_links fun c hmem => (hplain c (List.mem_cons_of_mem _ hmem)).word)
  simp only [Expression.Matches,hreads.read_eq,Option.some.injEq,exists_eq_left',matches_append,
    matches_word,matches_links,Arranged]
  constructor
  · rintro ⟨x,y,rfl,rfl,hy⟩
    exact ⟨y,rfl,hy⟩
  · rintro ⟨y,rfl,hy⟩
    exact ⟨_,y,rfl,rfl,hy⟩

/-- The expression matches what the rule reference documents if and only if each content behind
the first has a distance of 0, or a `within` of 100 that is less than its distance. -/
theorem expression_documented_iff (hc : rule.contents = first :: rest)
    (hplain : ∀ c ∈ rule.contents, PlainWord c) (hset : ∀ c ∈ rest, Positioned c) :
    (∃ e, ruleExpression rule = some e ∧
        ∀ bytes, e.Matches bytes ↔ Arranged documentedLink first rest bytes) ↔
      ∀ c ∈ rest, c.distance = 0 ∨ c.within = 100 ∧ c.within < c.distance := by
  obtain ⟨e,he,hmatches⟩ := ruleExpression_matches hc hplain
  rw [hc] at hplain
  have hword : ∀ c ∈ rest, IsWord c.pattern := fun c h =>
    (hplain c (List.mem_cons_of_mem _ h)).word
  have hbounds : rest.map compiledLink =
      rest.map fun c => ⟨c.distance.toNat,(gapBounds c).2,c.pattern⟩ :=
    List.map_congr_left fun c h => by rw [compiledLink,gapBounds_positioned (hset c h)]
  have hlow : ∀ c ∈ rest, c.distance.toNat ≤ (gapBounds c).2 := fun c h => by
    have := gapBounds_le c
    rwa [gapBounds_positioned (hset c h)] at this ⊢
  have hiff : (∀ bytes, Linked (rest.map compiledLink) bytes ↔
      Linked (rest.map documentedLink) bytes) ↔
      ∀ c ∈ rest, (gapBounds c).2 = c.distance.toNat + c.within.toNat := by
    rw [hbounds]
    exact linked_iff_high (fun c h => (hword c h).zero_notMem) (fun c h => (hword c h).ne_nil)
      hlow fun c _ => Nat.le_add_right ..
  calc (∃ e, ruleExpression rule = some e ∧
        ∀ bytes, e.Matches bytes ↔ Arranged documentedLink first rest bytes)
    _ ↔ ∀ bytes, Arranged compiledLink first rest bytes ↔
          Arranged documentedLink first rest bytes := by
        simp only [he,Option.some.injEq,exists_eq_left',hmatches]
    _ ↔ ∀ bytes, Linked (rest.map compiledLink) bytes ↔
          Linked (rest.map documentedLink) bytes := by
        constructor
        · intro h tail
          simpa [Arranged] using h (first.pattern ++ tail)
        · intro h bytes
          simp only [Arranged,h]
    _ ↔ ∀ c ∈ rest, (gapBounds c).2 = c.distance.toNat + c.within.toNat := hiff
    _ ↔ ∀ c ∈ rest, c.distance = 0 ∨ c.within = 100 ∧ c.within < c.distance := by
        refine forall_congr' fun c => forall_congr' fun hmem => ?_
        have h1 := (hset c hmem).distance_nonneg
        have h3 := (hset c hmem).within_nonneg
        rw [gapBounds_positioned (hset c hmem)]
        split <;> omega

end Rule

/-- Two contents, the second with its position modifiers. -/
def pairLine (distance within : String) : Text :=
  ascii ("alert tcp any any -> any any (content:\"USER\"; content:\"root\"; distance:" ++ distance ++
    "; within:" ++ within ++ "; sid:7;)")

def pairRule (distance within : Int) : AethonRule :=
  { sid := 7, action := .alert, protocol := .tcp
    contents := [{ pattern := ascii "USER" },{ pattern := ascii "root", distance, within }] }

theorem pairRule_plain (distance within : Int) :
    ∀ c ∈ (pairRule distance within).contents, PlainWord c := by
  have hwords : IsWord (ascii "USER") ∧ IsWord (ascii "root") := by decide +kernel
  simp only [pairRule,List.forall_mem_cons,List.not_mem_nil,false_implies,implies_true,and_true]
  exact ⟨⟨hwords.1,rfl,rfl⟩,⟨hwords.2,rfl,rfl⟩⟩

theorem expression_documented_iff_adjacent :
    parseRuleLine (pairLine "0" "5") = some (pairRule 0 5) ∧
      ∃ e, ruleExpression (pairRule 0 5) = some e ∧ ∀ bytes, e.Matches bytes ↔
        Arranged documentedLink { pattern := ascii "USER" }
          [{ pattern := ascii "root", distance := 0, within := 5 }] bytes :=
  ⟨by decide +kernel,(expression_documented_iff rfl (pairRule_plain 0 5) (by
    simp only [List.forall_mem_singleton]
    exact ⟨by decide,by decide,by decide,by decide⟩)).mpr (by simp)⟩

/-- A gap of twelve bytes is documented for a distance of five and a within of ten. -/
theorem documented_gap_not_matched : parseRuleLine (pairLine "5" "10") = some (pairRule 5 10) ∧
    Arranged documentedLink { pattern := ascii "USER" }
      [{ pattern := ascii "root", distance := 5, within := 10 }]
      (ascii "USER            root") ∧
    ∃ e, ruleExpression (pairRule 5 10) = some e ∧ ¬e.Matches (ascii "USER            root") :=
  ⟨by decide +kernel,⟨ascii "            root",by decide,ascii "            ",[],by decide,by decide,
    by decide,rfl⟩,_,rfl,by decide +kernel⟩

end Aethon.Dpi
