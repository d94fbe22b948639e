import Aethon.Dpi.Modifiers

/-!
# Content texts

The texts that a rule may give for a content, and the bytes they stand for. The normalised
expression is a row of literal atoms for these bytes; it may be longer than they are, and the
match callback takes its length for theirs.
-/

namespace Aethon.Dpi

open Framework Framework.Pattern

section Grammar

/-- What stands between two pipes: bytes of two hexadecimal digits, with any blanks between
them. -/
inductive HexSection : Text → List UInt8 → Prop where
  | nil : HexSection [] []
  | blank {c : UInt8} {text : Text} {bytes : List UInt8} (hc : isBlank c = true)
      (h : HexSection text bytes) : HexSection (c :: text) bytes
  | byte {first second : UInt8} {high low : Nat} {text : Text} {bytes : List UInt8}
      (hfirst : hexVal first = some high) (hsecond : hexVal second = some low)
      (h : HexSection text bytes) :
      HexSection (first :: second :: text) (UInt8.ofNat (high * 16 + low) :: bytes)

/-- A content text: characters that stand for themselves, and hexadecimal sections. -/
inductive ContentText : Text → List UInt8 → Prop where
  | nil : ContentText [] []
  | char {c : UInt8} {text : Text} {bytes : List UInt8} (hc : c ≠ pipe)
      (h : ContentText text bytes) : ContentText (c :: text) (c :: bytes)
  | hex {inner text : Text} {bytes bytes' : List UInt8} (hinner : HexSection inner bytes)
      (h : ContentText text bytes') :
      ContentText (pipe :: inner ++ pipe :: text) (bytes ++ bytes')

theorem hexVal_plain {c : UInt8} {n : Nat} (h : hexVal c = some n) :
    c ≠ pipe ∧ isBlank c = false := by
  have hother : ∀ c, hexVal c = none → hexVal c ≠ some n := fun c hc => by simp [hc]
  have hpipe : c ≠ pipe := fun hc => hother pipe (by decide) (hc ▸ h)
  have hspace : c ≠ space := fun hc => hother space (by decide) (hc ▸ h)
  have htab : c ≠ tab := fun hc => hother tab (by decide) (hc ▸ h)
  exact ⟨hpipe,by simp [isBlank,hspace,htab]⟩

theorem HexSection.bytesFrom_eq {inner : Text} {bytes : List UInt8} (h : HexSection inner bytes)
    (rest : Text) :
    bytesFrom true none (inner ++ pipe :: rest) = bytes ++ bytesFrom false none rest := by
  induction h with
  | nil => simp [bytesFrom]
  | @blank c _ _ hc _ ih =>
    have hpipe : c ≠ pipe := fun heq => absurd (heq ▸ hc) (by decide)
    simpa [bytesFrom,hpipe,hc] using ih
  | byte hfirst hsecond _ ih =>
    obtain ⟨hpipe,hblank⟩ := hexVal_plain hfirst
    obtain ⟨hpipe',hblank'⟩ := hexVal_plain hsecond
    simp [bytesFrom,hpipe,hblank,hpipe',hblank',hexByte,hfirst,hsecond,ih]

theorem ContentText.contentBytes_eq {text : Text} {bytes : List UInt8}
    (h : ContentText text bytes) : contentBytes text = bytes := by
  unfold contentBytes
  induction h with
  | nil => rfl
  | char hc _ ih => simp [bytesFrom,hc,ih]
  | hex hinner _ ih =>
    rw [List.cons_append,bytesFrom,if_pos rfl,Bool.not_false,hinner.bytesFrom_eq,ih]

theorem ContentText.literals {text : Text} {bytes : List UInt8} (h : ContentText text bytes) :
    Literals (normalizeContentToRegex text) bytes := by
  rw [← h.contentBytes_eq]
  exact literals_normalizeFrom false none text

/-- The normalised expression is a row of literal atoms for the bytes of the text, and matches
these bytes and nothing else. -/
theorem normalized_content_matches {text : Text} {bytes : List UInt8}
    (h : ContentText text bytes) :
    Literals (normalizeContentToRegex text) bytes ∧
      ∃ atoms, read (normalizeContentToRegex text) = some atoms ∧
        ∀ flags : Flags, flags.caseless = false →
          ∀ s, Matches flags atoms s ↔ s = bytes :=
  ⟨h.literals,bytes.map .byte,h.literals.reads.read_eq,fun _ hcase _ => matches_word hcase⟩

/-- The text `a.|0d 0A|` and its bytes. -/
def crlfText : Text := ascii "a.|0d 0A|"

theorem crlfText_content : ContentText crlfText [0x61,0x2e,0x0d,0x0a] :=
  .char (by decide) (.char (by decide) (@ContentText.hex (ascii "0d 0A") [] [0x0d,0x0a] []
    (@HexSection.byte 0x30 0x64 0 13 _ _ rfl rfl (.blank (c := 0x20) rfl
      (@HexSection.byte 0x30 0x41 0 10 _ _ rfl rfl .nil))) .nil))

theorem normalized_content_matches_crlf :
    normalizeContentToRegex crlfText = ascii "a\\.\\x0d\\x0a" ∧
      Literals (normalizeContentToRegex crlfText) [0x61,0x2e,0x0d,0x0a] ∧
      ∃ atoms, read (normalizeContentToRegex crlfText) = some atoms ∧
        ∀ flags : Flags, flags.caseless = false →
          ∀ s, Matches flags atoms s ↔ s = [0x61,0x2e,0x0d,0x0a] :=
  ⟨by decide +kernel,normalized_content_matches crlfText_content⟩

end Grammar

section Filter

/-- An end of a match of `n` bytes lies in the window of a content. -/
def EndsInWindow (c : RuleContent) (n stop : Nat) : Prop :=
  (c.offset < 0 ∨ (stop : Int) - n ≥ c.offset) ∧
    (c.depth < 0 ∨ (stop : Int) ≤ max c.offset 0 + c.depth)

theorem Literals.length_le {text : Text} {bytes : List UInt8} (h : Literals text bytes) :
    bytes.length ≤ text.length := by
  simpa using h.reads.length_le

variable {m : RuleMap} {rule : AethonRule} {c : RuleContent} {text : Text} {bytes : List UInt8}

/-- The callback counts the matches in the window, but for those that end less than the length
of the expression behind an offset. -/
theorem match_filter_iff (hfind : m.find rule.sid = .ok (some (some rule)))
    (hc : rule.contents = [c]) (hpattern : c.pattern = normalizeContentToRegex text)
    (htext : ContentText text bytes) (payload : List UInt8) (alerts : List AttackAlert)
    (stop : Nat) :
    ∃ alerts', onMatchEvent (some m) payload alerts (rule.sid,stop) = .ok alerts' ∧
      ((alerts'.length = alerts.length + 1 ↔ EndsInWindow c bytes.length stop) ↔
        c.offset < 0 ∨ (stop : Int) < c.offset + bytes.length ∨
          c.offset + c.pattern.length ≤ stop ∨ 0 ≤ c.depth ∧ c.offset + c.depth < stop) := by
  refine ⟨_,onMatchEvent_word hfind hc payload alerts stop,?_⟩
  have hlen : bytes.length ≤ c.pattern.length := by
    rw [hpattern]
    exact htext.literals.length_le
  have hcount : (if Passes c stop then alerts ++ [⟨rule.sid,rule,stop,payload⟩]
      else alerts).length = alerts.length + 1 ↔ Passes c stop := by
    split_ifs with hpass
    · simp [hpass]
    · simp [hpass]
  rw [hcount,Passes,EndsInWindow,RuleContent.start]
  omega

instance (c : RuleContent) (n stop : Nat) : Decidable (EndsInWindow c n stop) :=
  inferInstanceAs (Decidable (_ ∧ _))

def hexLine : Text :=
  ascii "alert tcp any any -> any any (content:\"|04|\"; offset:0; depth:1; sid:7;)"

def hexContent : RuleContent := { pattern := ascii "\\x04", offset := 0, depth := 1 }

def hexRule : AethonRule :=
  { sid := 7, action := .alert, protocol := .tcp, contents := [hexContent] }

theorem hexText_content : ContentText (ascii "|04|") [0x04] :=
  @ContentText.hex (ascii "04") [] [0x04] [] (@HexSection.byte 0x30 0x34 0 4 _ _ rfl rfl .nil) .nil

theorem match_filter_iff_late : ∃ m, insertRules [hexRule] (RuleMap.new 64) = .ok m ∧
    ∃ alerts', onMatchEvent (some m) (ascii "xxx") [] (hexRule.sid,4) = .ok alerts' ∧
      (alerts'.length = 0 + 1 ↔ EndsInWindow hexContent 1 4) := by
  obtain ⟨m,hinsert,hfind⟩ := insertRules_single (show hexRule.sid ≠ 0 by decide) 64
  obtain ⟨alerts',hrun,hiff⟩ := match_filter_iff (c := hexContent) hfind rfl (by decide +kernel)
    hexText_content (ascii "xxx") [] 4
  exact ⟨m,hinsert,alerts',hrun,hiff.mpr (by decide)⟩

/-- The byte is the first of the stream, as the rule asks, and its report is dropped. -/
theorem match_in_window_dropped : parseRuleLine hexLine = some hexRule ∧
    ContentText (ascii "|04|") [0x04] ∧
    hexContent.pattern = normalizeContentToRegex (ascii "|04|") ∧
    (∃ e, ruleExpression hexRule = some e ∧ (7,1) ∈ Hyperscan.reference.reports [e] [] [0x04]) ∧
    EndsInWindow hexContent 1 1 ∧
    ∃ m, insertRules [hexRule] (RuleMap.new 64) = .ok m ∧
      m.find hexRule.sid = .ok (some (some hexRule)) ∧
      onMatchEvent (some m) [0x04] [] (hexRule.sid,1) = .ok [] := by
  obtain ⟨m,hinsert,hfind⟩ := insertRules_single (show hexRule.sid ≠ 0 by decide) 64
  refine ⟨by decide +kernel,hexText_content,by decide +kernel,⟨_,rfl,by decide +kernel⟩,by decide,
    m,hinsert,hfind,?_⟩
  rw [onMatchEvent_word (c := hexContent) hfind rfl,if_neg (by decide)]

end Filter

end Aethon.Dpi
