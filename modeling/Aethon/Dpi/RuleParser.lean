import Mathlib.Data.List.DropRight
import Aethon.Framework.Pattern

/-!
# The rule parser

`parse_rule_line` and what it calls. A text is a list of bytes; the cursor loops of the source
are recursions on the text that is left.
-/

namespace Aethon.Dpi

open Framework Framework.Pattern

abbrev Text := List UInt8

abbrev tab : UInt8 := 0x09
abbrev space : UInt8 := 0x20
abbrev bang : UInt8 := 0x21
abbrev quote : UInt8 := 0x22
abbrev hash : UInt8 := 0x23
abbrev openParen : UInt8 := 0x28
abbrev closeParen : UInt8 := 0x29
abbrev comma : UInt8 := 0x2c
abbrev minus : UInt8 := 0x2d
abbrev slash : UInt8 := 0x2f
abbrev colon : UInt8 := 0x3a
abbrev semicolon : UInt8 := 0x3b
abbrev backslash : UInt8 := 0x5c
abbrev pipe : UInt8 := 0x7c

def isBlank (c : UInt8) : Bool := c = space || c = tab

/-- `substr` up to the first `c`, or the whole text. -/
def before (c : UInt8) (s : Text) : Text := s.takeWhile (· ≠ c)

/-- `substr` behind the first `c`, or nothing. -/
def behind (c : UInt8) (s : Text) : Text := (s.dropWhile (· ≠ c)).tail

/-- `std::from_chars` at an integer type with the given least and greatest value. -/
def fromChars (least greatest : Int) (s : Text) : Option Int :=
  let negative := decide (least < 0 ∧ s.head? = some minus)
  let digits := (if negative then s.tail else s).takeWhile isDigit
  let value : Int := if negative then -decimalValue digits else decimalValue digits
  if digits = [] then none
  else if least ≤ value ∧ value ≤ greatest then some value
  else none

def fromCharsU16 (s : Text) : Option Nat := (fromChars 0 (2 ^ 16 - 1) s).map Int.toNat

def fromCharsU32 (s : Text) : Option UInt32 :=
  (fromChars 0 (2 ^ 32 - 1) s).map fun n => UInt32.ofNat n.toNat

def fromCharsI32 (s : Text) : Option Int := fromChars (-2 ^ 31) (2 ^ 31 - 1) s

inductive RuleProtocol where
  | any
  | icmp
  | tcp
  | udp
  deriving DecidableEq, Repr

inductive RuleAction where
  | alert
  | drop
  | pass
  | reject
  deriving DecidableEq, Repr

structure PortRange where
  low : Nat := 0
  high : Nat := 65535
  isAny : Bool := true
  deriving DecidableEq, Repr

/-- A content of a rule; a position modifier of `-1` is not set. -/
structure RuleContent where
  pattern : Text
  nocase : Bool := false
  isNegated : Bool := false
  fastPattern : Bool := false
  depth : Int := -1
  offset : Int := -1
  distance : Int := -1
  within : Int := -1
  deriving DecidableEq, Repr

structure AethonRule where
  sid : UInt32 := 0
  rev : UInt32 := 1
  action : RuleAction := .alert
  protocol : RuleProtocol := .any
  srcPort : PortRange := {}
  dstPort : PortRange := {}
  flowEstablished : Bool := false
  flowToServer : Bool := false
  flowToClient : Bool := false
  contents : List RuleContent := []
  pcreRegex : Text := []
  hasPcre : Bool := false
  msg : Text := []
  classtype : Text := []
  cve : Text := []
  confidence : Text := []
  severity : Text := []
  reference : Text := []
  deriving DecidableEq, Repr

section Content

/-- The pair of characters read in a hexadecimal section; a pair that is no number is left out. -/
def hexPair (first second : UInt8) : Text :=
  match hexVal first, hexVal second with
  | some h1, some h2 => hexText (UInt8.ofNat (h1 * 16 + h2))
  | _, _ => []

/-- A character outside the hexadecimal sections. -/
def escapeRegex (c : UInt8) : Text := if isSpecial c then [backslash,c] else [c]

/-- The loop of `normalize_content_to_regex`, with the pending digit of `hex_byte`. -/
def normalizeFrom : Bool → Option UInt8 → Text → Text
  | _, _, [] => []
  | inHex, hexByte, c :: raw =>
      if c = pipe then normalizeFrom (!inHex) none raw
      else if inHex then
        if isBlank c then normalizeFrom true hexByte raw
        else
          match hexByte with
          | none => normalizeFrom true (some c) raw
          | some first => hexPair first c ++ normalizeFrom true none raw
      else escapeRegex c ++ normalizeFrom false hexByte raw

def normalizeContentToRegex (raw : Text) : Text := normalizeFrom false none raw

end Content

section Header

def trim (s : Text) : Text := (s.dropWhile isBlank).rdropWhile isBlank

def parsePortRange (s : Text) : PortRange :=
  let s := trim s
  if s = [] ∨ s = ascii "any" ∨ s = ascii "$HTTP_PORTS" ∨ s = ascii "$SQL_SERVERS" then {}
  else if colon ∉ s then
    match fromCharsU16 s with
    | some port => { low := port, high := port, isAny := false }
    | none => {}
  else
    { low := (fromCharsU16 (before colon s)).getD 0
      high := (fromCharsU16 (behind colon s)).getD 65535
      isAny := false }

/-- The maximal runs of characters that are not blank. -/
def headerTokens : Nat → Text → List Text
  | 0, _ => []
  | fuel + 1, header =>
      match header.dropWhile isBlank with
      | [] => []
      | rest =>
          rest.takeWhile (fun c => !isBlank c) ::
            headerTokens fuel (rest.dropWhile fun c => !isBlank c)

def parseAction (token : Text) : Option RuleAction :=
  if token = ascii "alert" then some .alert
  else if token = ascii "drop" then some .drop
  else if token = ascii "pass" then some .pass
  else if token = ascii "reject" then some .reject
  else none

def parseProtocol (token : Text) : Option RuleProtocol :=
  if token ∈ ["tcp","http","tls","smtp","ssh","ftp"].map ascii then some .tcp
  else if token ∈ ["udp","dns"].map ascii then some .udp
  else if token = ascii "icmp" then some .icmp
  else if token = ascii "ip" then some .any
  else none

/-- The rule as the header alone gives it. -/
def parseHeader (header : Text) : Option AethonRule :=
  match headerTokens header.length header with
  | action :: protocol :: _ :: srcPort :: _ :: _ :: dstPort :: _ => do
      let action ← parseAction action
      let protocol ← parseProtocol protocol
      return { action, protocol, srcPort := parsePortRange srcPort,
               dstPort := parsePortRange dstPort }
  | _ => none

end Header

section Options

/-- Find the semicolon that ends an option, respecting quotes: the option and what follows the
semicolon. A quote behind a backslash does not count; `escaped` says that the last character
was a backslash. -/
def scanOption : Bool → Bool → Text → Text × Text
  | _, _, [] => ([],[])
  | escaped, insideQuote, c :: body =>
      if c = quote ∧ !escaped then
        let (opt,rest) := scanOption false (!insideQuote) body
        (c :: opt,rest)
      else if c = semicolon ∧ !insideQuote then ([],body)
      else
        let (opt,rest) := scanOption (c = backslash) insideQuote body
        (c :: opt,rest)

def isSkipped (c : UInt8) : Bool := isBlank c || c = semicolon

/-- The key and the value of an option. -/
def keyVal (opt : Text) : Text × Text :=
  ((before colon opt).rdropWhile (· = space),(behind colon opt).dropWhile (· = space))

/-- The option loop up to the use of the options: their keys and values. -/
def splitOptions : Nat → Text → List (Text × Text)
  | 0, _ => []
  | fuel + 1, body =>
      match body.dropWhile isSkipped with
      | [] => []
      | rest =>
          let (opt,rest) := scanOption false false rest
          let opt := trim opt
          if opt = [] then splitOptions fuel rest
          else keyVal opt :: splitOptions fuel rest

def unquote (v : Text) : Text :=
  if 2 ≤ v.length ∧ v.head? = some quote ∧ v.getLast? = some quote then v.tail.dropLast else v

def modifyLast {α : Type} (f : α → α) : List α → List α
  | [] => []
  | [x] => [f x]
  | x :: y :: xs => x :: modifyLast f (y :: xs)

/-- The regex between the enclosing slashes of a `pcre` value and the flags behind it. -/
def splitPcre (raw : Text) : Option (Text × Text) :=
  match raw with
  | [] => none
  | c :: raw =>
      if c = slash ∧ slash ∈ raw then
        some ((raw.rdropWhile (· ≠ slash)).dropLast,raw.rtakeWhile (· ≠ slash))
      else none

def metadataItems : Nat → Text → List Text
  | 0, _ => []
  | fuel + 1, val =>
      match val.dropWhile fun c => c = space || c = comma with
      | [] => []
      | rest => before comma rest :: metadataItems fuel (behind comma rest)

def applyMetadata (rule : AethonRule) (item : Text) : AethonRule :=
  if space ∉ item then rule
  else
    let mkey := before space item
    let mval := behind space item
    if mkey = ascii "cve" ∧ rule.cve = [] then { rule with cve := mval }
    else if mkey = ascii "confidence" then { rule with confidence := mval }
    else if mkey = ascii "signature_severity" ∨ mkey = ascii "severity" then
      { rule with severity := mval }
    else rule

/-- A modifier applies to the most recent content. -/
def AethonRule.modifyContent (rule : AethonRule) (f : RuleContent → RuleContent) : AethonRule :=
  { rule with contents := modifyLast f rule.contents }

/-- The content of an option: a leading `!` negates it. -/
def parseContent (val : Text) : RuleContent :=
  if val.head? = some bang then
    { pattern := normalizeContentToRegex (unquote val.tail), isNegated := true }
  else { pattern := normalizeContentToRegex (unquote val) }

/-- The keys that `parse_rule_line` knows. -/
inductive OptionKey where
  | msg
  | sid
  | rev
  | classtype
  | content
  | nocase
  | fastPattern
  | depth
  | offset
  | distance
  | within
  | pcre
  | flow
  | reference
  | metadata
  | unknown
  deriving DecidableEq, Repr

def optionNames : List (String × OptionKey) :=
  [("msg",.msg),("sid",.sid),("rev",.rev),("classtype",.classtype),("content",.content),
    ("nocase",.nocase),("fast_pattern",.fastPattern),("depth",.depth),("offset",.offset),
    ("distance",.distance),("within",.within),("pcre",.pcre),("flow",.flow),
    ("reference",.reference),("metadata",.metadata)]

def optionKey (key : Text) : OptionKey :=
  match optionNames.find? fun entry => ascii entry.1 = key with
  | some entry => entry.2
  | none => .unknown

def applyOption (rule : AethonRule) (key val : Text) : AethonRule :=
  match optionKey key with
  | .msg => { rule with msg := unquote val }
  | .sid => { rule with sid := (fromCharsU32 val).getD 0 }
  | .rev => { rule with rev := (fromCharsU32 val).getD 1 }
  | .classtype => { rule with classtype := val }
  | .content => { rule with contents := rule.contents ++ [parseContent val] }
  | .nocase => rule.modifyContent fun c => { c with nocase := true }
  | .fastPattern => rule.modifyContent fun c => { c with fastPattern := true }
  | .depth => rule.modifyContent fun c => { c with depth := (fromCharsI32 val).getD (-1) }
  | .offset => rule.modifyContent fun c => { c with offset := (fromCharsI32 val).getD (-1) }
  | .distance => rule.modifyContent fun c => { c with distance := (fromCharsI32 val).getD (-1) }
  | .within => rule.modifyContent fun c => { c with within := (fromCharsI32 val).getD (-1) }
  | .pcre =>
      match splitPcre (unquote val) with
      | some (regex,_) => { rule with pcreRegex := regex, hasPcre := true }
      | none => rule
  | .flow =>
      { rule with
        flowEstablished := rule.flowEstablished || decide (ascii "established" <:+: val)
        flowToServer := rule.flowToServer || decide (ascii "to_server" <:+: val)
        flowToClient := rule.flowToClient || decide (ascii "to_client" <:+: val) }
  | .reference =>
      if comma ∉ val then rule
      else if before comma val = ascii "cve" then
        { rule with cve := ascii "CVE-" ++ behind comma val, reference := val }
      else { rule with reference := val }
  | .metadata => (metadataItems val.length val).foldl applyMetadata rule
  | .unknown => rule

end Options

/-- A rule has a signature id and at least one pattern. -/
def AethonRule.accepted (rule : AethonRule) : Bool :=
  rule.sid ≠ 0 && (rule.contents ≠ [] || rule.hasPcre)

def parseBody (rule : AethonRule) (body : Text) : AethonRule :=
  (splitOptions body.length body).foldl (fun rule opt => applyOption rule opt.1 opt.2) rule

/-- The text between the first opening and the last closing parenthesis. -/
def bodyOf (line : Text) : Option Text :=
  let rest := behind openParen line
  if openParen ∈ line ∧ closeParen ∈ rest then some (rest.rdropWhile (· ≠ closeParen)).dropLast
  else none

def parseRuleLine (line : Text) : Option AethonRule := do
  let line := line.dropWhile isBlank
  if line = [] ∨ line.head? = some hash then none
  else
    let body ← bodyOf line
    let header ← parseHeader (before openParen line)
    let rule := parseBody header body
    if rule.accepted then some rule else none

end Aethon.Dpi
