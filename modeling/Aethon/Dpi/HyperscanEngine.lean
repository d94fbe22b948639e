import Aethon.Container.TableUpdate
import Aethon.Dpi.RuleParser

/-!
# The Hyperscan engine

`compile_rules`, the match callback and `scan_stream`. Hyperscan itself is a parameter: which
expressions it accepts, where it finds a match to end and what it reports to the callback. Its
documentation is the structure `Hyperscan.Documented`.
-/

namespace Aethon.Dpi

open Framework Framework.Pattern

/-- An expression with its compile flags and its id. -/
structure Expression where
  text : Text
  flags : Flags
  singlematch : Bool
  id : UInt32
  deriving DecidableEq, Repr

/-- The library. `endsAt e bytes` says that a match of `e` ends with the last of the bytes, and
`reports exprs taken chunk` are the calls of the match callback when a stream that has taken some
bytes is given more. -/
structure Hyperscan where
  compileMulti : List Expression → Bool
  endsAt : Expression → List UInt8 → Prop
  reports : List Expression → List UInt8 → List UInt8 → List (UInt32 × Nat)

/-- `stop` is an end that is reported on a stream of these bytes: with `HS_FLAG_SINGLEMATCH` only
the earliest one is. -/
def Hyperscan.ReportedEnd (hs : Hyperscan) (e : Expression) (bytes : List UInt8) (stop : Nat) :
    Prop :=
  hs.endsAt e (bytes.take stop) ∧
    (e.singlematch = true → ∀ k < stop, ¬hs.endsAt e (bytes.take k))

structure Hyperscan.Documented (hs : Hyperscan) : Prop where
  accepts : ∀ exprs, (∀ e ∈ exprs, ∃ atoms b, read e.text = some atoms ∧ .byte b ∈ atoms) →
    hs.compileMulti exprs = true
  endsAt_iff : ∀ e atoms bytes, read e.text = some atoms →
    (hs.endsAt e bytes ↔ ∃ before part, bytes = before ++ part ∧ Matches e.flags atoms part)
  mem_reports : ∀ exprs taken chunk id stop, (id,stop) ∈ hs.reports exprs taken chunk ↔
    ∃ e ∈ exprs, e.id = id ∧ taken.length < stop ∧ stop ≤ (taken ++ chunk).length ∧
      hs.ReportedEnd e (taken ++ chunk) stop

/-- A match of an expression that is read here ends with the last of the bytes. -/
def Expression.ends (e : Expression) (bytes : List UInt8) : Bool :=
  match read e.text with
  | some atoms => decide (∃ k ≤ bytes.length, Matches e.flags atoms (bytes.drop k))
  | none => false

/-- A library that does what is documented, for expressions that are read here. -/
def Hyperscan.reference : Hyperscan where
  compileMulti _ := true
  endsAt e bytes := e.ends bytes = true
  reports exprs taken chunk := exprs.flatMap fun (e : Expression) =>
    ((List.range (chunk.length + 1)).map (taken.length + ·)).filterMap fun stop =>
      if taken.length < stop ∧ e.ends ((taken ++ chunk).take stop) = true ∧
          (e.singlematch = true → ∀ j < stop, ¬e.ends ((taken ++ chunk).take j) = true) then
        some (e.id,stop)
      else none

theorem Hyperscan.reference_documented : Hyperscan.reference.Documented where
  accepts _ _ := rfl
  endsAt_iff e atoms bytes hread := by
    simp only [reference,Expression.ends,hread,decide_eq_true_eq]
    constructor
    · rintro ⟨k,_,hk⟩
      exact ⟨bytes.take k,bytes.drop k,(List.take_append_drop k bytes).symm,hk⟩
    · rintro ⟨before,part,rfl,hpart⟩
      exact ⟨before.length,by simp,by simpa using hpart⟩
  mem_reports exprs taken chunk id stop := by
    simp only [reference,ReportedEnd,List.mem_flatMap,List.mem_filterMap,List.mem_map,
      List.mem_range]
    constructor
    · rintro ⟨e,he,stop',⟨j,hj,rfl⟩,hif⟩
      split at hif
      · rename_i hcond
        obtain ⟨rfl,rfl⟩ := Prod.mk.inj (Option.some.inj hif)
        refine ⟨e,he,rfl,hcond.1,?_,hcond.2⟩
        rw [List.length_append]
        omega
      · cases hif
    · rintro ⟨e,he,rfl,hlow,hhigh,hend⟩
      rw [List.length_append] at hhigh
      exact ⟨e,he,stop,⟨stop - taken.length,by omega,by omega⟩,if_pos ⟨hlow,hend⟩⟩

section Compile

/-- `SingleThreadDefaultHash`. -/
def singleThreadDefaultHash (key : UInt32) : Nat :=
  let x := BitVec.ofNat 64 key.toNat
  let x := x ^^^ (x >>> 30)
  let x := x * 0xbf58476d1ce4e5b9#64
  let x := x ^^^ (x >>> 27)
  let x := x * 0x94d049bb133111eb#64
  let x := x ^^^ (x >>> 31)
  x.toNat

def nextPowerOfTwo (n : Nat) : Nat :=
  if n < 64 then 64
  else
    let n := n - 1
    let n := n ||| n >>> 1
    let n := n ||| n >>> 2
    let n := n ||| n >>> 4
    let n := n ||| n >>> 8
    let n := n ||| n >>> 16
    let n := n ||| n >>> 32
    n + 1

/-- The rules by signature id; a pointer to a rule is the rule, and `none` is `nullptr`. -/
abbrev RuleMap := SingleThreadHashMap UInt32 (Option AethonRule)

def RuleMap.new (capacity : Nat) : RuleMap :=
  SingleThreadHashMap.new 0 singleThreadDefaultHash none (Nat.log2 capacity)

/-- The bounds of the gap in front of a content. -/
def gapBounds (nxt : RuleContent) : Nat × Nat :=
  let d := if nxt.distance ≥ 0 then nxt.distance.toNat else 0
  let w := if nxt.within ≥ 0 then nxt.within.toNat else 100
  let d := if d > 500 then 500 else d
  let w := if w > 1000 then 1000 else w
  (d,if w < d then d + 100 else w)

/-- A content after the first, with the gap in front of it. -/
def linkText (nxt : RuleContent) : Text :=
  gapText (gapBounds nxt).1 (gapBounds nxt).2 ++ nxt.pattern

/-- The pattern of a rule: its contents in order, or its regex if it has none. -/
def rulePattern (r : AethonRule) : Text :=
  match r.contents with
  | first :: rest => first.pattern ++ rest.flatMap linkText
  | [] => if r.hasPcre then r.pcreRegex else []

/-- `c_str()`: what the library sees of a string ends at its first null. -/
def cStr (s : Text) : Text := s.takeWhile (· ≠ 0)

def ruleExpression (r : AethonRule) : Option Expression :=
  if rulePattern r = [] then none
  else some
    { text := cStr (rulePattern r)
      flags := { caseless := r.contents.any (·.nocase), dotall := true }
      singlematch := true
      id := r.sid }

structure HyperscanEngine where
  db : Option (List Expression) := none
  ruleMap : Option RuleMap := none

def insertRules : List AethonRule → RuleMap → Checked RuleMap
  | [], ruleMap => .ok ruleMap
  | r :: rules, ruleMap => do
      let (_,ruleMap) ← ruleMap.emplace r.sid (some r)
      insertRules rules ruleMap

/-- `compile_rules`: whether it succeeded, and the engine it leaves. -/
def compileRules (hs : Hyperscan) (rules : List AethonRule) : Checked (Bool × HyperscanEngine) := do
  if rules = [] then return (false,{})
  else
    let ruleMap ← insertRules rules (RuleMap.new (nextPowerOfTwo (rules.length * 2)))
    let exprs := rules.filterMap ruleExpression
    if exprs = [] then return (false,{ ruleMap })
    else if hs.compileMulti exprs then return (true,{ db := some exprs, ruleMap })
    else return (false,{ ruleMap })

end Compile

section Scan

structure AttackAlert where
  sid : UInt32
  rule : AethonRule
  matchOffset : Nat
  payload : List UInt8

/-- `on_match_event`: the alerts so far, of which `match_count` is the number. Offset and depth of
the first content filter the reported end. -/
def onMatchEvent (ruleMap : Option RuleMap) (payload : List UInt8) (alerts : List AttackAlert)
    (event : UInt32 × Nat) : Checked (List AttackAlert) := do
  match ruleMap with
  | none => return alerts
  | some ruleMap =>
      match ← ruleMap.find event.1 with
      | some (some rule) =>
          let alert : AttackAlert := ⟨event.1,rule,event.2,payload⟩
          match rule.contents with
          | [] => return alerts ++ [alert]
          | first :: _ =>
              let startBase := if first.offset ≥ 0 then first.offset.toNat else 0
              if first.offset ≥ 0 ∧ event.2 < first.offset.toNat + first.pattern.length then
                return alerts
              else if first.depth ≥ 0 ∧ event.2 > startBase + first.depth.toNat then
                return alerts
              else return alerts ++ [alert]
      | _ => return alerts

/-- `HyperscanWorker`, as `create_worker` makes it. -/
structure HyperscanWorker where
  db : Option (List Expression) := none
  ruleMap : Option RuleMap := none

def HyperscanEngine.createWorker (engine : HyperscanEngine) : HyperscanWorker :=
  match engine.db with
  | none => {}
  | some db => { db := some db, ruleMap := engine.ruleMap }

/-- `scan_stream` on the stream that has taken the given bytes: its result and the bytes the
stream has then taken. Without a database there is no stream. -/
def HyperscanWorker.scanStream (hs : Hyperscan) (worker : HyperscanWorker)
    (taken payload : List UInt8) : Checked (Bool × List UInt8) := do
  match worker.db with
  | none => return (false,taken)
  | some db =>
      if payload = [] then return (false,taken)
      else
        let chunk := payload.take (payload.length % 2 ^ 32)
        let alerts ← (hs.reports db taken chunk).foldlM (onMatchEvent worker.ruleMap payload) []
        return (alerts.length > 0,taken ++ chunk)

/-- The results of the calls of `scan_stream` on one stream. -/
def HyperscanWorker.scanChunks (hs : Hyperscan) (worker : HyperscanWorker) :
    List UInt8 → List (List UInt8) → Checked (List Bool)
  | _, [] => .ok []
  | taken, chunk :: chunks => do
      let (matched,taken) ← worker.scanStream hs taken chunk
      let results ← worker.scanChunks hs taken chunks
      return matched :: results

end Scan

end Aethon.Dpi
