import Aethon.Dpi.HyperscanEngine

/-!
# Detection in a position window

One rule with one word as its content, from `compile_rules` to the results of `scan_stream` on a
stream cut into chunks. Hyperscan reports the earliest end only, and the callback drops a report
outside the window, so that the first occurrence decides for all of them.
-/

namespace Aethon.Dpi

open Framework Framework.Pattern

variable {hs : Hyperscan}

/-- A word of letters and digits. -/
structure IsWord (s : Text) : Prop where
  ne_nil : s ≠ []
  alnum : ∀ c ∈ s, isAlnum c = true

instance (s : Text) : Decidable (IsWord s) :=
  decidable_of_iff (s ≠ [] ∧ s.all isAlnum = true)
    ⟨fun h => ⟨h.1,List.all_eq_true.mp h.2⟩,fun h => ⟨h.ne_nil,List.all_eq_true.mpr h.alnum⟩⟩

theorem IsWord.reads {s : Text} (h : IsWord s) : Reads s (s.map .byte) :=
  Reads.word fun c hc => isSpecial_of_isAlnum (h.alnum c hc)

theorem IsWord.zero_notMem {s : Text} (h : IsWord s) : 0 ∉ s :=
  fun hz => absurd (h.alnum 0 hz) (by decide)

theorem cStr_eq {s : Text} (h : 0 ∉ s) : cStr s = s := by
  rw [cStr,List.takeWhile_eq_self_iff]
  intro c hc
  simpa using fun heq : c = 0 => h (heq ▸ hc)

section Compiled

variable {rule : AethonRule} {c : RuleContent}

/-- The expression of a rule with one word as its content. -/
def wordExpression (rule : AethonRule) (c : RuleContent) : Expression where
  text := c.pattern
  flags := { caseless := false, dotall := true }
  singlematch := true
  id := rule.sid

theorem ruleExpression_word (hc : rule.contents = [c]) (hword : IsWord c.pattern)
    (hcase : c.nocase = false) : ruleExpression rule = some (wordExpression rule c) := by
  have hpattern : rulePattern rule = c.pattern := by simp [rulePattern,hc]
  rw [ruleExpression,hpattern,if_neg hword.ne_nil,cStr_eq hword.zero_notMem]
  simp [wordExpression,hc,hcase]

/-- The rule alone in its map is found. -/
theorem insertRules_single (hsid : rule.sid ≠ 0) (capacity : Nat) :
    ∃ m : RuleMap, insertRules [rule] (RuleMap.new capacity) = .ok m ∧
      m.find rule.sid = .ok (some (some rule)) := by
  obtain ⟨b,m,hrun,hwf,_,hstored,_,_⟩ :=
    (SingleThreadHashMap.new_wf 0 singleThreadDefaultHash (none : Option AethonRule)
      (Nat.log2 capacity)).emplace_spec rule.sid (some rule) hsid (by simp [SingleThreadHashMap.new])
  refine ⟨m,?_,hwf.find_alone ((hstored _ _).mpr (.inl ⟨rfl,rfl⟩)) fun k v hkv => ?_⟩
  · simp only [insertRules,RuleMap.new,hrun,bind,Except.bind]
  · rcases (hstored k v).mp hkv with ⟨hk,_⟩ | ⟨_,hkv⟩
    · exact hk
    · exact (SingleThreadHashMap.new_not_stored _ _ _ _ _ _ hkv).elim

/-- What `compile_rules` makes of the rule. -/
theorem compileRules_word (hdoc : hs.Documented) (hc : rule.contents = [c])
    (hword : IsWord c.pattern) (hcase : c.nocase = false) (hsid : rule.sid ≠ 0) :
    ∃ m : RuleMap, compileRules hs [rule] =
        .ok (true,{ db := some [wordExpression rule c], ruleMap := some m }) ∧
      m.find rule.sid = .ok (some (some rule)) := by
  obtain ⟨m,hinsert,hfind⟩ := insertRules_single hsid (nextPowerOfTwo 2)
  have haccept : hs.compileMulti [wordExpression rule c] = true := by
    apply hdoc.accepts
    intro e he
    cases List.mem_singleton.mp he
    obtain ⟨b,rest,hb⟩ := List.exists_cons_of_ne_nil hword.ne_nil
    exact ⟨_,b,hword.reads.read_eq,by simp [hb]⟩
  have hinsert' : insertRules [rule] (RuleMap.new (nextPowerOfTwo ([rule].length * 2))) = .ok m :=
    hinsert
  refine ⟨m,?_,hfind⟩
  simp only [compileRules,hinsert',List.filterMap_cons,ruleExpression_word hc hword hcase,
    List.filterMap_nil,haccept,bind,Except.bind]
  rfl

end Compiled

section Reports

variable {rule : AethonRule} {c : RuleContent} {m : RuleMap}

/-- Where an occurrence may start: `offset`, or the start of the stream. -/
def RuleContent.start (c : RuleContent) : Nat := c.offset.toNat

/-- The filter of `on_match_event` lets an end pass. -/
def Passes (c : RuleContent) (stop : Nat) : Prop :=
  (c.offset ≥ 0 → c.start + c.pattern.length ≤ stop) ∧
    (c.depth ≥ 0 → stop ≤ c.start + c.depth.toNat)

instance (c : RuleContent) (stop : Nat) : Decidable (Passes c stop) :=
  inferInstanceAs (Decidable (_ ∧ _))

theorem onMatchEvent_word (hfind : m.find rule.sid = .ok (some (some rule)))
    (hc : rule.contents = [c]) (payload : List UInt8) (alerts : List AttackAlert) (stop : Nat) :
    onMatchEvent (some m) payload alerts (rule.sid,stop) =
      .ok (if Passes c stop then alerts ++ [⟨rule.sid,rule,stop,payload⟩] else alerts) := by
  have hbase : (if c.offset ≥ 0 then c.offset.toNat else 0) = c.offset.toNat := by
    split
    · rfl
    · omega
  simp only [onMatchEvent,hfind,hc,hbase,bind,Except.bind]
  by_cases hlow : c.offset ≥ 0 ∧ stop < c.offset.toNat + c.pattern.length
  · have hpass : ¬Passes c stop := fun h => absurd (h.1 hlow.1) (Nat.not_le.mpr hlow.2)
    rw [if_pos hlow,if_neg hpass]
    rfl
  · by_cases hhigh : c.depth ≥ 0 ∧ stop > c.offset.toNat + c.depth.toNat
    · have hpass : ¬Passes c stop := fun h => absurd (h.2 hhigh.1) (Nat.not_le.mpr hhigh.2)
      rw [if_neg hlow,if_pos hhigh,if_neg hpass]
      rfl
    · have hpass : Passes c stop := by
        constructor
        · exact fun hoffset => Nat.not_lt.mp fun h => hlow ⟨hoffset,h⟩
        · exact fun hdepth => Nat.not_lt.mp fun h => hhigh ⟨hdepth,h⟩
      rw [if_neg hlow,if_neg hhigh,if_pos hpass]
      rfl

/-- The callback over reports of the rule: there is an alert if an end passes. -/
theorem foldlM_onMatchEvent (hfind : m.find rule.sid = .ok (some (some rule)))
    (hc : rule.contents = [c]) (payload : List UInt8) (events : List (UInt32 × Nat))
    (hids : ∀ event ∈ events, event.1 = rule.sid) (alerts : List AttackAlert) :
    ∃ alerts', events.foldlM (onMatchEvent (some m) payload) alerts = .ok alerts' ∧
      (alerts'.length > 0 ↔ alerts.length > 0 ∨ ∃ event ∈ events, Passes c event.2) := by
  induction events generalizing alerts with
  | nil => exact ⟨alerts,rfl,by simp⟩
  | cons event events ih =>
    obtain ⟨id,stop⟩ := event
    cases (hids (id,stop) List.mem_cons_self : id = rule.sid)
    obtain ⟨alerts',hrun,hlen⟩ := ih (fun e he => hids e (List.mem_cons_of_mem _ he))
      (if Passes c stop then alerts ++ [⟨rule.sid,rule,stop,payload⟩] else alerts)
    refine ⟨alerts',?_,?_⟩
    · rw [List.foldlM_cons,onMatchEvent_word hfind hc]
      exact hrun
    · rw [hlen]
      by_cases hpass : Passes c stop <;> simp [hpass]

end Reports

section Stream

variable {rule : AethonRule} {c : RuleContent} {m : RuleMap} {e : Expression}

/-- An end that is reported and passes, behind the bytes that the stream had taken before. -/
def Alerting (hs : Hyperscan) (e : Expression) (c : RuleContent) (taken : Nat)
    (bytes : List UInt8) (stop : Nat) : Prop :=
  taken < stop ∧ stop ≤ bytes.length ∧ hs.ReportedEnd e bytes stop ∧ Passes c stop

/-- What follows an end does not matter to its report. -/
theorem Hyperscan.reportedEnd_append {bytes more : List UInt8} {stop : Nat}
    (hstop : stop ≤ bytes.length) :
    hs.ReportedEnd e (bytes ++ more) stop ↔ hs.ReportedEnd e bytes stop := by
  have htake : ∀ k ≤ stop, (bytes ++ more).take k = bytes.take k := fun k hk =>
    List.take_append_of_le_length (hk.trans hstop)
  simp only [ReportedEnd,htake stop le_rfl]
  refine and_congr_right fun _ => forall_congr' fun _ => forall_congr' fun k => ?_
  exact forall_congr' fun hk => by rw [htake k hk.le]

theorem scanStream_word (hdoc : hs.Documented)
    (hfind : m.find rule.sid = .ok (some (some rule))) (hc : rule.contents = [c])
    (hid : e.id = rule.sid) (taken : List UInt8) {payload : List UInt8}
    (hfits : payload.length < 2 ^ 32) :
    ∃ b, HyperscanWorker.scanStream hs ⟨some [e],some m⟩ taken payload =
        .ok (b,taken ++ payload) ∧
      (b = true ↔ ∃ stop, Alerting hs e c taken.length (taken ++ payload) stop) := by
  by_cases hnil : payload = []
  · refine ⟨false,?_,?_⟩
    · simp only [HyperscanWorker.scanStream,hnil,if_true,List.append_nil]
      rfl
    · simp only [Bool.false_eq_true,false_iff,hnil,List.append_nil,Alerting,not_exists]
      omega
  · have hmem := hdoc.mem_reports [e] taken payload
    obtain ⟨alerts,hrun,halerts⟩ := foldlM_onMatchEvent hfind hc payload
      (hs.reports [e] taken payload) (fun event hevent => by
        obtain ⟨e',he',hid',_⟩ := (hmem event.1 event.2).mp hevent
        cases List.mem_singleton.mp he'
        exact hid'.symm.trans hid) []
    refine ⟨alerts.length > 0,?_,?_⟩
    · simp only [HyperscanWorker.scanStream,hnil,if_false,Nat.mod_eq_of_lt hfits,List.take_length,
        hrun,bind,Except.bind]
      rfl
    · rw [decide_eq_true_eq,halerts]
      simp only [List.length_nil,gt_iff_lt,lt_self_iff_false,false_or]
      constructor
      · rintro ⟨event,hevent,hpass⟩
        obtain ⟨e',he',_,hlow,hhigh,hend⟩ := (hmem event.1 event.2).mp hevent
        cases List.mem_singleton.mp he'
        exact ⟨event.2,hlow,hhigh,hend,hpass⟩
      · rintro ⟨stop,hlow,hhigh,hend,hpass⟩
        exact ⟨(e.id,stop),(hmem _ _).mpr ⟨e,List.mem_singleton_self e,rfl,hlow,hhigh,hend⟩,hpass⟩

/-- However the stream is cut, some call returns true exactly if an end is reported that
passes. -/
theorem scanChunks_word (hdoc : hs.Documented)
    (hfind : m.find rule.sid = .ok (some (some rule))) (hc : rule.contents = [c])
    (hid : e.id = rule.sid) (taken : List UInt8) (chunks : List (List UInt8))
    (hfits : ∀ chunk ∈ chunks, chunk.length < 2 ^ 32) :
    ∃ results, HyperscanWorker.scanChunks hs ⟨some [e],some m⟩ taken chunks = .ok results ∧
      (true ∈ results ↔ ∃ stop, Alerting hs e c taken.length (taken ++ chunks.flatten) stop) := by
  induction chunks generalizing taken with
  | nil =>
    refine ⟨[],rfl,?_⟩
    simp only [List.not_mem_nil,false_iff,List.flatten_nil,List.append_nil,Alerting,not_exists]
    omega
  | cons chunk chunks ih =>
    obtain ⟨b,hb,hstop⟩ := scanStream_word hdoc hfind hc hid taken
      (hfits chunk List.mem_cons_self)
    obtain ⟨results,hresults,hlater⟩ := ih (taken ++ chunk)
      fun chunk' h => hfits chunk' (List.mem_cons_of_mem _ h)
    refine ⟨b :: results,?_,?_⟩
    · simp only [HyperscanWorker.scanChunks,hb,hresults,bind,Except.bind]
      rfl
    · rw [List.mem_cons,eq_comm,hstop,hlater,List.flatten_cons,← List.append_assoc]
      constructor
      · rintro (⟨stop,hlow,hhigh,hend,hpass⟩ | ⟨stop,hlow,hhigh,hend,hpass⟩)
        · refine ⟨stop,hlow,?_,(Hyperscan.reportedEnd_append hhigh).mpr hend,hpass⟩
          rw [List.length_append]
          omega
        · refine ⟨stop,?_,hhigh,hend,hpass⟩
          rw [List.length_append] at hlow
          omega
      · rintro ⟨stop,hlow,hhigh,hend,hpass⟩
        by_cases hin : stop ≤ (taken ++ chunk).length
        · exact .inl ⟨stop,hlow,hin,(Hyperscan.reportedEnd_append hin).mp hend,hpass⟩
        · exact .inr ⟨stop,Nat.not_le.mp hin,hhigh,hend,hpass⟩

end Stream

section Window

variable {rule : AethonRule} {c : RuleContent}

/-- An occurrence of the word starts at the position. -/
def OccursAt (word stream : List UInt8) (start : Nat) : Prop := word <+: stream.drop start

instance (word stream : List UInt8) (start : Nat) : Decidable (OccursAt word stream start) :=
  inferInstanceAs (Decidable (_ <+: _))

/-- The occurrence lies in the window that offset and depth give. -/
structure InWindow (c : RuleContent) (stream : List UInt8) (start : Nat) : Prop where
  occurs : OccursAt c.pattern stream start
  offset_le : c.start ≤ start
  depth_le : c.depth ≥ 0 → start + c.pattern.length ≤ c.start + c.depth.toNat

theorem OccursAt.end_le {word stream : List UInt8} {start : Nat} (hne : word ≠ [])
    (h : OccursAt word stream start) : start + word.length ≤ stream.length := by
  have hlen := h.length_le
  have hpos := List.length_pos_iff.mpr hne
  rw [List.length_drop] at hlen
  omega

/-- A match of the word ends where an occurrence does. -/
theorem endsAt_word (hdoc : hs.Documented) (hword : IsWord c.pattern) {stream : List UInt8}
    {stop : Nat} (hstop : stop ≤ stream.length) :
    hs.endsAt (wordExpression rule c) (stream.take stop) ↔
      ∃ start, start + c.pattern.length = stop ∧ OccursAt c.pattern stream start := by
  rw [hdoc.endsAt_iff _ _ _ hword.reads.read_eq]
  simp only [wordExpression,matches_word]
  constructor
  · rintro ⟨before,part,heq,rfl⟩
    refine ⟨before.length,?_,stream.drop stop,?_⟩
    · have hlen := congrArg List.length heq
      rw [List.length_take,Nat.min_eq_left hstop,List.length_append] at hlen
      omega
    · have hsplit : stream = before ++ (c.pattern ++ stream.drop stop) := by
        rw [← List.append_assoc,← heq,List.take_append_drop]
      conv_rhs => rw [hsplit,List.drop_left]
  · rintro ⟨start,rfl,rest,hrest⟩
    refine ⟨stream.take start,c.pattern,?_,rfl⟩
    rw [List.take_add,← hrest,List.take_left]

theorem passes_iff {start : Nat} : Passes c (start + c.pattern.length) ↔
    c.start ≤ start ∧ (c.depth ≥ 0 → start + c.pattern.length ≤ c.start + c.depth.toNat) := by
  unfold Passes RuleContent.start
  refine and_congr ⟨fun h => ?_,fun h _ => ?_⟩ Iff.rfl
  · rcases lt_or_ge c.offset 0 with hneg | hpos
    · omega
    · have := h hpos
      omega
  · omega

/-- The ends that raise an alert are those of the first occurrence, if that is in the window. -/
theorem alerting_iff (hdoc : hs.Documented) (hword : IsWord c.pattern) {stream : List UInt8} :
    (∃ stop, Alerting hs (wordExpression rule c) c 0 stream stop) ↔
      ∃ start, InWindow c stream start ∧ ∀ s < start, ¬OccursAt c.pattern stream s := by
  have hpos := List.length_pos_iff.mpr hword.ne_nil
  constructor
  · rintro ⟨stop,_,hstop,⟨hend,hfirst⟩,hpass⟩
    obtain ⟨start,rfl,hocc⟩ := (endsAt_word hdoc hword hstop).mp hend
    obtain ⟨hlow,hhigh⟩ := passes_iff.mp hpass
    refine ⟨start,⟨hocc,hlow,hhigh⟩,fun s hs hocc' => ?_⟩
    exact hfirst rfl (s + c.pattern.length) (by omega)
      ((endsAt_word hdoc hword (by omega)).mpr ⟨s,rfl,hocc'⟩)
  · rintro ⟨start,hin,hfirst⟩
    have hend := hin.occurs.end_le hword.ne_nil
    refine ⟨start + c.pattern.length,by omega,hend,⟨?_,fun _ k hk hk' => ?_⟩,?_⟩
    · exact (endsAt_word hdoc hword hend).mpr ⟨start,rfl,hin.occurs⟩
    · obtain ⟨s,rfl,hocc⟩ := (endsAt_word hdoc hword (by omega)).mp hk'
      exact hfirst s (by omega) hocc
    · exact passes_iff.mpr ⟨hin.offset_le,hin.depth_le⟩

/-- With the rule alone in the database, some call of `scan_stream` on one stream returns
true. -/
def detects (hs : Hyperscan) (rule : AethonRule) (chunks : List (List UInt8)) : Checked Bool := do
  let (_,engine) ← compileRules hs [rule]
  let results ← engine.createWorker.scanChunks hs [] chunks
  return results.contains true

/-- The first occurrence decides. -/
theorem detects_first (hdoc : hs.Documented) (hc : rule.contents = [c])
    (hword : IsWord c.pattern) (hcase : c.nocase = false) (hsid : rule.sid ≠ 0)
    {chunks : List (List UInt8)} (hfits : ∀ chunk ∈ chunks, chunk.length < 2 ^ 32) :
    ∃ b, detects hs rule chunks = .ok b ∧
      (b = true ↔ ∃ start, InWindow c chunks.flatten start ∧
        ∀ s < start, ¬OccursAt c.pattern chunks.flatten s) := by
  obtain ⟨m,hcompile,hfind⟩ := compileRules_word hdoc hc hword hcase hsid
  have hscan := scanChunks_word (e := wordExpression rule c) hdoc hfind hc rfl [] chunks hfits
  obtain ⟨results,hresults,htrue⟩ := hscan
  refine ⟨results.contains true,?_,?_⟩
  · simp only [detects,hcompile,HyperscanEngine.createWorker,hresults,bind,Except.bind]
    rfl
  · rw [List.contains_iff_mem,htrue]
    exact alerting_iff hdoc hword

/-- The rule is detected exactly when the window holds an occurrence if and only if no occurrence
starts in front of the window, or none lies in it. -/
theorem detects_window_iff (hdoc : hs.Documented) (hc : rule.contents = [c])
    (hword : IsWord c.pattern) (hcase : c.nocase = false) (hsid : rule.sid ≠ 0)
    (chunks : List (List UInt8)) (hfits : ∀ chunk ∈ chunks, chunk.length < 2 ^ 32) :
    ∃ b, detects hs rule chunks = .ok b ∧
      ((b = true ↔ ∃ start, InWindow c chunks.flatten start) ↔
        (¬∃ start, InWindow c chunks.flatten start) ∨
          ∀ s, OccursAt c.pattern chunks.flatten s → c.start ≤ s) := by
  obtain ⟨b,hb,hfirst⟩ := detects_first hdoc hc hword hcase hsid hfits
  refine ⟨b,hb,?_⟩
  rw [hfirst]
  constructor
  · intro hiff
    by_cases hin : ∃ start, InWindow c chunks.flatten start
    · obtain ⟨start,hstart,hleast⟩ := hiff.mpr hin
      exact .inr fun s hs => hstart.offset_le.trans (Nat.not_lt.mp fun h => hleast s h hs)
    · exact .inl hin
  · intro hcond
    constructor
    · rintro ⟨start,hstart,_⟩
      exact ⟨start,hstart⟩
    · rintro ⟨start,hstart⟩
      have hfront := hcond.resolve_left fun h => h ⟨start,hstart⟩
      have hex : ∃ s, OccursAt c.pattern chunks.flatten s := ⟨start,hstart.occurs⟩
      have hle : Nat.find hex ≤ start := Nat.find_min' hex hstart.occurs
      refine ⟨Nat.find hex,⟨Nat.find_spec hex,hfront _ (Nat.find_spec hex),fun hd => ?_⟩,
        fun s hs => Nat.find_min hex hs⟩
      have := hstart.depth_le hd
      omega

def offsetLine : Text := ascii "alert tcp any any -> any any (content:\"ab\"; offset:2; sid:7;)"

def offsetContent : RuleContent := { pattern := ascii "ab", offset := 2 }

def offsetRule : AethonRule :=
  { sid := 7, action := .alert, protocol := .tcp, contents := [offsetContent] }

theorem detects_window_iff_second : parseRuleLine offsetLine = some offsetRule ∧
    ∃ b, detects .reference offsetRule [ascii "xxa",ascii "b"] = .ok b ∧
      ((b = true ↔ ∃ start, InWindow offsetContent (ascii "xxab") start) ↔
        (¬∃ start, InWindow offsetContent (ascii "xxab") start) ∨
          ∀ s, OccursAt offsetContent.pattern (ascii "xxab") s → offsetContent.start ≤ s) :=
  ⟨by decide +kernel,detects_window_iff Hyperscan.reference_documented rfl
    (by decide +kernel) rfl (by decide) [ascii "xxa",ascii "b"] (by decide)⟩

/-- The stream holds the content in the window, behind another in front of it. -/
theorem window_occurrence_missed : parseRuleLine offsetLine = some offsetRule ∧
    Hyperscan.reference.Documented ∧ InWindow offsetContent [ascii "abab"].flatten 2 ∧
      detects .reference offsetRule [ascii "abab"] = .ok false :=
  ⟨by decide +kernel,Hyperscan.reference_documented,⟨by decide,by decide,by decide⟩,
    by decide +kernel⟩

end Window

end Aethon.Dpi
