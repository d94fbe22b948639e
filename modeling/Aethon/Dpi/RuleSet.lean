import Aethon.Container.MapRefinement
import Aethon.Dpi.Detection
import Aethon.Framework.BitWords

/-!
# Rule sets

A rule set is compiled to one database, and the callback looks the rule of a reported id up in a
table of at least twice as many slots as there are rules. The alerts are tied to positions of the
stream, and a rule set raises those that its rules raise one by one.
-/

namespace Aethon.Dpi

open Framework Framework.Pattern SingleThreadHashMap

section Capacity

/-- The bits below the highest one are set in six rounds, so that adding one carries. -/
theorem nextPowerOfTwo_eq {n : Nat} (hlow : 64 ≤ n) (hhigh : n ≤ 2 ^ 64) :
    nextPowerOfTwo n = 2 ^ ((n - 1).log2 + 1) := by
  have hne : n - 1 ≠ 0 := by omega
  have hlog : (n - 1).log2 < 64 := (Nat.log2_lt hne).mpr (by omega)
  have hsmeared := (topBits_log2 hne).smear.smear.smear.smear.smear.smear
  have heq := hsmeared.eq (by omega)
  have hpos := Nat.two_pow_pos ((n - 1).log2 + 1)
  rw [nextPowerOfTwo,if_neg (by omega)]
  dsimp only
  simp only [Nat.reduceMul] at heq
  rw [heq]
  omega

/-- The capacity is a power of two that holds `n` slots. -/
theorem nextPowerOfTwo_covers {n : Nat} (hhigh : n ≤ 2 ^ 64) :
    nextPowerOfTwo n = 2 ^ (nextPowerOfTwo n).log2 ∧ n ≤ nextPowerOfTwo n := by
  by_cases hlow : 64 ≤ n
  · rw [nextPowerOfTwo_eq hlow hhigh,Nat.log2_two_pow]
    refine ⟨rfl,?_⟩
    have hlt : n - 1 < 2 ^ ((n - 1).log2 + 1) := Nat.lt_log2_self
    omega
  · rw [nextPowerOfTwo,if_pos (by omega)]
    exact ⟨by decide,by omega⟩

end Capacity

section Table

variable {rules : List AethonRule}

/-- The insertion that a rule makes. -/
def ruleOp (r : AethonRule) : MapOp UInt32 (Option AethonRule) := .emplace r.sid (some r)

theorem insertRules_run {m m' : RuleMap} {outs : List Bool}
    (h : runOut applyOp m (rules.map ruleOp) = .ok (m',outs)) : insertRules rules m = .ok m' := by
  induction rules generalizing m outs with
  | nil =>
    cases h
    rfl
  | cons r rules ih =>
    obtain ⟨u,b,outs',hone,hrest,rfl⟩ := (runOut_cons ..).mp h
    obtain ⟨⟨b',u'⟩,hput,hret⟩ := (bind_ok_iff ..).mp hone
    cases hret
    rw [insertRules,hput]
    exact ih hrest

/-- The rule that an id stands for: the last one that has it. -/
def lastRule (rules : List AethonRule) (sid : UInt32) : Option AethonRule :=
  rules.reverse.find? fun r => r.sid = sid

theorem replay_rules (rules : List AethonRule) (sid : UInt32) :
    replay (rules.map ruleOp) sid = (lastRule rules sid).map some := by
  induction rules using List.reverseRecOn with
  | nil => rfl
  | append_singleton rules r ih =>
    rw [List.map_append,List.map_singleton,ruleOp,replay_emplace,lastRule,List.reverse_append]
    by_cases hsid : r.sid = sid
    · simp [hsid]
    · rw [Function.update_of_ne (Ne.symm hsid),ih]
      simp [hsid,lastRule]

theorem lastRule_eq {r : AethonRule} (hdistinct : (rules.map AethonRule.sid).Nodup)
    (hr : r ∈ rules) : lastRule rules r.sid = some r := by
  induction rules using List.reverseRecOn with
  | nil => cases hr
  | append_singleton rules r' ih =>
    rw [List.map_append,List.map_singleton,List.nodup_append] at hdistinct
    rw [lastRule,List.reverse_append]
    by_cases hsid : r'.sid = r.sid
    · rcases List.mem_append.mp hr with hin | hin
      · exact absurd hsid.symm
          (hdistinct.2.2 r.sid (List.mem_map_of_mem hin) r'.sid (List.mem_singleton_self _))
      · cases List.mem_singleton.mp hin
        simp
    · rcases List.mem_append.mp hr with hin | hin
      · have hlast := ih hdistinct.1 hin
        rw [lastRule] at hlast
        simp [hsid,hlast]
      · cases List.mem_singleton.mp hin
        exact absurd rfl hsid

/-- The table is never full, and it represents the last rule of every id. -/
theorem insertRules_represents (hsid : ∀ r ∈ rules, r.sid ≠ 0) (hcount : rules.length ≤ 2 ^ 63) :
    ∃ (m : RuleMap) (capacity : Nat),
      insertRules rules (RuleMap.new (nextPowerOfTwo (rules.length * 2))) = .ok m ∧
      m.Represents 0 capacity (rules.map ruleOp) := by
  obtain ⟨hpow,hcover⟩ := nextPowerOfTwo_covers (n := rules.length * 2) (by omega)
  generalize (nextPowerOfTwo (rules.length * 2)).log2 = k at hpow
  have hpos := Nat.two_pow_pos k
  have hkeys : ∀ op ∈ rules.map ruleOp, op.key ≠ 0 := by
    intro op hop
    obtain ⟨r,hr,rfl⟩ := List.mem_map.mp hop
    exact hsid r hr
  have hlive : LiveBelow (2 ^ k) (rules.map ruleOp) := by
    intro pre hpre
    have hcard := liveKeys_card_le pre
    have hlen := hpre.length_le
    rw [List.length_map] at hlen
    omega
  obtain ⟨m,outs,hrun,hrep⟩ := run_represents 0 singleThreadDefaultHash (none : Option AethonRule) k
    (rules.map ruleOp) hkeys hlive
  refine ⟨m,2 ^ k,?_,hrep⟩
  rw [RuleMap.new,hpow,Nat.log2_two_pow]
  exact insertRules_run hrun

/-- Among at most 64 rules no cell is too far from its home slot to be found. -/
theorem represents_find {m : RuleMap} {capacity : Nat}
    (hrep : m.Represents 0 capacity (rules.map ruleOp)) (hcount : rules.length ≤ 64)
    {sid : UInt32} (hne : sid ≠ 0) : m.find sid = .ok ((lastRule rules sid).map some) := by
  have hnem : sid ≠ m.emptyKey := by
    rw [hrep.emptyKey_eq]
    exact hne
  have hsize : m.size ≤ 64 := by
    rw [hrep.size_eq]
    have hcard := liveKeys_card_le (rules.map ruleOp)
    rw [List.length_map] at hcard
    omega
  rw [← replay_rules]
  cases hr : replay (rules.map ruleOp) sid with
  | some val =>
    obtain ⟨p,hp,he⟩ := (hrep.stored sid val).mpr hr
    have hkey := (Prod.mk.inj ((entry_eq_some ..).mp he).2).1
    have hnear := hrep.wf.ringDist_lt_size hp hkey.symm hnem
    exact (hrep.wf.find_eq_some sid hnem val).mpr ⟨p,hp,he,hnear.trans_le hsize⟩
  | none =>
    obtain ⟨found,hfound⟩ := m.find_ok sid hnem
    cases found with
    | none => exact hfound
    | some val =>
      have hstored := (hrep.stored sid val).mp (hrep.wf.find_stored hfound)
      rw [hr] at hstored
      cases hstored

end Table

section Alerts

/-- The filter of `on_match_event` for the first content of a rule, if it has one. -/
def AethonRule.Lets (r : AethonRule) (stop : Nat) : Prop := ∀ c ∈ r.contents.head?, Passes c stop

/-- An end is reported, and the rule that its id stands for lets it pass. -/
def Raises (hs : Hyperscan) (worker : HyperscanWorker) (bytes : List UInt8) (stop : Nat) : Prop :=
  ∃ db m e r, worker.db = some db ∧ worker.ruleMap = some m ∧ e ∈ db ∧ hs.ReportedEnd e bytes stop ∧
    m.find e.id = .ok (some (some r)) ∧ r.Lets stop

variable {hs : Hyperscan} {m : RuleMap} {db : List Expression}

/-- One call of the callback. -/
theorem onMatchEvent_lets {id : UInt32} {found : Option (Option AethonRule)}
    (hfind : m.find id = .ok found) (payload : List UInt8) (alerts : List AttackAlert)
    (stop : Nat) :
    ∃ alerts', onMatchEvent (some m) payload alerts (id,stop) = .ok alerts' ∧
      (alerts'.length > 0 ↔ alerts.length > 0 ∨ ∃ r, found = some (some r) ∧ r.Lets stop) := by
  rcases found with _ | _ | r
  · exact ⟨alerts,by simp only [onMatchEvent,hfind,bind,Except.bind]; rfl,by simp⟩
  · exact ⟨alerts,by simp only [onMatchEvent,hfind,bind,Except.bind]; rfl,by simp⟩
  · simp only [onMatchEvent,hfind,bind,Except.bind]
    cases hc : r.contents with
    | nil => exact ⟨_,rfl,by simp [AethonRule.Lets,hc]⟩
    | cons c rest =>
      have hlets : r.Lets stop ↔ Passes c stop := by simp [AethonRule.Lets,hc]
      have hbase : (if c.offset ≥ 0 then c.offset.toNat else 0) = c.start := by
        unfold RuleContent.start
        split
        · rfl
        · omega
      dsimp only
      rw [hbase]
      by_cases hlow : c.offset ≥ 0 ∧ stop < c.offset.toNat + c.pattern.length
      · have hpass : ¬Passes c stop := fun h => absurd (h.1 hlow.1) (Nat.not_le.mpr hlow.2)
        rw [if_pos hlow]
        exact ⟨_,rfl,by simp [hlets,hpass]⟩
      · by_cases hhigh : c.depth ≥ 0 ∧ stop > c.start + c.depth.toNat
        · have hpass : ¬Passes c stop := fun h => absurd (h.2 hhigh.1) (Nat.not_le.mpr hhigh.2)
          rw [if_neg hlow,if_pos hhigh]
          exact ⟨_,rfl,by simp [hlets,hpass]⟩
        · have hpass : Passes c stop :=
            ⟨fun hoffset => Nat.not_lt.mp fun h => hlow ⟨hoffset,h⟩,
              fun hdepth => Nat.not_lt.mp fun h => hhigh ⟨hdepth,h⟩⟩
          rw [if_neg hlow,if_neg hhigh]
          exact ⟨_,rfl,by simp [hlets,hpass]⟩

theorem foldlM_onMatchEvent_lets (payload : List UInt8) (events : List (UInt32 × Nat))
    (hids : ∀ event ∈ events, event.1 ≠ m.emptyKey) (alerts : List AttackAlert) :
    ∃ alerts', events.foldlM (onMatchEvent (some m) payload) alerts = .ok alerts' ∧
      (alerts'.length > 0 ↔ alerts.length > 0 ∨ ∃ event ∈ events, ∃ r,
        m.find event.1 = .ok (some (some r)) ∧ r.Lets event.2) := by
  induction events generalizing alerts with
  | nil => exact ⟨alerts,rfl,by simp⟩
  | cons event events ih =>
    obtain ⟨found,hfound⟩ := m.find_ok event.1 (hids event List.mem_cons_self)
    obtain ⟨next,hnext,hone⟩ := onMatchEvent_lets hfound payload alerts event.2
    obtain ⟨alerts',hrun,hlen⟩ := ih (fun e he => hids e (List.mem_cons_of_mem _ he)) next
    refine ⟨alerts',?_,?_⟩
    · rw [List.foldlM_cons,hnext]
      exact hrun
    · rw [hlen,hone,or_assoc]
      simp [hfound]

/-- The worker has a database and a table, or no database. -/
structure WorkerReady (worker : HyperscanWorker) : Prop where
  ruleMap : ∀ db, worker.db = some db → ∃ m : RuleMap, worker.ruleMap = some m ∧ m.emptyKey = 0
  ids : ∀ db, worker.db = some db → ∀ e ∈ db, e.id ≠ 0

/-- A call of `scan_stream` returns true exactly if an alert is raised at one of its bytes. -/
theorem scanStream_raises {worker : HyperscanWorker} (hdoc : hs.Documented)
    (hready : WorkerReady worker) (taken : List UInt8) {payload : List UInt8}
    (hfits : payload.length < 2 ^ 32) :
    ∃ b taken', worker.scanStream hs taken payload = .ok (b,taken') ∧
      (worker.db ≠ none → taken' = taken ++ payload) ∧
      (b = true ↔ ∃ stop, taken.length < stop ∧ stop ≤ (taken ++ payload).length ∧
        Raises hs worker (taken ++ payload) stop) := by
  cases hdb : worker.db with
  | none =>
    refine ⟨false,taken,?_,by simp,?_⟩
    · simp only [HyperscanWorker.scanStream,hdb]
      rfl
    · simp [Raises,hdb]
  | some db =>
    obtain ⟨m,hm,hempty⟩ := hready.ruleMap db hdb
    by_cases hnil : payload = []
    · refine ⟨false,taken,?_,by simp [hnil],?_⟩
      · simp only [HyperscanWorker.scanStream,hdb,hnil,if_true]
        rfl
      · simp only [Bool.false_eq_true,false_iff,hnil,List.append_nil,not_exists]
        intro stop hstop
        omega
    · have hmem := hdoc.mem_reports db taken payload
      obtain ⟨alerts,hrun,halerts⟩ := foldlM_onMatchEvent_lets (m := m) payload
        (hs.reports db taken payload) (fun event hevent => by
          obtain ⟨e,he,hid,_⟩ := (hmem event.1 event.2).mp hevent
          rw [hempty,← hid]
          exact hready.ids db hdb e he) []
      refine ⟨alerts.length > 0,taken ++ payload,?_,fun _ => rfl,?_⟩
      · simp only [HyperscanWorker.scanStream,hdb,hm,hnil,if_false,Nat.mod_eq_of_lt hfits,
          List.take_length,hrun,bind,Except.bind]
        rfl
      · rw [decide_eq_true_eq,halerts]
        simp only [List.length_nil,gt_iff_lt,lt_self_iff_false,false_or]
        constructor
        · rintro ⟨event,hevent,r,hfind,hlets⟩
          obtain ⟨e,he,hid,hlow,hhigh,hend⟩ := (hmem event.1 event.2).mp hevent
          rw [← hid] at hfind
          exact ⟨event.2,hlow,hhigh,db,m,e,r,hdb,hm,he,hend,hfind,hlets⟩
        · rintro ⟨stop,hlow,hhigh,db',m',e,r,hdb',hm',he,hend,hfind,hlets⟩
          rw [hdb] at hdb'
          cases hdb'
          rw [hm] at hm'
          cases hm'
          exact ⟨(e.id,stop),(hmem _ _).mpr ⟨e,he,rfl,hlow,hhigh,hend⟩,r,hfind,hlets⟩

theorem Raises.append_iff {worker : HyperscanWorker} {bytes more : List UInt8} {stop : Nat}
    (hstop : stop ≤ bytes.length) :
    Raises hs worker (bytes ++ more) stop ↔ Raises hs worker bytes stop := by
  simp only [Raises,Hyperscan.reportedEnd_append hstop]

/-- The `i`-th call returns true exactly if an alert is raised at one of its bytes. -/
theorem scanChunks_raises {worker : HyperscanWorker} (hdoc : hs.Documented)
    (hready : WorkerReady worker) (taken : List UInt8) (chunks : List (List UInt8))
    (hfits : ∀ chunk ∈ chunks, chunk.length < 2 ^ 32) :
    ∃ results, worker.scanChunks hs taken chunks = .ok results ∧ results.length = chunks.length ∧
      ∀ i, results[i]? = some true ↔ ∃ stop, (taken ++ (chunks.take i).flatten).length < stop ∧
        stop ≤ (taken ++ (chunks.take (i + 1)).flatten).length ∧
        Raises hs worker (taken ++ chunks.flatten) stop := by
  induction chunks generalizing taken with
  | nil =>
    refine ⟨[],rfl,rfl,?_⟩
    intro i
    simp only [List.getElem?_nil,List.take_nil,List.flatten_nil,List.append_nil,false_iff,
      reduceCtorEq,not_exists]
    intro stop h
    omega
  | cons chunk chunks ih =>
    obtain ⟨b,taken',hb,htaken,hstop⟩ := scanStream_raises hdoc hready taken
      (hfits chunk List.mem_cons_self)
    have hlater := ih taken' fun chunk' h => hfits chunk' (List.mem_cons_of_mem _ h)
    obtain ⟨results,hresults,hlen,hmore⟩ := hlater
    refine ⟨b :: results,?_,by simp [hlen],?_⟩
    · simp only [HyperscanWorker.scanChunks,hb,hresults,bind,Except.bind]
      rfl
    · by_cases hdb : worker.db = none
      · have hquiet : ∀ bytes stop, ¬Raises hs worker bytes stop := by
          rintro bytes stop ⟨db,_,_,_,hsome,_⟩
          rw [hdb] at hsome
          cases hsome
        intro i
        cases i with
        | zero => simpa [hquiet] using hstop
        | succ i => simpa [hquiet] using hmore i
      · have heq := htaken hdb
        subst heq
        have hwhole : taken ++ (chunk :: chunks).flatten = taken ++ chunk ++ chunks.flatten := by
          rw [List.flatten_cons,List.append_assoc]
        intro i
        cases i with
        | zero =>
          rw [hwhole]
          simp only [List.getElem?_cons_zero,Option.some.injEq,hstop,List.take_zero,
            List.flatten_nil,List.append_nil,Nat.zero_add,List.take_succ_cons,List.flatten_cons]
          constructor
          · rintro ⟨stop,hlow,hhigh,hraise⟩
            exact ⟨stop,hlow,hhigh,(Raises.append_iff hhigh).mpr hraise⟩
          · rintro ⟨stop,hlow,hhigh,hraise⟩
            exact ⟨stop,hlow,hhigh,(Raises.append_iff hhigh).mp hraise⟩
        | succ i =>
          rw [hwhole,List.getElem?_cons_succ,hmore i]
          simp only [List.take_succ_cons,List.flatten_cons,List.append_assoc]

end Alerts

section Sets

variable {hs : Hyperscan} {rules : List AethonRule}

/-- Compile a rule set and scan a stream that comes in chunks. -/
def scanRules (hs : Hyperscan) (rules : List AethonRule) (chunks : List (List UInt8)) :
    Checked (List Bool) := do
  let (_,engine) ← compileRules hs rules
  engine.createWorker.scanChunks hs [] chunks

theorem ruleExpression_id {r : AethonRule} {e : Expression} (h : ruleExpression r = some e) :
    e.id = r.sid := by
  unfold ruleExpression at h
  split_ifs at h
  cases h
  rfl

/-- The database and the table that `compile_rules` leaves. -/
theorem compileRules_engine (hs : Hyperscan) (hsid : ∀ r ∈ rules, r.sid ≠ 0)
    (hcount : rules.length ≤ 2 ^ 63) :
    ∃ b engine, compileRules hs rules = .ok (b,engine) ∧
      (engine.db = none ∧
          (rules.filterMap ruleExpression = [] ∨
            hs.compileMulti (rules.filterMap ruleExpression) = false) ∨
        engine.db = some (rules.filterMap ruleExpression) ∧
          ∃ (m : RuleMap) (capacity : Nat), engine.ruleMap = some m ∧
            m.Represents 0 capacity (rules.map ruleOp)) := by
  obtain ⟨m,capacity,hm,hrep⟩ := insertRules_represents hsid hcount
  unfold compileRules
  by_cases hnil : rules = []
  · rw [if_pos hnil]
    exact ⟨_,_,rfl,.inl ⟨rfl,.inl (by rw [hnil]; rfl)⟩⟩
  · rw [if_neg hnil,hm]
    simp only [bind,Except.bind]
    by_cases hempty : rules.filterMap ruleExpression = []
    · rw [if_pos hempty]
      exact ⟨_,_,rfl,.inl ⟨rfl,.inl hempty⟩⟩
    · rw [if_neg hempty]
      cases hmulti : hs.compileMulti (rules.filterMap ruleExpression) with
      | true => exact ⟨_,_,rfl,.inr ⟨rfl,m,capacity,rfl,hrep⟩⟩
      | false => exact ⟨_,_,rfl,.inl ⟨rfl,.inr rfl⟩⟩

theorem createWorker_fields (engine : HyperscanEngine) :
    engine.createWorker.db = engine.db ∧
      (engine.db ≠ none → engine.createWorker.ruleMap = engine.ruleMap) := by
  unfold HyperscanEngine.createWorker
  cases engine.db with
  | none => simp
  | some db => simp

theorem compileRules_ready (hs : Hyperscan) (hsid : ∀ r ∈ rules, r.sid ≠ 0)
    (hcount : rules.length ≤ 2 ^ 63) :
    ∃ b engine, compileRules hs rules = .ok (b,engine) ∧ WorkerReady engine.createWorker := by
  obtain ⟨b,engine,hcompile,hcases⟩ := compileRules_engine hs hsid hcount
  obtain ⟨hdb,hmap⟩ := createWorker_fields engine
  refine ⟨b,engine,hcompile,?_⟩
  rcases hcases with ⟨hnone,_⟩ | ⟨hsome,m,capacity,hm,hrep⟩
  · constructor
    · intro db h
      rw [hdb,hnone] at h
      cases h
    · intro db h
      rw [hdb,hnone] at h
      cases h
  · constructor
    · intro db h
      exact ⟨m,(hmap (by simp [hsome])).trans hm,hrep.emptyKey_eq⟩
    · intro db h e he
      rw [hdb,hsome] at h
      cases h
      obtain ⟨r,hr,hexpr⟩ := List.mem_filterMap.mp he
      rw [ruleExpression_id hexpr]
      exact hsid r hr

def wordContent : RuleContent := { pattern := ascii "cd" }

def wordRule : AethonRule :=
  { sid := 9, action := .alert, protocol := .tcp, contents := [wordContent] }

/-- An end of a match of the rule is reported, and the rule lets it pass. -/
def AethonRule.RaisedAt (r : AethonRule) (hs : Hyperscan) (bytes : List UInt8) (stop : Nat) :
    Prop :=
  ∃ e, ruleExpression r = some e ∧ hs.ReportedEnd e bytes stop ∧ r.Lets stop

/-- The expression of the rule, if it has one, is of the documented kind. -/
def AethonRule.Readable (r : AethonRule) : Prop :=
  ∀ e, ruleExpression r = some e → ∃ atoms b, read e.text = some atoms ∧ .byte b ∈ atoms

theorem readable_word {r : AethonRule} {c : RuleContent} (hc : r.contents = [c])
    (hword : IsWord c.pattern) (hcase : c.nocase = false) : r.Readable := by
  intro e he
  rw [ruleExpression_word hc hword hcase] at he
  cases he
  obtain ⟨b,rest,hb⟩ := List.exists_cons_of_ne_nil hword.ne_nil
  exact ⟨_,b,hword.reads.read_eq,by simp [hb]⟩

/-- What a rule set needs for each of its rules to count. -/
structure Orderly (rules : List AethonRule) : Prop where
  sid_ne : ∀ r ∈ rules, r.sid ≠ 0
  distinct : (rules.map AethonRule.sid).Nodup
  count : rules.length ≤ 64
  readable : ∀ r ∈ rules, r.Readable

theorem Orderly.single {r : AethonRule} (h : Orderly rules) (hr : r ∈ rules) : Orderly [r] where
  sid_ne := by
    intro r' hr'
    cases List.mem_singleton.mp hr'
    exact h.sid_ne r hr
  distinct := by simp
  count := by simp
  readable := by
    intro r' hr'
    cases List.mem_singleton.mp hr'
    exact h.readable r hr

/-- The alerts of an orderly rule set are those of its rules. -/
theorem Orderly.scanRules_iff (hdoc : hs.Documented) (h : Orderly rules)
    (chunks : List (List UInt8)) (hfits : ∀ chunk ∈ chunks, chunk.length < 2 ^ 32) :
    ∃ results, scanRules hs rules chunks = .ok results ∧ results.length = chunks.length ∧
      ∀ i, results[i]? = some true ↔ ∃ stop, (chunks.take i).flatten.length < stop ∧
        stop ≤ (chunks.take (i + 1)).flatten.length ∧
        ∃ r ∈ rules, r.RaisedAt hs chunks.flatten stop := by
  have hcount : rules.length ≤ 2 ^ 63 := h.count.trans (by decide)
  obtain ⟨b,engine,hcompile,hready⟩ := compileRules_ready hs h.sid_ne hcount
  obtain ⟨b',engine',hcompile',hcases⟩ := compileRules_engine hs h.sid_ne hcount
  rw [hcompile] at hcompile'
  cases hcompile'
  obtain ⟨hdb,hmap⟩ := createWorker_fields engine
  have hraises : ∀ stop, Raises hs engine.createWorker chunks.flatten stop ↔
      ∃ r ∈ rules, r.RaisedAt hs chunks.flatten stop := by
    intro stop
    rcases hcases with ⟨hnone,hreason⟩ | ⟨hsome,m,capacity,hm,hrep⟩
    · have hempty : rules.filterMap ruleExpression = [] := by
        rcases hreason with hempty | hrefused
        · exact hempty
        · have haccepted : hs.compileMulti (rules.filterMap ruleExpression) = true := by
            apply hdoc.accepts
            intro e he
            obtain ⟨r,hr,hexpr⟩ := List.mem_filterMap.mp he
            exact h.readable r hr e hexpr
          rw [haccepted] at hrefused
          cases hrefused
      constructor
      · rintro ⟨db,_,_,_,hin,_⟩
        rw [hdb,hnone] at hin
        cases hin
      · rintro ⟨r,hr,e,hexpr,_⟩
        have hmem : e ∈ rules.filterMap ruleExpression := List.mem_filterMap.mpr ⟨r,hr,hexpr⟩
        rw [hempty] at hmem
        cases hmem
    · have hfind : ∀ r ∈ rules, m.find r.sid = .ok (some (some r)) := by
        intro r hr
        rw [represents_find hrep h.count (h.sid_ne r hr),lastRule_eq h.distinct hr]
        rfl
      have hmap' := (hmap (by simp [hsome])).trans hm
      constructor
      · rintro ⟨db,m',e,r',hin,hm',he,hend,hfound,hlets⟩
        rw [hdb,hsome] at hin
        cases hin
        rw [hmap'] at hm'
        cases hm'
        obtain ⟨r,hr,hexpr⟩ := List.mem_filterMap.mp he
        rw [ruleExpression_id hexpr,hfind r hr] at hfound
        cases hfound
        exact ⟨r',hr,e,hexpr,hend,hlets⟩
      · rintro ⟨r,hr,e,hexpr,hend,hlets⟩
        refine ⟨_,m,e,r,hdb.trans hsome,hmap',List.mem_filterMap.mpr ⟨r,hr,hexpr⟩,hend,?_,hlets⟩
        rw [ruleExpression_id hexpr]
        exact hfind r hr
  obtain ⟨results,hresults,hlen,hiff⟩ := scanChunks_raises hdoc hready [] chunks hfits
  refine ⟨results,?_,hlen,?_⟩
  · simp only [scanRules,hcompile,bind,Except.bind]
    exact hresults
  · intro i
    rw [hiff i]
    simp only [List.nil_append,hraises]

/-- Every position of a stream lies in one of its chunks. -/
theorem exists_chunk (chunks : List (List UInt8)) {stop : Nat} (hpos : 0 < stop)
    (hstop : stop ≤ chunks.flatten.length) :
    ∃ i < chunks.length, (chunks.take i).flatten.length < stop ∧
      stop ≤ (chunks.take (i + 1)).flatten.length := by
  induction chunks using List.reverseRecOn with
  | nil =>
    rw [List.flatten_nil,List.length_nil] at hstop
    omega
  | append_singleton chunks chunk ih =>
    by_cases hin : stop ≤ chunks.flatten.length
    · obtain ⟨i,hi,hlow,hhigh⟩ := ih hin
      refine ⟨i,by simp; omega,?_,?_⟩
      · rwa [List.take_append_of_le_length (by omega)]
      · rwa [List.take_append_of_le_length (by omega)]
    · refine ⟨chunks.length,by simp,?_,?_⟩
      · rw [List.take_left]
        omega
      · rw [List.take_of_length_le (by simp)]
        exact hstop

/-- No rule triggers in chunks that were scanned without an alert. -/
theorem Orderly.passed_quiet (hdoc : hs.Documented) (h : Orderly rules)
    {passed more : List (List UInt8)} (hfits : ∀ chunk ∈ passed ++ more, chunk.length < 2 ^ 32)
    {answers : List Bool} (hscan : scanRules hs rules (passed ++ more) = .ok answers)
    (hfalse : ∀ i < passed.length, answers[i]? = some false) {r : AethonRule} (hr : r ∈ rules)
    {stop : Nat} (hpos : 0 < stop) (hstop : stop ≤ passed.flatten.length) :
    ¬r.RaisedAt hs passed.flatten stop := by
  rintro ⟨e,hexpr,hend,hlets⟩
  obtain ⟨results,hresults,_,hiff⟩ := h.scanRules_iff hdoc (passed ++ more) hfits
  rw [hscan] at hresults
  cases hresults
  obtain ⟨i,hi,hlow,hhigh⟩ := exists_chunk passed hpos hstop
  have hraised : answers[i]? = some true := by
    rw [hiff i,List.take_append_of_le_length (by omega),List.take_append_of_le_length (by omega),
      List.flatten_append]
    exact ⟨stop,hlow,hhigh,r,hr,e,hexpr,(Hyperscan.reportedEnd_append hstop).mpr hend,hlets⟩
  rw [hfalse i hi] at hraised
  cases hraised

/-- A rule with one word and no window triggers wherever the word first occurs. -/
theorem word_triggers (hdoc : hs.Documented) {r : AethonRule} {c : RuleContent}
    (hc : r.contents = [c]) (hword : IsWord c.pattern) (hcase : c.nocase = false)
    (hoffset : c.offset < 0) (hdepth : c.depth < 0) {bytes : List UInt8}
    (hin : c.pattern <:+: bytes) :
    ∃ stop, 0 < stop ∧ stop ≤ bytes.length ∧ r.RaisedAt hs bytes stop := by
  have hoccurs : ∃ start, OccursAt c.pattern bytes start := by
    obtain ⟨before,after,hsplit⟩ := hin
    refine ⟨before.length,after,?_⟩
    rw [← hsplit,List.append_assoc,List.drop_left]
  have hfirst := Nat.find_spec hoccurs
  have hwindow : InWindow c bytes (Nat.find hoccurs) := by
    refine ⟨hfirst,?_,fun hd => absurd hdepth (by omega)⟩
    unfold RuleContent.start
    omega
  have halerting : ∃ stop, Alerting hs (wordExpression r c) c 0 bytes stop :=
    (alerting_iff hdoc hword).mpr ⟨_,hwindow,fun s hs => Nat.find_min hoccurs hs⟩
  obtain ⟨stop,hpos,hstop,hend,hpass⟩ := halerting
  refine ⟨stop,hpos,hstop,_,ruleExpression_word hc hword hcase,hend,?_⟩
  intro c' hc'
  rw [hc] at hc'
  cases hc'
  exact hpass

theorem orderly_two : Orderly [offsetRule,wordRule] where
  sid_ne := by decide
  distinct := by decide
  count := by decide
  readable := by
    intro r hr
    rcases List.mem_cons.mp hr with rfl | hr
    · exact readable_word rfl (by decide +kernel) rfl
    · cases List.mem_singleton.mp hr
      exact readable_word rfl (by decide +kernel) rfl

end Sets

end Aethon.Dpi
