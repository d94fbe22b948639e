import Aethon.Ebpf.RateLimiter

/-!
# The rate bound of the window limiter

`sliding_window_limiter` counts the calls of one window after the other. An interval that no
restart splits sees at most `limit` passes; around a restart it can see those of two windows.
Which limits and windows are safe against that is settled exactly.
-/

namespace Aethon.Ebpf

open Framework

/-- A window that was opened at time `now`. -/
def openedWindow (L W now : BitVec 64) : SlidingWindowState :=
  { limit := L, window := W, packets := 1, dropCount := 0, lastTime := now }

/-- The call opens a new window. -/
def reopens (state : Option RateLimitState) (c : LimiterCall) : Bool :=
  match state with
  | none => true
  | some st => restarts st.slidingWindowLimiter c.now

/-- Some call between `lo` and `hi` opens a new window after another one passed there;
`passed` says that one did already. -/
def lateRestart (L W : BitVec 64) (lo hi : Nat) :
    Bool → Option RateLimitState → List LimiterCall → Bool
  | _, _, [] => false
  | passed, state, c :: calls =>
      let inside := decide (lo ≤ c.ns ∧ c.ns ≤ hi)
      let v := slidingWindowLimiter L W state c
      passed && inside && reopens state c ||
        lateRestart L W lo hi (passed || inside && v.resp) v.state calls

/-- An entry whose window has not been used. -/
def FreshWindow (state : Option RateLimitState) : Prop :=
  ∀ st, state = some st → st.slidingWindowLimiter.lastTime = 0

/-- The entries that calls with one limit and window leave, and those they start from. -/
def WindowEntry (L W : BitVec 64) (state : Option RateLimitState) : Prop :=
  ∀ st, state = some st → st.slidingWindowLimiter.lastTime = 0 ∨
    st.slidingWindowLimiter.limit = L ∧ st.slidingWindowLimiter.window = W

section Equations

variable {L W : BitVec 64} {state : Option RateLimitState} {c : LimiterCall}

theorem slidingWindow_none (L W : BitVec 64) (hstored : c.stored = true) :
    slidingWindowLimiter L W none c =
      { resp := L ≥ 1
        state := some { slidingWindowLimiter := openedWindow L W c.now, algo := 1 } } := by
  rw [slidingWindowLimiter,if_pos hstored,openedWindow]

theorem slidingWindow_restart (L W : BitVec 64) {st : RateLimitState}
    (h : restarts st.slidingWindowLimiter c.now = true) :
    slidingWindowLimiter L W (some st) c =
      { resp := L ≥ 1
        state := some { st with slidingWindowLimiter := openedWindow L W c.now } } := by
  rw [slidingWindowLimiter]
  dsimp only
  rw [if_pos h,openedWindow]

theorem slidingWindow_reopen (L W : BitVec 64) (hstored : c.stored = true)
    (h : reopens state c = true) :
    ∃ st : RateLimitState, st.slidingWindowLimiter = openedWindow L W c.now ∧
      slidingWindowLimiter L W state c = { resp := L ≥ 1, state := some st } := by
  cases state with
  | none => exact ⟨_,rfl,slidingWindow_none L W hstored⟩
  | some st => exact ⟨_,rfl,slidingWindow_restart L W h⟩

theorem exists_of_not_reopens (h : reopens state c = false) :
    ∃ st, state = some st ∧ restarts st.slidingWindowLimiter c.now = false := by
  cases state with
  | none => cases h
  | some st => exact ⟨st,rfl,h⟩

variable {st : RateLimitState}

theorem slidingWindow_full (h : restarts st.slidingWindowLimiter c.now = false)
    (hfull : st.slidingWindowLimiter.packets ≥ st.slidingWindowLimiter.limit) :
    slidingWindowLimiter L W (some st) c =
      { resp := false
        state := some { st with
          slidingWindowLimiter := { st.slidingWindowLimiter with
            dropCount := st.slidingWindowLimiter.dropCount + 1 } }
        blocklisted := st.slidingWindowLimiter.dropCount + 1 ≥ 8 } := by
  rw [slidingWindowLimiter]
  dsimp only
  rw [if_neg (by rw [h]; decide),if_pos hfull]

theorem slidingWindow_count (h : restarts st.slidingWindowLimiter c.now = false)
    (hroom : ¬st.slidingWindowLimiter.packets ≥ st.slidingWindowLimiter.limit) :
    slidingWindowLimiter L W (some st) c =
      { resp := true
        state := some { st with
          slidingWindowLimiter := { st.slidingWindowLimiter with
            packets := st.slidingWindowLimiter.packets + 1 } } } := by
  rw [slidingWindowLimiter]
  dsimp only
  rw [if_neg (by rw [h]; decide),if_neg hroom]

end Equations

theorem lastTime_ne_zero {w : SlidingWindowState} {now : BitVec 64}
    (h : restarts w now = false) : w.lastTime ≠ 0 := by
  intro hzero
  simp [restarts,hzero] at h

/-- The number of passes counted so far in an interval, against the packets of the window. -/
def Counted (L : BitVec 64) (state : Option RateLimitState) (k : Nat) : Prop :=
  k ≤ L.toNat ∧ (k = 0 ∨ ∃ st, state = some st ∧ k ≤ st.slidingWindowLimiter.packets.toNat)

section Interval

variable {L W : BitVec 64} {lo hi : Nat}

/-- One call that does not restart the window of an interval in which others passed. -/
theorem counted_call {state : Option RateLimitState} {c : LimiterCall} {k : Nat}
    (hentry : WindowEntry L W state) (hstored : c.stored = true) (hk : Counted L state k)
    (hrestart : reopens state c = true → k = 0) (n : Nat)
    (hn : n ≤ if (slidingWindowLimiter L W state c).resp then 1 else 0) :
    WindowEntry L W (slidingWindowLimiter L W state c).state ∧
      Counted L (slidingWindowLimiter L W state c).state (k + n) := by
  cases hre : reopens state c with
  | true =>
    obtain ⟨st,hst,hcall⟩ := slidingWindow_reopen L W hstored hre
    obtain rfl := hrestart hre
    rw [hcall] at hn ⊢
    have hpackets : st.slidingWindowLimiter.packets.toNat = 1 := by rw [hst]; rfl
    have hle : n ≤ 1 ∧ n ≤ L.toNat := by
      by_cases hL : L ≥ 1
      · have hone : 1 ≤ L.toNat := hL
        simp only [hL,decide_true,if_true] at hn
        omega
      · simp only [hL,decide_false,Bool.false_eq_true,if_false] at hn
        omega
    refine ⟨?_,by omega,Or.inr ⟨st,rfl,by omega⟩⟩
    rintro _ ⟨⟩
    rw [hst]
    exact Or.inr ⟨rfl,rfl⟩
  | false =>
    obtain ⟨st,rfl,hopen⟩ := exists_of_not_reopens hre
    have hused := lastTime_ne_zero hopen
    obtain ⟨hlimit,hwindow⟩ := (hentry st rfl).resolve_left hused
    obtain ⟨hkL,hkp⟩ := hk
    by_cases hfull : st.slidingWindowLimiter.packets ≥ st.slidingWindowLimiter.limit
    · rw [slidingWindow_full hopen hfull] at hn ⊢
      obtain rfl : n = 0 := by simpa using hn
      refine ⟨?_,hkL,?_⟩
      · rintro _ ⟨⟩
        exact Or.inr ⟨hlimit,hwindow⟩
      · rcases hkp with hzero | ⟨_,⟨⟩,hle⟩
        · exact Or.inl hzero
        · exact Or.inr ⟨_,rfl,hle⟩
    · rw [slidingWindow_count hopen hfull] at hn ⊢
      have hlt : st.slidingWindowLimiter.packets.toNat < L.toNat := by
        rw [← hlimit]
        exact not_le.mp hfull
      have hnext : (st.slidingWindowLimiter.packets + 1).toNat =
          st.slidingWindowLimiter.packets.toNat + 1 := by
        have := L.isLt
        rw [BitVec.toNat_add]
        exact Nat.mod_eq_of_lt (by simpa using by omega)
      have hone : n ≤ 1 := by simpa using hn
      have hkpackets : k ≤ st.slidingWindowLimiter.packets.toNat := by
        rcases hkp with hzero | ⟨_,⟨⟩,hle⟩
        · omega
        · exact hle
      refine ⟨?_,by omega,Or.inr ⟨_,rfl,?_⟩⟩
      · rintro _ ⟨⟩
        exact Or.inr ⟨hlimit,hwindow⟩
      · dsimp only
        omega

/-- Calls that do not restart the window of an interval in which others passed stay below the
limit there. -/
theorem passesIn_counted (calls : List LimiterCall) (state : Option RateLimitState) (k : Nat)
    (hentry : WindowEntry L W state) (hk : Counted L state k)
    (hstored : ∀ c ∈ calls, c.stored = true)
    (hsorted : calls.Pairwise fun c d => c.ns ≤ d.ns) (hafter : 0 < k → ∀ c ∈ calls, lo ≤ c.ns)
    (hlate : lateRestart L W lo hi (decide (0 < k)) state calls = false) :
    k + passesIn LimiterCall.ns lo hi (trace (meter (slidingWindowLimiter L W)) state calls) ≤
      L.toNat := by
  induction calls generalizing state k with
  | nil => exact hk.1
  | cons c calls ih =>
    obtain ⟨hbehind,hrest⟩ := List.pairwise_cons.mp hsorted
    by_cases hend : hi < c.ns
    · rw [passesIn_eq_zero lo hi (c :: calls) state ?_]
      · exact hk.1
      · intro d hd
        rcases List.mem_cons.mp hd with rfl | hd
        · exact hend
        · exact hend.trans_le (hbehind d hd)
    · rw [lateRestart,Bool.or_eq_false_iff] at hlate
      obtain ⟨hno,hlate⟩ := hlate
      have hrestart : reopens state c = true → k = 0 := by
        intro hre
        by_contra hne
        have hlo := hafter (by omega) c (by simp)
        simp [hre,hlo,not_lt.mp hend,Nat.pos_of_ne_zero hne] at hno
      obtain ⟨n,hn⟩ : ∃ n, n = if (meter (slidingWindowLimiter L W) state c).2 = true ∧
          lo ≤ c.ns ∧ c.ns ≤ hi then 1 else 0 := ⟨_,rfl⟩
      have hresp : n ≤ if (slidingWindowLimiter L W state c).resp then 1 else 0 := by
        rw [hn,meter,← Nat.one_mul (ite _ _ _)]
        exact counted_le 1 _ _
      obtain ⟨hentry',hk'⟩ := counted_call hentry (hstored c (by simp)) hk hrestart n hresp
      have hpassed : (decide (0 < k) ||
          decide (lo ≤ c.ns ∧ c.ns ≤ hi) && (slidingWindowLimiter L W state c).resp) =
            decide (0 < k + n) := by
        rw [hn,meter]
        by_cases hin : lo ≤ c.ns ∧ c.ns ≤ hi
        · cases (slidingWindowLimiter L W state c).resp <;> simp [hin]
        · simp [hin]
      rw [hpassed] at hlate
      have hafter' : 0 < k + n → ∀ d ∈ calls, lo ≤ d.ns := by
        intro hpos d hd
        by_cases hkpos : 0 < k
        · exact hafter hkpos d (by simp [hd])
        · have hone : n ≠ 0 := by omega
          rw [hn] at hone
          split_ifs at hone with hin
          · exact hin.2.1.trans (hbehind d hd)
          · exact absurd rfl hone
      have hih := ih _ (k + n) hentry' hk' (fun d hd => hstored d (by simp [hd])) hrest hafter' hlate
      rw [passesIn_cons,← hn]
      change k + (passesIn LimiterCall.ns lo hi (trace (meter (slidingWindowLimiter L W))
        (slidingWindowLimiter L W state c).state calls) + n) ≤ L.toNat
      omega

end Interval

/-- The limits and windows for which no interval shorter than the window sees two windows: no
packet passes at all, or one in each window and the window length does not wrap. -/
def SafeLimit (L W : BitVec 64) : Prop :=
  L.toNat = 0 ∨ L.toNat = 1 ∧ W.toNat * 1000000000 < 2 ^ 64

section Safe

variable {L W : BitVec 64} {lo hi : Nat}

/-- A used window at time `m`, with the latest start of an interval in which a call passed. -/
structure UsedWindow (L W : BitVec 64) (w : SlidingWindowState) (m : Nat) : Prop where
  limit : w.limit = L
  window : w.window = W
  counted : 1 ≤ w.packets.toNat
  before : w.lastTime.toNat ≤ m

theorem toNat_windowLength (W : BitVec 64) :
    (W * secondNs).toNat = W.toNat * 1000000000 % 2 ^ 64 := by
  have hsecond : secondNs.toNat = 1000000000 := rfl
  rw [BitVec.toNat_mul,hsecond]

theorem restarts_eq_false {w : SlidingWindowState} {now : BitVec 64}
    (hwrap : w.window.toNat * 1000000000 < 2 ^ 64) (hused : w.lastTime ≠ 0)
    (hbefore : w.lastTime.toNat ≤ now.toNat)
    (hshort : now.toNat < w.lastTime.toNat + w.window.toNat * 1000000000) :
    restarts w now = false := by
  have hlength : (w.window * secondNs).toNat = w.window.toNat * 1000000000 := by
    rw [toNat_windowLength]
    exact Nat.mod_eq_of_lt hwrap
  have helapsed : (now - w.lastTime).toNat = now.toNat - w.lastTime.toNat :=
    BitVec.toNat_sub_of_le hbefore
  have hnot : ¬now - w.lastTime ≥ w.window * secondNs := by
    intro hge
    have hle : (w.window * secondNs).toNat ≤ (now - w.lastTime).toNat := hge
    omega
  rw [restarts,decide_eq_false hused,decide_eq_false hnot,Bool.or_false]

/-- With a safe limit no interval shorter than the window has a late restart. -/
theorem lateRestart_eq_false (hsafe : SafeLimit L W) (hshort : hi < lo + W.toNat * 1000000000)
    (calls : List LimiterCall) (state : Option RateLimitState) (passed : Bool) (m : Nat)
    (hm : 1 ≤ m)
    (hentry : ∀ st, state = some st → st.slidingWindowLimiter.lastTime = 0 ∨
      UsedWindow L W st.slidingWindowLimiter m)
    (hpassed : passed = true → L.toNat = 1 ∧ ∃ st, state = some st ∧
      st.slidingWindowLimiter.lastTime ≠ 0 ∧ lo ≤ st.slidingWindowLimiter.lastTime.toNat)
    (hstored : ∀ c ∈ calls, c.stored = true)
    (hsorted : calls.Pairwise fun c d => c.ns ≤ d.ns) (hafter : ∀ c ∈ calls, m ≤ c.ns) :
    lateRestart L W lo hi passed state calls = false := by
  induction calls generalizing state passed m with
  | nil => rfl
  | cons c calls ih =>
    obtain ⟨hbehind,hrest⟩ := List.pairwise_cons.mp hsorted
    have hmc := hafter c (by simp)
    have hothers : ∀ d ∈ calls, d.stored = true := fun d hd => hstored d (by simp [hd])
    rw [lateRestart,Bool.or_eq_false_iff]
    constructor
    · by_contra hlate
      simp only [Bool.and_eq_true,Bool.not_eq_false,decide_eq_true_eq] at hlate
      obtain ⟨⟨hp,hin⟩,hre⟩ := hlate
      obtain ⟨hone,st,rfl,hused,hlo⟩ := hpassed hp
      have hw := (hentry st rfl).resolve_left hused
      have hbefore := hw.before
      have hwrap : W.toNat * 1000000000 < 2 ^ 64 := by
        rcases hsafe with hzero | ⟨_,hwrap⟩
        · omega
        · exact hwrap
      rw [reopens,restarts_eq_false (by rw [hw.window]; exact hwrap) hused (hbefore.trans hmc)
        (by rw [hw.window]; exact hin.2.trans_lt (by omega))] at hre
      cases hre
    · cases hre : reopens state c with
      | true =>
        obtain ⟨st,hst,hcall⟩ := slidingWindow_reopen L W (hstored c (by simp)) hre
        rw [hcall]
        refine ih (some st) _ c.ns (hm.trans hmc) ?_ ?_ hothers hrest hbehind
        · rintro _ ⟨⟩
          rw [hst]
          exact Or.inr ⟨rfl,rfl,le_rfl,le_rfl⟩
        · intro hp
          have hlo : L.toNat = 1 ∧ lo ≤ c.ns := by
            simp only [Bool.or_eq_true,Bool.and_eq_true,decide_eq_true_eq] at hp
            rcases hp with hold | ⟨hin,hL⟩
            · obtain ⟨hone,st',hst',hused,hlo⟩ := hpassed hold
              exact ⟨hone,hlo.trans (((hentry st' hst').resolve_left hused).before.trans hmc)⟩
            · have hone : 1 ≤ L.toNat := hL
              rcases hsafe with hzero | ⟨hone,_⟩
              · omega
              · exact ⟨hone,hin.1⟩
          have hnow : c.now ≠ 0 := fun hzero => by
            have hns : c.ns = 0 := by simp [LimiterCall.ns,hzero]
            omega
          refine ⟨hlo.1,st,rfl,?_,?_⟩
          · rw [hst]
            exact hnow
          · rw [hst]
            exact hlo.2
      | false =>
        obtain ⟨st,rfl,hopen⟩ := exists_of_not_reopens hre
        have hused := lastTime_ne_zero hopen
        have hw := (hentry st rfl).resolve_left hused
        have hfull : st.slidingWindowLimiter.packets ≥ st.slidingWindowLimiter.limit := by
          have hcounted := hw.counted
          have hle : st.slidingWindowLimiter.limit.toNat ≤
              st.slidingWindowLimiter.packets.toNat := by
            rw [hw.limit]
            rcases hsafe with hzero | ⟨hone,_⟩ <;> omega
          exact hle
        rw [slidingWindow_full hopen hfull,Bool.and_false,Bool.or_false]
        refine ih _ passed c.ns (hm.trans hmc) ?_ ?_ hothers hrest hbehind
        · rintro _ ⟨⟩
          exact Or.inr ⟨hw.limit,hw.window,hw.counted,hw.before.trans hmc⟩
        · intro hp
          obtain ⟨hone,st',⟨⟩,_,hlo⟩ := hpassed hp
          exact ⟨hone,_,rfl,hused,hlo⟩

end Safe

section Bursts

variable {L W : BitVec 64} {lo hi : Nat}

/-- The entry with a window opened at `a` that has counted `k` packets. -/
def windowAt (L W a k : BitVec 64) : Option RateLimitState :=
  some { slidingWindowLimiter := ⟨a,k,0,L,W⟩, algo := 1 }

theorem meter_none (t : BitVec 64) (hL : 1 ≤ L.toNat) :
    meter (slidingWindowLimiter L W) none ⟨t,true⟩ = (windowAt L W t 1,true) := by
  have hge : L ≥ 1 := hL
  rw [meter,slidingWindow_none L W rfl,windowAt,openedWindow,decide_eq_true hge]

theorem meter_reopen {a k t : BitVec 64} (hL : 1 ≤ L.toNat)
    (h : restarts ⟨a,k,0,L,W⟩ t = true) :
    meter (slidingWindowLimiter L W) (windowAt L W a k) ⟨t,true⟩ = (windowAt L W t 1,true) := by
  have hge : L ≥ 1 := hL
  rw [meter,windowAt,slidingWindow_restart L W h,windowAt,openedWindow,decide_eq_true hge]

theorem meter_count {a k t : BitVec 64} (h : restarts ⟨a,k,0,L,W⟩ t = false)
    (hk : k.toNat < L.toNat) :
    meter (slidingWindowLimiter L W) (windowAt L W a k) ⟨t,true⟩ =
      (windowAt L W a (k + 1),true) := by
  have hroom : ¬k ≥ L := not_le.mpr hk
  rw [meter,windowAt,slidingWindow_count h hroom,windowAt]

/-- The elapsed time that opens a new window. -/
theorem restarts_iff {a k t : BitVec 64} (ha : a ≠ 0) :
    restarts ⟨a,k,0,L,W⟩ t = true ↔ (W * secondNs).toNat ≤ (t - a).toNat := by
  rw [restarts,decide_eq_false ha,Bool.false_or,decide_eq_true_eq]
  exact Iff.rfl

theorem passesIn_burst (n : Nat) {a k t : BitVec 64} (ha : a ≠ 0)
    (helapsed : (t - a).toNat < (W * secondNs).toNat) (hk : k.toNat + n ≤ L.toNat)
    (hin : lo ≤ t.toNat ∧ t.toNat ≤ hi) (rest : List LimiterCall) :
    passesIn LimiterCall.ns lo hi (trace (meter (slidingWindowLimiter L W)) (windowAt L W a k)
        (List.replicate n ⟨t,true⟩ ++ rest)) =
      passesIn LimiterCall.ns lo hi (trace (meter (slidingWindowLimiter L W))
        (windowAt L W a (k + BitVec.ofNat 64 n)) rest) + n := by
  induction n generalizing k with
  | zero => simp
  | succ n ih =>
    have hopen : restarts ⟨a,k,0,L,W⟩ t = false := by
      rw [← Bool.not_eq_true,restarts_iff ha]
      omega
    have hnext : (k + 1).toNat = k.toNat + 1 := by
      have := L.isLt
      rw [BitVec.toNat_add]
      exact Nat.mod_eq_of_lt (by simpa using by omega)
    have hsum : k + 1 + BitVec.ofNat 64 n = k + BitVec.ofNat 64 (n + 1) := by
      rw [BitVec.add_assoc,Nat.add_comm n 1,BitVec.ofNat_add]
      rfl
    rw [List.replicate_succ,List.cons_append,passesIn_cons,meter_count hopen (by omega),
      if_pos ⟨rfl,hin⟩,ih (by omega),hsum]
    omega

/-- The window length as the limiter computes it is even, so one more nanosecond does not wrap. -/
theorem windowLength_add_one (W : BitVec 64) :
    (W * secondNs + 1).toNat = (W * secondNs).toNat + 1 ∧ W * secondNs + 1 ≠ 0 := by
  have hlength := toNat_windowLength W
  generalize W * secondNs = P at hlength
  have hone : (1 : BitVec 64).toNat = 1 := rfl
  have hnext : (P + 1).toNat = P.toNat + 1 := by
    rw [BitVec.toNat_add,hone]
    omega
  refine ⟨hnext,fun hzero => ?_⟩
  rw [hzero] at hnext
  simp at hnext

/-- Calls every one of which opens a window. -/
theorem passesIn_zero_window (hL : 1 ≤ L.toNat) (hzero : (W * secondNs).toNat = 0) (n : Nat) :
    passesIn LimiterCall.ns 1 1 (trace (meter (slidingWindowLimiter L W)) (windowAt L W 1 1)
      (List.replicate n ⟨1,true⟩)) = n := by
  induction n with
  | zero => rfl
  | succ n ih =>
    have hre : restarts ⟨1,1,0,L,W⟩ 1 = true := (restarts_iff (by decide)).mpr (by omega)
    rw [List.replicate_succ,passesIn_cons,meter_reopen hL hre,if_pos ⟨rfl,by decide⟩,ih]

/-- The calls of an interval that see more passes than the limit. -/
def Exceeds (L W : BitVec 64) : Prop :=
  ∃ calls lo hi, Timely calls ∧ hi < lo + W.toNat * 1000000000 ∧
    L.toNat < passesIn LimiterCall.ns lo hi
      (trace (meter (slidingWindowLimiter L W)) none calls)

theorem timely_replicate (n : Nat) {t : BitVec 64} (ht : 0 < t.toNat) :
    Timely (List.replicate n ⟨t,true⟩) where
  positive := fun c hc => by rw [List.eq_of_mem_replicate hc]; exact ht
  sorted := List.pairwise_replicate.mpr (Or.inr le_rfl)
  stored := fun c hc => by rw [List.eq_of_mem_replicate hc]

theorem Timely.append {as bs : List LimiterCall} (ha : Timely as) (hb : Timely bs)
    (h : ∀ c ∈ as, ∀ d ∈ bs, c.ns ≤ d.ns) : Timely (as ++ bs) where
  positive := fun c hc => (List.mem_append.mp hc).elim (ha.positive c) (hb.positive c)
  sorted := List.pairwise_append.mpr ⟨ha.sorted,hb.sorted,h⟩
  stored := fun c hc => (List.mem_append.mp hc).elim (ha.stored c) (hb.stored c)

/-- A window whose length wraps to nothing lets every call pass. -/
theorem exceeds_of_zero (hW : 0 < W.toNat) (hL : 1 ≤ L.toNat)
    (hzero : (W * secondNs).toNat = 0) : Exceeds L W := by
  refine ⟨List.replicate (L.toNat + 1) ⟨1,true⟩,1,1,timely_replicate _ (by decide),by omega,?_⟩
  rw [List.replicate_succ,passesIn_cons,meter_none 1 hL,if_pos ⟨rfl,by decide⟩,
    passesIn_zero_window hL hzero]
  omega

/-- With a limit of one, a window length that wraps is shorter than it should be. -/
theorem exceeds_of_wrap (hL : L.toNat = 1) (hwrap : 2 ^ 64 ≤ W.toNat * 1000000000) :
    Exceeds L W := by
  obtain ⟨hnext,_⟩ := windowLength_add_one W
  have hlt := (W * secondNs).isLt
  have hre : restarts ⟨1,1,0,L,W⟩ (W * secondNs + 1) = true := by
    rw [restarts_iff (by decide),BitVec.add_sub_cancel]
  have hcalls : Timely ([⟨1,true⟩] ++ [⟨W * secondNs + 1,true⟩]) := by
    refine Timely.append (timely_replicate 1 (by decide)) (timely_replicate 1 (by omega)) ?_
    intro c hc d hd
    rw [List.mem_singleton.mp hc,List.mem_singleton.mp hd,LimiterCall.ns,LimiterCall.ns]
    exact (by omega : 1 ≤ (W * secondNs + 1).toNat)
  refine ⟨_,1,(W * secondNs + 1).toNat,hcalls,by omega,?_⟩
  rw [List.singleton_append,passesIn_cons,meter_none 1 (by omega),
    if_pos ⟨rfl,le_rfl,(by omega : 1 ≤ (W * secondNs + 1).toNat)⟩,passesIn_cons,
    meter_reopen (by omega) hre,
    if_pos ⟨rfl,(by omega : 1 ≤ (W * secondNs + 1).toNat),le_rfl⟩]
  omega

/-- With a limit of two or more, the end of one window and the start of the next lie side by
side. -/
theorem exceeds_of_two (hW : 0 < W.toNat) (hL : 2 ≤ L.toNat) (hlength : 0 < (W * secondNs).toNat) :
    Exceeds L W := by
  obtain ⟨hnext,hnext0⟩ := windowLength_add_one W
  have hone : (1 : BitVec 64).toNat = 1 := rfl
  have hfirst : (W * secondNs - 1).toNat < (W * secondNs).toNat := by
    rw [BitVec.toNat_sub_of_le (show (1 : BitVec 64).toNat ≤ _ by omega),hone]
    omega
  have hfilled : (1 + BitVec.ofNat 64 (L.toNat - 1) : BitVec 64) = L := by
    apply BitVec.eq_of_toNat_eq
    have := L.isLt
    rw [BitVec.toNat_add,hone,BitVec.toNat_ofNat]
    omega
  have hre : restarts ⟨1,L,0,L,W⟩ (W * secondNs + 1) = true := by
    rw [restarts_iff (by decide),BitVec.add_sub_cancel]
  have hopen : restarts ⟨W * secondNs + 1,1,0,L,W⟩ (W * secondNs + 1) = false := by
    rw [← Bool.not_eq_true,restarts_iff hnext0,BitVec.sub_self]
    exact not_le.mpr hlength
  have hcalls : Timely ([⟨1,true⟩] ++ (List.replicate (L.toNat - 1) ⟨W * secondNs,true⟩ ++
      List.replicate 2 ⟨W * secondNs + 1,true⟩)) := by
    have hlater : ∀ c ∈ List.replicate (L.toNat - 1) (⟨W * secondNs,true⟩ : LimiterCall) ++
        List.replicate 2 ⟨W * secondNs + 1,true⟩, 1 ≤ c.ns := by
      intro c hc
      rcases List.mem_append.mp hc with hc | hc
      · rw [List.eq_of_mem_replicate hc]
        exact hlength
      · rw [List.eq_of_mem_replicate hc]
        exact (by omega : 1 ≤ (W * secondNs + 1).toNat)
    refine Timely.append (timely_replicate 1 (by decide)) (Timely.append
      (timely_replicate _ hlength) (timely_replicate 2 (by omega)) ?_) ?_
    · intro c hc d hd
      rw [List.eq_of_mem_replicate hc,List.eq_of_mem_replicate hd]
      exact (by omega : (W * secondNs).toNat ≤ (W * secondNs + 1).toNat)
    · intro c hc d hd
      rw [List.mem_singleton.mp hc]
      exact hlater d hd
  have hin : (W * secondNs).toNat ≤ (W * secondNs + 1).toNat ∧
      (W * secondNs + 1).toNat ≤ (W * secondNs).toNat + 1 := by omega
  refine ⟨_,(W * secondNs).toNat,(W * secondNs).toNat + 1,hcalls,by omega,?_⟩
  rw [List.singleton_append,passesIn_cons,meter_none 1 (by omega),
    passesIn_burst (L.toNat - 1) (by decide) hfirst (by omega) ⟨le_rfl,by omega⟩,hfilled,
    List.replicate_succ,passesIn_cons,meter_reopen (by omega) hre,if_pos ⟨rfl,hin⟩,
    List.replicate_one,passesIn_cons,meter_count hopen (by omega),if_pos ⟨rfl,hin⟩]
  omega

theorem exceeds_of_unsafe (hW : 0 < W.toNat) (h : ¬SafeLimit L W) : Exceeds L W := by
  unfold SafeLimit at h
  push Not at h
  obtain ⟨hL,hwrap⟩ := h
  by_cases hzero : (W * secondNs).toNat = 0
  · exact exceeds_of_zero hW (by omega) hzero
  · by_cases hone : L.toNat = 1
    · exact exceeds_of_wrap hone (hwrap hone)
    · exact exceeds_of_two hW (by omega) (by omega)

end Bursts

/-- The limiter against its bound. The calls that pass in an interval are at most the limit if
none of them is followed, inside the interval, by a call that opens a new window. For all
intervals shorter than the window, of all runs, that holds exactly for safe limits. -/
theorem sliding_window_rate_bound (L W : BitVec 64) :
    (∀ state calls lo hi, FreshWindow state → Timely calls →
      lateRestart L W lo hi false state calls = false →
      passesIn LimiterCall.ns lo hi (trace (meter (slidingWindowLimiter L W)) state calls) ≤
        L.toNat) ∧
    ((∀ state calls lo hi, FreshWindow state → Timely calls → hi < lo + W.toNat * 1000000000 →
      passesIn LimiterCall.ns lo hi (trace (meter (slidingWindowLimiter L W)) state calls) ≤
        L.toNat) ↔ W.toNat = 0 ∨ SafeLimit L W) := by
  have hinterval : ∀ state calls lo hi, FreshWindow state → Timely calls →
      lateRestart L W lo hi false state calls = false →
      passesIn LimiterCall.ns lo hi (trace (meter (slidingWindowLimiter L W)) state calls) ≤
        L.toNat := by
    intro state calls lo hi hfresh hcalls hlate
    have hcounted := passesIn_counted calls state 0 (fun st hst => Or.inl (hfresh st hst))
      ⟨Nat.zero_le _,Or.inl rfl⟩ hcalls.stored hcalls.sorted (by simp) hlate
    simpa using hcounted
  refine ⟨hinterval,?_,?_⟩
  · intro hall
    by_contra hunsafe
    push Not at hunsafe
    obtain ⟨calls,lo,hi,hcalls,hshort,hexceeds⟩ :=
      exceeds_of_unsafe (Nat.pos_of_ne_zero hunsafe.1) hunsafe.2
    have hle := hall none calls lo hi (fun _ h => by cases h) hcalls hshort
    omega
  · rintro (hzero | hsafe) state calls lo hi hfresh hcalls hshort
    · rw [passesIn_empty (by omega)]
      exact Nat.zero_le _
    · exact hinterval state calls lo hi hfresh hcalls (lateRestart_eq_false hsafe hshort calls state
        false 1 le_rfl (fun st hst => Or.inl (hfresh st hst)) (by simp) hcalls.stored hcalls.sorted
        hcalls.positive)

/-- A call at the start of a window, one at its end and two in the next window. -/
def splitBurst : List LimiterCall :=
  [⟨1,true⟩,⟨1000000000,true⟩,⟨1000000001,true⟩,⟨1000000002,true⟩]

/-- A limit of two in a second lets three calls of two nanoseconds pass. -/
theorem sliding_window_split_burst :
    Timely splitBurst ∧ passesIn LimiterCall.ns 1000000000 1000000002
      (trace (meter (slidingWindowLimiter 2 1)) none splitBurst) = 3 :=
  ⟨by constructor <;> decide,by decide⟩

theorem sliding_window_rate_bound_unsplit :
    passesIn LimiterCall.ns 1 1000000000
      (trace (meter (slidingWindowLimiter 2 1)) none splitBurst) ≤ 2 :=
  (sliding_window_rate_bound 2 1).1 none splitBurst 1 1000000000 (fun _ h => by cases h)
    (by constructor <;> decide) (by decide)

end Aethon.Ebpf
