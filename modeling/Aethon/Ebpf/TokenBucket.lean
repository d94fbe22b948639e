import Aethon.Ebpf.RateLimiter

/-!
# The rate bound of the token bucket

The potential of a bucket is its tokens together with the part of a token that has accrued since
the last refill. A call at a later time adds at most what the refill rate gives for the time in
between, also when the product with the elapsed time wraps, and a call that passes takes one
token out.
-/

namespace Aethon.Ebpf

open Framework

/-- The part of a token that has accrued at time `m`, in units of `1 / SECOND_NS`. -/
def accrued (bucket : TokenBucketState) (m : Nat) : Nat :=
  (m - bucket.lastUpdated.toNat) * 50000 % 2 ^ 64

/-- The bucket of an entry after a call at time `m`. -/
structure BucketAt (B : BitVec 64) (bucket : TokenBucketState) (m : Nat) : Prop where
  tokens_le : bucket.tokens.toNat ≤ B.toNat
  started : 0 < bucket.lastUpdated.toNat
  before : bucket.lastUpdated.toNat ≤ m
  accrued_lt : accrued bucket m < 1000000000

/-- The tokens to add, as a natural number. -/
theorem tokensToAdd_eq {bucket : TokenBucketState} {now : BitVec 64}
    (h : bucket.lastUpdated.toNat ≤ now.toNat) :
    ((now - bucket.lastUpdated) * perCoreRefillPerSec / secondNs).toNat =
      accrued bucket now.toNat / 1000000000 := by
  rw [BitVec.toNat_udiv,BitVec.toNat_mul,BitVec.toNat_sub_of_le (by simpa [BitVec.le_def] using h)]
  rfl

/-- What accrues between two calls, also across a wrap of the product. -/
theorem accrued_le {bucket : TokenBucketState} {m now : Nat}
    (hm : bucket.lastUpdated.toNat ≤ m) (hnow : m ≤ now) :
    accrued bucket now ≤ accrued bucket m + 50000 * (now - m) := by
  have hsplit : (now - bucket.lastUpdated.toNat) * 50000 =
      (m - bucket.lastUpdated.toNat) * 50000 + 50000 * (now - m) := by omega
  rw [accrued,accrued,hsplit,Nat.add_mod]
  refine (Nat.mod_le _ _).trans ?_
  exact Nat.add_le_add_left (Nat.mod_le _ _) _

/-- The potential of a bucket. -/
def potential (bucket : TokenBucketState) (m : Nat) : Nat :=
  bucket.tokens.toNat * 1000000000 + accrued bucket m

theorem BucketAt.refill {B : BitVec 64} {bucket : TokenBucketState} {m : Nat}
    (h : BucketAt B bucket m) (hB : B.toNat < 2 ^ 63) {now : BitVec 64} (hnow : m ≤ now.toNat) :
    BucketAt B (refill bucket B now) now.toNat ∧
      potential (refill bucket B now) now.toNat ≤ potential bucket m + 50000 * (now.toNat - m) := by
  have hbefore := h.before.trans hnow
  have hflow := accrued_le h.before hnow
  have hadd := tokensToAdd_eq hbefore
  have htokens := h.tokens_le
  have hwrap : accrued bucket now.toNat < 2 ^ 64 := Nat.mod_lt _ (by decide)
  unfold Ebpf.refill
  dsimp only
  generalize (now - bucket.lastUpdated) * perCoreRefillPerSec / secondNs = n at hadd
  by_cases hpos : n > 0
  · have hsum : (bucket.tokens + n).toNat = bucket.tokens.toNat + n.toNat := by
      rw [BitVec.toNat_add]
      omega
    have hcapped : (if bucket.tokens + n > B then B else bucket.tokens + n).toNat =
        min B.toNat (bucket.tokens.toNat + n.toNat) := by
      by_cases hgt : bucket.tokens + n > B
      · have hlt : B.toNat < (bucket.tokens + n).toNat := hgt
        rw [if_pos hgt]
        omega
      · have hle : (bucket.tokens + n).toNat ≤ B.toNat := not_lt.mp hgt
        rw [if_neg hgt]
        omega
    have hzero : ∀ b : TokenBucketState, b.lastUpdated = now → accrued b now.toNat = 0 := by
      intro b hb
      simp [accrued,hb]
    have hstart := h.started
    rw [if_pos hpos]
    refine ⟨⟨?_,by dsimp only; omega,le_rfl,by rw [hzero _ rfl]; decide⟩,?_⟩
    · dsimp only
      omega
    · rw [potential,potential,hzero _ rfl]
      dsimp only
      rw [hcapped]
      omega
  · have hn : n.toNat = 0 := by
      have hle : n.toNat ≤ (0 : BitVec 64).toNat := not_lt.mp hpos
      simpa using hle
    rw [if_neg hpos]
    refine ⟨⟨htokens,h.started,hbefore,by omega⟩,?_⟩
    rw [potential,potential]
    omega

/-- An entry whose bucket has not been used. -/
def FreshBucket (state : Option RateLimitState) : Prop :=
  ∀ st, state = some st → st.tokenBucket.lastUpdated = 0

/-- The entries that calls of `token_bucket` leave at time `m`, and those they start from. -/
def BucketEntry (B : BitVec 64) (state : Option RateLimitState) (m : Nat) : Prop :=
  1 ≤ m ∧ (FreshBucket state ∨ ∃ st, state = some st ∧ BucketAt B st.tokenBucket m)

/-- The potential of an entry; one that has not been used counts as full. -/
def entryPotential (B : BitVec 64) (state : Option RateLimitState) (m : Nat) : Nat :=
  match state with
  | none => B.toNat * 1000000000
  | some st =>
      if st.tokenBucket.lastUpdated = 0 then B.toNat * 1000000000
      else potential st.tokenBucket m

theorem entryPotential_fresh {B : BitVec 64} {state : Option RateLimitState} (m : Nat)
    (h : FreshBucket state) : entryPotential B state m = B.toNat * 1000000000 := by
  cases state with
  | none => rfl
  | some st => rw [entryPotential,if_pos (h st rfl)]

theorem entryPotential_used {B : BitVec 64} {st : RateLimitState} {m : Nat}
    (h : BucketAt B st.tokenBucket m) :
    entryPotential B (some st) m = potential st.tokenBucket m := by
  rw [entryPotential,if_neg]
  intro hzero
  have := h.started
  simp [hzero] at this

/-- What one call does to an entry. -/
structure Metered (B : BitVec 64) (state : Option RateLimitState) (m : Nat) (now : Nat)
    (state' : Option RateLimitState) (resp : Bool) : Prop where
  entry : BucketEntry B state' now
  paid : entryPotential B state' now + (if resp then 1000000000 else 0) ≤
    entryPotential B state m + 50000 * (now - m)
  capped : entryPotential B state' now + (if resp then 1000000000 else 0) ≤
    B.toNat * 1000000000 + 999999999
  tokens : ∃ st, state' = some st ∧ st.tokenBucket.tokens.toNat + (if resp then 1 else 0) ≤ B.toNat

section Equations

variable {B : BitVec 64} {st : RateLimitState} {c : LimiterCall}

theorem tokenBucket_none (hB : B > 0) (hstored : c.stored = true) :
    tokenBucket B none c =
      { resp := true, state := some { tokenBucket := ⟨B - 1,c.now,0⟩ } } := by
  simp only [tokenBucket,hB,hstored,if_true,decide_true]

theorem tokenBucket_unused (hB : B > 0) (hzero : st.tokenBucket.lastUpdated = 0) :
    tokenBucket B (some st) c =
      { resp := true, state := some { st with tokenBucket := ⟨B - 1,c.now,0⟩ } } := by
  simp only [tokenBucket,hB,hzero,if_true,decide_true]

theorem tokenBucket_empty (hused : st.tokenBucket.lastUpdated ≠ 0)
    (hempty : (refill st.tokenBucket B c.now).tokens = 0) :
    tokenBucket B (some st) c =
      { resp := false
        state := some { st with
          tokenBucket := { refill st.tokenBucket B c.now with
            dropCount := (refill st.tokenBucket B c.now).dropCount + 1 } }
        blocklisted := (refill st.tokenBucket B c.now).dropCount + 1 ≥ 8 } := by
  simp only [tokenBucket,hused,hempty,if_true,if_false]

theorem tokenBucket_take (hused : st.tokenBucket.lastUpdated ≠ 0)
    (hsome : (refill st.tokenBucket B c.now).tokens ≠ 0) :
    tokenBucket B (some st) c =
      { resp := true
        state := some { st with
          tokenBucket := { refill st.tokenBucket B c.now with
            tokens := (refill st.tokenBucket B c.now).tokens - 1 } } } := by
  simp only [tokenBucket,hused,hsome,if_false]

end Equations

theorem toNat_sub_one {x : BitVec 64} (hx : 1 ≤ x.toNat) : (x - 1).toNat = x.toNat - 1 := by
  rw [BitVec.toNat_sub_of_le hx]
  rfl

section Call

variable {B : BitVec 64} {m : Nat} {c : LimiterCall}

/-- The first call fills the bucket and takes a token out. -/
theorem metered_full (hpos : 1 ≤ B.toNat) {state : Option RateLimitState}
    (hfresh : FreshBucket state) (hnow : 0 < c.ns) (st : RateLimitState)
    (hst : st.tokenBucket = ⟨B - 1,c.now,0⟩) : Metered B state m c.ns (some st) true := by
  have hone := toNat_sub_one hpos
  have hzero : accrued st.tokenBucket c.ns = 0 := by simp [hst,accrued,LimiterCall.ns]
  have htokens : st.tokenBucket.tokens.toNat = B.toNat - 1 := by rw [hst,hone]
  have hat : BucketAt B st.tokenBucket c.ns :=
    ⟨by omega,by rw [hst]; exact hnow,by rw [hst]; exact le_rfl,by omega⟩
  have hpotential : entryPotential B (some st) c.ns = (B.toNat - 1) * 1000000000 := by
    rw [entryPotential_used hat,potential,htokens,hzero,Nat.add_zero]
  refine ⟨⟨hnow,Or.inr ⟨st,rfl,hat⟩⟩,?_,?_,st,rfl,?_⟩
  · rw [hpotential,entryPotential_fresh m hfresh,if_pos rfl]
    omega
  · rw [hpotential,if_pos rfl]
    omega
  · rw [htokens,if_pos rfl]
    omega

theorem tokenBucket_fresh (hpos : 1 ≤ B.toNat) {state : Option RateLimitState}
    (hfresh : FreshBucket state) (hstored : c.stored = true) (hnow : 0 < c.ns) :
    Metered B state m c.ns (tokenBucket B state c).state (tokenBucket B state c).resp := by
  cases state with
  | none =>
    rw [tokenBucket_none hpos hstored]
    exact metered_full hpos hfresh hnow _ rfl
  | some st =>
    rw [tokenBucket_unused hpos (hfresh st rfl)]
    exact metered_full hpos hfresh hnow _ rfl

/-- Taking a token, or none, out of a bucket that was just refilled. -/
theorem metered_taken {state : Option RateLimitState} {r : TokenBucketState}
    {st : RateLimitState} {resp : Bool} (hat : BucketAt B r c.ns)
    (hflow : potential r c.ns ≤ entryPotential B state m + 50000 * (c.ns - m))
    (hupdated : st.tokenBucket.lastUpdated = r.lastUpdated)
    (htaken : st.tokenBucket.tokens.toNat + (if resp then 1 else 0) = r.tokens.toNat) :
    Metered B state m c.ns (some st) resp := by
  have htokens := hat.tokens_le
  have haccrued : accrued st.tokenBucket c.ns = accrued r c.ns := by
    rw [accrued,accrued,hupdated]
  have hlt := hat.accrued_lt
  have hstarted := hat.started
  have hbefore := hat.before
  have hnext : BucketAt B st.tokenBucket c.ns :=
    ⟨by omega,by rw [hupdated]; omega,by rw [hupdated]; omega,by omega⟩
  have hpotential : entryPotential B (some st) c.ns + (if resp then 1000000000 else 0) =
      potential r c.ns := by
    rw [entryPotential_used hnext,potential,potential,haccrued,← htaken]
    cases resp
    · simp
    · simp only [if_true]
      omega
  refine ⟨⟨by omega,Or.inr ⟨st,rfl,hnext⟩⟩,?_,?_,st,rfl,by omega⟩
  · rw [hpotential]
    exact hflow
  · rw [hpotential,potential]
    omega

/-- A later call refills the bucket and takes a token out, if there is one. -/
theorem tokenBucket_used (hB : B.toNat < 2 ^ 63) {st : RateLimitState}
    (h : BucketAt B st.tokenBucket m) (hnow : m ≤ c.ns) :
    Metered B (some st) m c.ns (tokenBucket B (some st) c).state
      (tokenBucket B (some st) c).resp := by
  obtain ⟨hat,hflow⟩ := h.refill hB hnow
  have hused : st.tokenBucket.lastUpdated ≠ 0 := fun hzero => by
    have := h.started
    simp [hzero] at this
  rw [← entryPotential_used h] at hflow
  by_cases hempty : (refill st.tokenBucket B c.now).tokens = 0
  · rw [tokenBucket_empty hused hempty]
    exact metered_taken hat hflow rfl rfl
  · have hpos : 1 ≤ (refill st.tokenBucket B c.now).tokens.toNat := by
      by_contra hzero
      exact hempty (BitVec.eq_of_toNat_eq (by simpa using hzero))
    rw [tokenBucket_take hused hempty]
    refine metered_taken hat hflow rfl ?_
    rw [if_pos rfl]
    dsimp only
    rw [toNat_sub_one hpos]
    omega

/-- Every call keeps the account of the entry. -/
theorem tokenBucket_metered (hpos : 1 ≤ B.toNat) (hB : B.toNat < 2 ^ 63)
    {state : Option RateLimitState} (h : BucketEntry B state m) (hstored : c.stored = true)
    (hnow : m ≤ c.ns) :
    Metered B state m c.ns (tokenBucket B state c).state (tokenBucket B state c).resp := by
  obtain ⟨hone,hfresh | ⟨st,rfl,hat⟩⟩ := h
  · exact tokenBucket_fresh hpos hfresh hstored (by omega)
  · exact tokenBucket_used hB hat hnow

end Call

theorem tokenBucket_amortised {B : BitVec 64} (hpos : 1 ≤ B.toNat) (hB : B.toNat < 2 ^ 63) :
    Amortised (meter (tokenBucket B)) LimiterCall.ns (BucketEntry B) (fun c => c.stored = true)
      (entryPotential B) 1000000000 50000 (B.toNat * 1000000000 + 999999999) where
  keeps := fun _ _ _ hs hc hm => (tokenBucket_metered hpos hB hs hc hm).entry
  paid := fun _ _ _ hs hc hm => (tokenBucket_metered hpos hB hs hc hm).paid
  capped := fun _ _ _ hs hc hm => (tokenBucket_metered hpos hB hs hc hm).capped

/-- The rate bound: on an entry that starts unused, no call ever leaves more than `B` tokens, a
call that passes finds a token to take, and the calls that pass in any interval of `t`
nanoseconds are at most the bucket size, one, and the refill of the interval. -/
theorem token_bucket_rate_bound (B : BitVec 64) (hpos : 1 ≤ B.toNat) (hB : B.toNat < 2 ^ 63)
    (state : Option RateLimitState) (hfresh : FreshBucket state) (calls : List LimiterCall)
    (hcalls : Timely calls) :
    (∀ e ∈ trace (meter (tokenBucket B)) state calls, ∃ st, e.2.1 = some st ∧
      st.tokenBucket.tokens.toNat + (if e.2.2 then 1 else 0) ≤ B.toNat) ∧
    ∀ start t, passesIn LimiterCall.ns start (start + t)
      (trace (meter (tokenBucket B)) state calls) ≤ B.toNat + 1 + t * 50000 / 1000000000 := by
  have hentry : BucketEntry B state 1 := ⟨le_rfl,Or.inl hfresh⟩
  constructor
  · refine forall_mem_trace ?_ calls state 1 hentry hcalls.stored hcalls.sorted hcalls.positive
    intro s m c hs hc hm
    exact ⟨(tokenBucket_metered hpos hB hs hc hm).entry,
      (tokenBucket_metered hpos hB hs hc hm).tokens⟩
  · intro start t
    have hbound := (tokenBucket_amortised hpos hB).passesIn_le_cap start (start + t) calls state 1
      hentry hcalls.stored hcalls.sorted hcalls.positive
    omega

theorem token_bucket_rate_bound_burst :
    passesIn LimiterCall.ns 5 15 (trace (meter (tokenBucket 2)) none [⟨5,true⟩,⟨6,true⟩,⟨7,true⟩]) ≤
      3 := by
  have hcalls : Timely [⟨5,true⟩,⟨6,true⟩,⟨7,true⟩] := by
    constructor <;> decide
  exact (token_bucket_rate_bound 2 (by decide) (by decide) none (fun _ h => by cases h) _
    hcalls).2 5 10

end Aethon.Ebpf
