import Aethon.Framework.Metered

/-!
# The rate limiters of the XDP program

`token_bucket` and `sliding_window_limiter` on the entry of one source address in the per-CPU
map. The entry is `none` until one of the limiters has put it into the map; times, counters and
their arithmetic are 64-bit.
-/

namespace Aethon.Ebpf

open Framework

def secondNs : BitVec 64 := 1000000000
def perCoreRefillPerSec : BitVec 64 := 50000

structure TokenBucketState where
  tokens : BitVec 64 := 0
  lastUpdated : BitVec 64 := 0
  dropCount : BitVec 64 := 0
  deriving DecidableEq

structure SlidingWindowState where
  lastTime : BitVec 64 := 0
  packets : BitVec 64 := 0
  dropCount : BitVec 64 := 0
  limit : BitVec 64 := 0
  window : BitVec 64 := 0
  deriving DecidableEq

structure RateLimitState where
  tokenBucket : TokenBucketState := {}
  slidingWindowLimiter : SlidingWindowState := {}
  algo : BitVec 64 := 0
  deriving DecidableEq

/-- A call of a limiter: the time it reads, and whether `bpf_map_update_elem` can add the entry
if there is none. -/
structure LimiterCall where
  now : BitVec 64
  stored : Bool := true

/-- What a call returns, the entry it leaves behind, and whether it puts the source address on
the blocklist. -/
structure Verdict where
  resp : Bool
  state : Option RateLimitState
  blocklisted : Bool := false

/-- The refill of `token_bucket`. -/
def refill (bucket : TokenBucketState) (tokens now : BitVec 64) : TokenBucketState :=
  let elapsed := now - bucket.lastUpdated
  let tokensToAdd := elapsed * perCoreRefillPerSec / secondNs
  if tokensToAdd > 0 then
    let newTokens := bucket.tokens + tokensToAdd
    { bucket with tokens := if newTokens > tokens then tokens else newTokens, lastUpdated := now }
  else bucket

def tokenBucket (tokens : BitVec 64) (state : Option RateLimitState) (call : LimiterCall) :
    Verdict :=
  let full : TokenBucketState :=
    { tokens := if tokens > 0 then tokens - 1 else 0, lastUpdated := call.now, dropCount := 0 }
  match state with
  | none =>
      { resp := tokens > 0
        state := if call.stored then some { tokenBucket := full } else none }
  | some st =>
      if st.tokenBucket.lastUpdated = 0 then
        { resp := tokens > 0, state := some { st with tokenBucket := full } }
      else
        let bucket := refill st.tokenBucket tokens call.now
        if bucket.tokens = 0 then
          let dropCount := bucket.dropCount + 1
          { resp := false
            state := some { st with tokenBucket := { bucket with dropCount := dropCount } }
            blocklisted := dropCount ≥ 8 }
        else
          { resp := true
            state := some { st with tokenBucket := { bucket with tokens := bucket.tokens - 1 } } }

/-- The test for the start of a new window. -/
def restarts (w : SlidingWindowState) (now : BitVec 64) : Bool :=
  w.lastTime = 0 || now - w.lastTime ≥ w.window * secondNs

def slidingWindowLimiter (limit window : BitVec 64) (state : Option RateLimitState)
    (call : LimiterCall) : Verdict :=
  let opened : SlidingWindowState :=
    { limit := limit, window := window, packets := 1, dropCount := 0, lastTime := call.now }
  match state with
  | none =>
      { resp := limit ≥ 1
        state :=
          if call.stored then some { slidingWindowLimiter := opened, algo := 1 } else none }
  | some st =>
      let w := st.slidingWindowLimiter
      if restarts w call.now then
        { resp := limit ≥ 1, state := some { st with slidingWindowLimiter := opened } }
      else if w.packets ≥ w.limit then
        let dropCount := w.dropCount + 1
        { resp := false
          state := some { st with slidingWindowLimiter := { w with dropCount := dropCount } }
          blocklisted := dropCount ≥ 8 }
      else
        { resp := true
          state := some { st with slidingWindowLimiter := { w with packets := w.packets + 1 } } }

/-- A limiter as a meter: the entry after a call, and whether it passed. -/
def meter (limiter : Option RateLimitState → LimiterCall → Verdict)
    (state : Option RateLimitState) (call : LimiterCall) : Option RateLimitState × Bool :=
  ((limiter state call).state,(limiter state call).resp)

/-- The time of a call in nanoseconds. -/
def LimiterCall.ns (call : LimiterCall) : Nat := call.now.toNat

/-- Calls with positive, non-decreasing times that all find room for the entry in the map. -/
structure Timely (calls : List LimiterCall) : Prop where
  positive : ∀ c ∈ calls, 0 < c.ns
  sorted : calls.Pairwise fun c d => c.ns ≤ d.ns
  stored : ∀ c ∈ calls, c.stored = true

end Aethon.Ebpf
