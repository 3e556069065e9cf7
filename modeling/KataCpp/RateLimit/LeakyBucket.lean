import KataCpp.RateLimit.TokenBucket

/-!
# The leaky bucket

`LeakyBucket::request` is the request of the token bucket with the passage of
time turned around: the bucket starts with `capacity` tokens, elapsed time
takes tokens out of it, and a request is granted if enough tokens are left.
Nothing puts tokens back, except a request for a negative number of them.  So a
pause that is long enough to leak the whole capacity does not open room for
requests; it leaves an empty balance that grants nothing.
-/

namespace KataCpp

open MachineInt ElapsedTokens

structure LeakyBucket where
  capacity : ℤ
  leakRate : ℤ
  tokens : ℤ
  lastLeak : ℤ
  deriving DecidableEq

namespace LeakyBucket

open TokenBucket (Request ClockFrom)

/-- The constructor starts with a full balance and reads the clock for
`last_leak_`. -/
def construct (capacity leakRate now : ℤ) : LeakyBucket :=
  { capacity, leakRate, tokens := capacity, lastLeak := now }

def leak (int : ℤ → ℤ) (bucket : LeakyBucket) (now : ℤ) : LeakyBucket :=
  let leakAmount := wholeTokens int bucket.leakRate bucket.lastLeak now
  { bucket with
    tokens := max 0 (int (bucket.tokens - leakAmount))
    lastLeak := now }

/-- `LeakyBucket::request`, with its answer. -/
def request (int : ℤ → ℤ) (bucket : LeakyBucket) (call : Request) :
    Bool × LeakyBucket :=
  let leaked := leak int bucket call.now
  if call.tokens ≤ leaked.tokens then
    (true, { leaked with tokens := int (leaked.tokens - call.tokens) })
  else
    (false, leaked)

def after (int : ℤ → ℤ) (bucket : LeakyBucket) (calls : List Request) :
    LeakyBucket :=
  calls.foldl (fun current call => (request int current call).2) bucket

section Step

variable (int : ℤ → ℤ) (bucket : LeakyBucket) (call : Request)

@[simp]
theorem request_capacity :
    (request int bucket call).2.capacity = bucket.capacity := by
  simp only [request]
  split <;> rfl

@[simp]
theorem request_leakRate :
    (request int bucket call).2.leakRate = bucket.leakRate := by
  simp only [request]
  split <;> rfl

@[simp]
theorem request_lastLeak :
    (request int bucket call).2.lastLeak = call.now := by
  simp only [request]
  split <;> rfl

/-- The balance right after the leak, in exact arithmetic. -/
theorem leak_tokens (now : ℤ) :
    (leak exactInt bucket now).tokens =
      max 0 (bucket.tokens -
        wholeTokens exactInt bucket.leakRate bucket.lastLeak now) := rfl

/-- A request is granted by the balance that the leak has left. -/
theorem request_granted_iff :
    (request exactInt bucket call).1 = true ↔
      call.tokens ≤ max 0 (bucket.tokens -
        wholeTokens exactInt bucket.leakRate bucket.lastLeak call.now) := by
  rw [← leak_tokens]
  by_cases hcovered : call.tokens ≤ (leak exactInt bucket call.now).tokens
  · simp [request, hcovered]
  · simp [request, hcovered]

/-- One request for a non-negative number of tokens never raises the balance
above the capacity. -/
theorem request_tokens_le (hcapacity : 0 ≤ bucket.capacity)
    (hrate : 0 ≤ bucket.leakRate) (hclock : bucket.lastLeak ≤ call.now)
    (htokens : bucket.tokens ≤ bucket.capacity) (hcall : 0 ≤ call.tokens) :
    (request exactInt bucket call).2.tokens ≤ bucket.capacity := by
  have hamount := wholeTokens_nonneg hrate hclock
  have hleaked := leak_tokens bucket call.now
  by_cases hcovered : call.tokens ≤ (leak exactInt bucket call.now).tokens
  · simp only [request, hcovered, if_true, exactInt_apply]
    omega
  · simp only [request, hcovered, if_false]
    omega

end Step

section Run

variable {bucket : LeakyBucket} {calls : List Request}

@[simp]
theorem after_cons (int : ℤ → ℤ) (call : Request) :
    after int bucket (call :: calls) =
      after int (request int bucket call).2 calls := rfl

theorem after_leakRate (int : ℤ → ℤ) :
    (after int bucket calls).leakRate = bucket.leakRate := by
  induction calls generalizing bucket with
  | nil => rfl
  | cons call calls ih => rw [after_cons, ih, request_leakRate]

/-- Runs without negative requests keep the balance within the capacity. -/
theorem after_tokens_le (hcapacity : 0 ≤ bucket.capacity)
    (hrate : 0 ≤ bucket.leakRate)
    (hclock : ClockFrom bucket.lastLeak calls)
    (hcalls : ∀ call ∈ calls, 0 ≤ call.tokens)
    (htokens : bucket.tokens ≤ bucket.capacity) :
    (after exactInt bucket calls).tokens ≤ bucket.capacity := by
  induction calls generalizing bucket with
  | nil => exact htokens
  | cons call calls ih =>
      have hstep := request_tokens_le bucket call hcapacity hrate hclock.head
        htokens (hcalls call (by simp))
      have hrest := @ih (request exactInt bucket call).2
        (by simpa using hcapacity) (by simpa using hrate)
        (by simpa using hclock.tail)
        (fun later hlater => hcalls later (by simp [hlater]))
        (by simpa using hstep)
      simpa using hrest

end Run

/-- A pause of at least `⌈capacity * 1000 / leakRate⌉` milliseconds leaks the
whole capacity. -/
theorem capacity_le_wholeTokens {capacity leakRate start now : ℤ}
    (hrate : 1 ≤ leakRate) (hclock : start ≤ now)
    (hpause : ⌈(capacity * 1000 : ℚ) / leakRate⌉ ≤ elapsedMs start now) :
    capacity ≤ wholeTokens exactInt leakRate start now := by
  have hrate' : (0 : ℚ) < leakRate := by
    exact_mod_cast hrate
  rw [Int.ceil_le, div_le_iff₀ hrate'] at hpause
  have hleaked : capacity * 1000 ≤ elapsedMs start now * leakRate := by
    exact_mod_cast hpause
  rw [wholeTokens_eq_ediv (by omega) hclock]
  omega

/-- After a pause that leaks the whole capacity, a bucket that has seen no
negative request grants exactly the request for nothing.  In general all
requests up to the capacity are granted precisely when the balance before the
pause exceeds the leaked amount by the capacity. -/
theorem granted_after_pause_iff (capacity leakRate start : ℤ)
    (hcapacity : 1 ≤ capacity) (hrate : 1 ≤ leakRate) (calls : List Request)
    (hclock : ClockFrom start calls) (now : ℤ) :
    let bucket := after exactInt (construct capacity leakRate start) calls
    bucket.lastLeak ≤ now →
    ⌈(capacity * 1000 : ℚ) / leakRate⌉ ≤ elapsedMs bucket.lastLeak now →
    ((∀ tokens, 0 ≤ tokens → tokens ≤ capacity →
        (request exactInt bucket ⟨now, tokens⟩).1 = true) ↔
      capacity + elapsedMs bucket.lastLeak now * leakRate / 1000 ≤
        bucket.tokens) ∧
      ((∀ call ∈ calls, 0 ≤ call.tokens) →
        ∀ tokens, 0 ≤ tokens → tokens ≤ capacity →
          ((request exactInt bucket ⟨now, tokens⟩).1 = true ↔
            tokens = 0)) := by
  intro bucket hlater hpause
  have hbucketRate : bucket.leakRate = leakRate := after_leakRate exactInt
  have hleaked := capacity_le_wholeTokens hrate hlater hpause
  have hgranted : ∀ tokens,
      (request exactInt bucket ⟨now, tokens⟩).1 = true ↔
        tokens ≤ max 0 (bucket.tokens -
          wholeTokens exactInt leakRate bucket.lastLeak now) := by
    intro tokens
    rw [request_granted_iff, hbucketRate]
  constructor
  · rw [← wholeTokens_eq_ediv (by omega) hlater]
    constructor
    · intro hall
      have hfull := (hgranted capacity).mp (hall capacity (by omega) le_rfl)
      omega
    · intro hroom tokens _ htokens
      rw [hgranted]
      omega
  · intro hcalls tokens hnonneg htokens
    have hbalance : bucket.tokens ≤ capacity :=
      @after_tokens_le (construct capacity leakRate start) calls
        (by simp only [construct]; omega) (by simp only [construct]; omega)
        hclock hcalls le_rfl
    rw [hgranted]
    omega

/-- The demo's bucket after one request and a pause of ten seconds. -/
theorem granted_after_pause_iff_ten_seconds :
    (request exactInt (after exactInt (construct 10 1 0) [⟨500000000, 1⟩])
        ⟨10500000000, 0⟩).1 = true ∧
      ¬(request exactInt (after exactInt (construct 10 1 0) [⟨500000000, 1⟩])
        ⟨10500000000, 1⟩).1 = true := by
  have helapsed : elapsedMs
      (after exactInt (construct 10 1 0) [⟨500000000, 1⟩]).lastLeak
      10500000000 = 10000 := by
    decide
  have hpause : ⌈((10 : ℤ) * 1000 : ℚ) / (1 : ℤ)⌉ ≤ elapsedMs
      (after exactInt (construct 10 1 0) [⟨500000000, 1⟩]).lastLeak
      10500000000 := by
    rw [helapsed, Int.ceil_le]
    norm_num
  have hgranted := (granted_after_pause_iff 10 1 0 (by decide) (by decide)
    [⟨500000000, 1⟩] (by simp [ClockFrom]) 10500000000 (by decide)
    hpause).2 (by simp)
  refine ⟨(hgranted 0 (by decide) (by decide)).mpr rfl, ?_⟩
  rw [hgranted 1 (by decide) (by decide)]
  decide

/-- The demo's bucket of ten tokens leaking one per second, left alone for ten
seconds, denies a request for one token. -/
theorem request_denied_after_pause :
    ⌈(10 * 1000 : ℚ) / 1⌉ ≤ elapsedMs (construct 10 1 0).lastLeak 10000000000 ∧
      ¬ ∀ tokens, 0 ≤ tokens → tokens ≤ 10 →
        (request exactInt (after exactInt (construct 10 1 0) [])
          ⟨10000000000, tokens⟩).1 = true := by
  have helapsed :
      elapsedMs (construct 10 1 0).lastLeak 10000000000 = 10000 := by
    decide
  constructor
  · rw [helapsed, Int.ceil_le]
    norm_num
  · intro hall
    exact absurd (hall 1 (by decide) (by decide)) (by decide)

end LeakyBucket

end KataCpp
