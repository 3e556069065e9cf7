import KataCpp.RateLimit.ElapsedTokens

/-!
# The token bucket

`TokenBucket::request` first converts the time since the previous request into
whole tokens, caps the balance by the capacity, and then grants the request
if the balance covers it.  Two facts about whole runs are proved here.

The rate bound is a potential argument: the balance after a run plus everything
granted in it is at most the balance before it plus the tokens earned over the
whole interval, because earning in pieces never gains.

The refill is lossy: every request moves `last_refill_` to the present, so the
fraction of a token earned so far is dropped, whether or not the request is
granted.  The tokens available later are unaffected precisely when the dropped
fraction amounts to no whole token or the bucket fills up anyway.  The 32-bit
products of long intervals wrap around, each for itself, and the comparison of
the two ways is made with the wrapped numbers.
-/

namespace KataCpp

open MachineInt ElapsedTokens

@[ext]
structure TokenBucket where
  capacity : ℤ
  refillRate : ℤ
  tokens : ℤ
  lastRefill : ℤ
  deriving DecidableEq

namespace TokenBucket

/-- One call of `request`: the clock reading it makes and its argument. -/
structure Request where
  now : ℤ
  tokens : ℤ

/-- The constructor starts with an empty balance and reads the clock for
`last_refill_`. -/
def construct (capacity refillRate now : ℤ) : TokenBucket :=
  { capacity, refillRate, tokens := 0, lastRefill := now }

def refill (int : ℤ → ℤ) (bucket : TokenBucket) (now : ℤ) : TokenBucket :=
  let refillAmount := wholeTokens int bucket.refillRate bucket.lastRefill now
  { bucket with
    tokens := min bucket.capacity (int (bucket.tokens + refillAmount))
    lastRefill := now }

/-- `TokenBucket::request`, with its answer. -/
def request (int : ℤ → ℤ) (bucket : TokenBucket) (call : Request) :
    Bool × TokenBucket :=
  let refilled := refill int bucket call.now
  if call.tokens ≤ refilled.tokens then
    (true, { refilled with tokens := int (refilled.tokens - call.tokens) })
  else
    (false, refilled)

def after (int : ℤ → ℤ) (bucket : TokenBucket) (calls : List Request) :
    TokenBucket :=
  calls.foldl (fun current call => (request int current call).2) bucket

def answers (int : ℤ → ℤ) : TokenBucket → List Request → List Bool
  | _, [] => []
  | bucket, call :: calls =>
      (request int bucket call).1 ::
        answers int (request int bucket call).2 calls

/-- The total number of tokens granted to a sequence of requests. -/
def granted (int : ℤ → ℤ) : TokenBucket → List Request → ℤ
  | _, [] => 0
  | bucket, call :: calls =>
      (if (request int bucket call).1 then call.tokens else 0) +
        granted int (request int bucket call).2 calls

section Step

variable (int : ℤ → ℤ) (bucket : TokenBucket) (call : Request)

@[simp]
theorem refill_capacity (now : ℤ) :
    (refill int bucket now).capacity = bucket.capacity := rfl

@[simp]
theorem refill_refillRate (now : ℤ) :
    (refill int bucket now).refillRate = bucket.refillRate := rfl

@[simp]
theorem refill_lastRefill (now : ℤ) :
    (refill int bucket now).lastRefill = now := rfl

/-- A request reads the bucket only through its refilled state. -/
theorem request_congr {left right : TokenBucket}
    (heq : refill int left call.now = refill int right call.now) :
    request int left call = request int right call := by
  simp only [request, heq]

@[simp]
theorem request_capacity :
    (request int bucket call).2.capacity = bucket.capacity := by
  simp only [request]
  split <;> rfl

@[simp]
theorem request_refillRate :
    (request int bucket call).2.refillRate = bucket.refillRate := by
  simp only [request]
  split <;> rfl

@[simp]
theorem request_lastRefill :
    (request int bucket call).2.lastRefill = call.now := by
  simp only [request]
  split <;> rfl

end Step

/-! ## The rate bound -/

section RateBound

variable {bucket : TokenBucket} {call : Request} {calls : List Request}

/-- The readings of the clock made by the calls do not go backwards, and the
first one is not before `start`. -/
def ClockFrom (start : ℤ) (calls : List Request) : Prop :=
  (start :: calls.map Request.now).Pairwise (· ≤ ·)

theorem ClockFrom.head {start : ℤ} (hclock : ClockFrom start (call :: calls)) :
    start ≤ call.now :=
  List.rel_of_pairwise_cons hclock (by simp)

theorem ClockFrom.tail {start : ℤ} (hclock : ClockFrom start (call :: calls)) :
    ClockFrom call.now calls :=
  hclock.of_cons

theorem ClockFrom.take {start : ℤ} (done rest : List Request)
    (hclock : ClockFrom start (done ++ rest)) : ClockFrom start done := by
  refine List.Pairwise.sublist ?_ hclock
  simp

/-- The clock condition of a run gives that of each of its windows. -/
theorem ClockFrom.window {start : ℤ} {first last : Request}
    {before window rest : List Request}
    (hclock : ClockFrom start
      (before ++ first :: (window ++ last :: rest))) :
    ClockFrom first.now (window ++ [last]) := by
  simp only [ClockFrom, List.map_append, List.map_cons] at hclock ⊢
  have hafter := (List.pairwise_append.mp hclock.of_cons).2.1
  refine hafter.sublist ?_
  simp

@[simp]
theorem after_nil (int : ℤ → ℤ) (bucket : TokenBucket) :
    after int bucket [] = bucket := rfl

@[simp]
theorem after_cons (int : ℤ → ℤ) (bucket : TokenBucket) (call : Request)
    (calls : List Request) :
    after int bucket (call :: calls) =
      after int (request int bucket call).2 calls := rfl

theorem after_append (int : ℤ → ℤ) (bucket : TokenBucket)
    (first second : List Request) :
    after int bucket (first ++ second) =
      after int (after int bucket first) second := by
  simp [after]

@[simp]
theorem after_refillRate (int : ℤ → ℤ) (bucket : TokenBucket)
    (calls : List Request) :
    (after int bucket calls).refillRate = bucket.refillRate := by
  induction calls generalizing bucket with
  | nil => rfl
  | cons call calls ih =>
      rw [after_cons, ih, request_refillRate]

@[simp]
theorem after_snoc_lastRefill (int : ℤ → ℤ) (bucket : TokenBucket)
    (calls : List Request) (last : Request) :
    (after int bucket (calls ++ [last])).lastRefill = last.now := by
  rw [after_append]
  exact request_lastRefill int _ last

/-- The balance right after the refill, in exact arithmetic. -/
theorem refill_tokens (bucket : TokenBucket) (now : ℤ) :
    (refill exactInt bucket now).tokens =
      min bucket.capacity (bucket.tokens +
        wholeTokens exactInt bucket.refillRate bucket.lastRefill now) := rfl

/-- One request keeps the balance within `[0, capacity]`. -/
theorem request_tokens_bounds (hcapacity : 0 ≤ bucket.capacity)
    (hrate : 0 ≤ bucket.refillRate) (hclock : bucket.lastRefill ≤ call.now)
    (htokens : 0 ≤ bucket.tokens) (hcall : 0 ≤ call.tokens) :
    0 ≤ (request exactInt bucket call).2.tokens ∧
      (request exactInt bucket call).2.tokens ≤ bucket.capacity := by
  have hearned := wholeTokens_nonneg hrate hclock
  have hrefilled := refill_tokens bucket call.now
  by_cases hcovered : call.tokens ≤ (refill exactInt bucket call.now).tokens
  · simp only [request, hcovered, if_true, exactInt_apply]
    omega
  · simp only [request, hcovered, if_false]
    omega

/-- One request pays what it grants out of the balance and what was earned
since the previous request. -/
theorem request_granted_add_tokens_le :
    (if (request exactInt bucket call).1 then call.tokens else 0) +
        (request exactInt bucket call).2.tokens ≤
      bucket.tokens +
        wholeTokens exactInt bucket.refillRate bucket.lastRefill call.now := by
  have hrefilled := refill_tokens bucket call.now
  by_cases hcovered : call.tokens ≤ (refill exactInt bucket call.now).tokens
  · simp only [request, hcovered, if_true, exactInt_apply]
    omega
  · simp only [request, hcovered, if_false, Bool.false_eq_true]
    omega

/-- Every run keeps the balance within `[0, capacity]`. -/
theorem after_tokens_bounds (hcapacity : 0 ≤ bucket.capacity)
    (hrate : 0 ≤ bucket.refillRate)
    (hclock : ClockFrom bucket.lastRefill calls)
    (hcalls : ∀ call ∈ calls, 0 ≤ call.tokens)
    (htokens : 0 ≤ bucket.tokens ∧ bucket.tokens ≤ bucket.capacity) :
    0 ≤ (after exactInt bucket calls).tokens ∧
      (after exactInt bucket calls).tokens ≤ bucket.capacity := by
  induction calls generalizing bucket with
  | nil => exact htokens
  | cons call calls ih =>
      have hstep := request_tokens_bounds hcapacity hrate hclock.head
        htokens.1 (hcalls call (by simp))
      have hrest := @ih (request exactInt bucket call).2
        (by simpa using hcapacity) (by simpa using hrate)
        (by simpa using hclock.tail)
        (fun later hlater => hcalls later (by simp [hlater]))
        (by simpa using hstep)
      simpa using hrest

/-- The potential argument over a whole run: what was granted and what is left
is covered by the initial balance and the tokens earned over the interval. -/
theorem granted_add_tokens_le (hrate : 0 ≤ bucket.refillRate)
    (hclock : ClockFrom bucket.lastRefill calls) :
    bucket.lastRefill ≤ (after exactInt bucket calls).lastRefill ∧
      granted exactInt bucket calls + (after exactInt bucket calls).tokens ≤
        bucket.tokens +
          wholeTokens exactInt bucket.refillRate bucket.lastRefill
            (after exactInt bucket calls).lastRefill := by
  induction calls generalizing bucket with
  | nil =>
      have hearned := wholeTokens_nonneg hrate (le_refl bucket.lastRefill)
      refine ⟨le_refl _, ?_⟩
      simp only [granted, after_nil]
      omega
  | cons call calls ih =>
      obtain ⟨hlater, hrest⟩ := @ih
        (request exactInt bucket call).2
        (by simpa using hrate) (by simpa using hclock.tail)
      simp only [request_lastRefill, request_refillRate] at hlater hrest
      simp only [granted, after_cons]
      have hstep := @request_granted_add_tokens_le bucket call
      have hearned := wholeTokens_superadditive hrate hclock.head hlater
      exact ⟨hclock.head.trans hlater, by omega⟩

/-- With a balance that does not end below zero, what was granted up to `last`
is at most the initial balance and the tokens earned until `last`. -/
theorem granted_snoc_le {last : Request} (hrate : 0 ≤ bucket.refillRate)
    (hclock : ClockFrom bucket.lastRefill (calls ++ [last]))
    (hfinal : 0 ≤ (after exactInt bucket (calls ++ [last])).tokens) :
    granted exactInt bucket (calls ++ [last]) ≤
      bucket.tokens +
        bucket.refillRate * elapsedMs bucket.lastRefill last.now / 1000 := by
  obtain ⟨hlater, hpotential⟩ := granted_add_tokens_le hrate hclock
  rw [after_snoc_lastRefill] at hlater hpotential
  rw [wholeTokens_eq_ediv hrate hlater, mul_comm] at hpotential
  omega

/-- Over every run of non-negative requests under a clock that does not go
backwards: the balance stays within `[0, capacity]`; the tokens granted in a
window are at most the capacity plus the tokens earned since the request just
before the window; and the tokens granted since construction are at most the
tokens earned since construction.  Both bounds hold for elapsed times truncated
to milliseconds and amounts truncated to whole tokens. -/
theorem granted_window_le (capacity refillRate start : ℤ)
    (hcapacity : 0 ≤ capacity) (hrate : 0 ≤ refillRate)
    (calls : List Request) (hclock : ClockFrom start calls)
    (hcalls : ∀ call ∈ calls, 0 ≤ call.tokens) :
    (∀ done rest, calls = done ++ rest →
      0 ≤ (after exactInt (construct capacity refillRate start) done).tokens ∧
        (after exactInt (construct capacity refillRate start) done).tokens ≤
          capacity) ∧
      (∀ before first window last rest,
        calls = before ++ first :: (window ++ last :: rest) →
        granted exactInt
            (after exactInt (construct capacity refillRate start)
              (before ++ [first])) (window ++ [last]) ≤
          capacity + refillRate * elapsedMs first.now last.now / 1000) ∧
      ∀ window last rest, calls = window ++ last :: rest →
        granted exactInt (construct capacity refillRate start)
            (window ++ [last]) ≤
          refillRate * elapsedMs start last.now / 1000 := by
  have hbounds : ∀ done rest, calls = done ++ rest →
      0 ≤ (after exactInt (construct capacity refillRate start) done).tokens ∧
        (after exactInt (construct capacity refillRate start) done).tokens ≤
          capacity := by
    rintro done rest rfl
    exact @after_tokens_bounds (construct capacity refillRate start) done
      hcapacity hrate (hclock.take done rest)
      (fun call hcall => hcalls call (by simp [hcall]))
      ⟨le_refl _, hcapacity⟩
  refine ⟨hbounds, ?_, ?_⟩
  · rintro before first window last rest rfl
    have hbefore := hbounds (before ++ [first]) (window ++ last :: rest)
      (by simp)
    have hafter := hbounds ((before ++ [first]) ++ (window ++ [last])) rest
      (by simp)
    rw [after_append] at hafter
    have hgranted := granted_snoc_le (by simpa [construct] using hrate)
      (by simpa using hclock.window) hafter.1
    simp only [after_snoc_lastRefill, after_refillRate] at hgranted
    simp only [construct] at hbefore hgranted ⊢
    omega
  · rintro window last rest rfl
    have hafter := hbounds (window ++ [last]) rest (by simp)
    have hclock' : ClockFrom start (window ++ [last]) :=
      ClockFrom.take (window ++ [last]) rest (by simpa using hclock)
    have hgranted := @granted_snoc_le
      (construct capacity refillRate start) window last hrate hclock' hafter.1
    simpa [construct] using hgranted

/-- A bucket of ten tokens refilled at three per second, asked every 700 ms. -/
theorem granted_window_le_three_requests :
    granted exactInt
        (after exactInt (construct 10 3 0) [⟨700000000, 2⟩])
        [⟨1400000000, 1⟩, ⟨2100000000, 4⟩] ≤
      10 + 3 * elapsedMs 700000000 2100000000 / 1000 :=
  (granted_window_le 10 3 0 (by decide) (by decide)
    [⟨700000000, 2⟩, ⟨1400000000, 1⟩, ⟨2100000000, 4⟩]
    (by simp [ClockFrom]) (by simp)).2.1 [] ⟨700000000, 2⟩
      [⟨1400000000, 1⟩] ⟨2100000000, 4⟩ [] rfl

end RateBound

/-! ## Refill lost to requests that take nothing -/

section LostRefill

/-- In exact arithmetic a request at `middle` that takes nothing costs no token
at `now`: either the fractions dropped by the two truncations stay below one
token, or the truncated refills fill the bucket anyway. -/
def NoTokenLost (bucket : TokenBucket) (middle now : ℤ) : Prop :=
  lostFraction bucket.refillRate bucket.lastRefill middle now < 1000 ∨
    bucket.capacity ≤ bucket.tokens +
      elapsedMs bucket.lastRefill middle * bucket.refillRate / 1000 +
      elapsedMs middle now * bucket.refillRate / 1000

instance (bucket : TokenBucket) (middle now : ℤ) :
    Decidable (NoTokenLost bucket middle now) :=
  inferInstanceAs (Decidable (_ ∨ _))

/-- The same in 32-bit arithmetic.  From below the capacity the whole tokens of
the two pieces have to be those of the interval, unless both ways end at the
capacity; from a bucket that is full at `middle` the balances have to agree,
with the same exception. -/
def KeepsTokens (bucket : TokenBucket) (middle now : ℤ) : Prop :=
  let first := wholeTokens wrap32 bucket.refillRate bucket.lastRefill middle
  let second := wholeTokens wrap32 bucket.refillRate middle now
  let whole := wholeTokens wrap32 bucket.refillRate bucket.lastRefill now
  if wrap32 (bucket.tokens + first) ≤ bucket.capacity then
    first + second = whole ∨
      bucket.capacity ≤ wrap32 (bucket.tokens + first + second) ∧
        bucket.capacity ≤ wrap32 (bucket.tokens + whole)
  else
    wrap32 (bucket.capacity + second) = wrap32 (bucket.tokens + whole) ∨
      bucket.capacity ≤ wrap32 (bucket.capacity + second) ∧
        bucket.capacity ≤ wrap32 (bucket.tokens + whole)

instance (bucket : TokenBucket) (middle now : ℤ) :
    Decidable (KeepsTokens bucket middle now) :=
  inferInstanceAs (Decidable (ite _ (_ ∨ _) (_ ∨ _)))

/-- The thousandths of a token earned until `now`, and the balance that they
lead to, are of type `int`. -/
structure NoOverflow (bucket : TokenBucket) (now : ℤ) : Prop where
  product : elapsedMs bucket.lastRefill now * bucket.refillRate < 2 ^ 31
  capacity : -2 ^ 31 ≤ bucket.capacity
  tokens : -2 ^ 31 ≤ bucket.tokens
  sum : bucket.tokens +
    elapsedMs bucket.lastRefill now * bucket.refillRate / 1000 < 2 ^ 31

/-- A request that is denied or asks for nothing. -/
def Idle (bucket : TokenBucket) (call : Request) : Prop :=
  (request wrap32 bucket call).1 = false ∨ call.tokens = 0

variable {bucket : TokenBucket} {middle now : ℤ}

/-- The balance right after the refill, in 32-bit arithmetic. -/
theorem refill_wrap32_tokens (bucket : TokenBucket) (now : ℤ) :
    (refill wrap32 bucket now).tokens =
      min bucket.capacity (wrap32 (bucket.tokens +
        wholeTokens wrap32 bucket.refillRate bucket.lastRefill now)) := rfl

/-- A denied request, and a request of no tokens, leaves exactly the refilled
bucket. -/
theorem request_eq_refill (hcapacity : -2 ^ 31 ≤ bucket.capacity)
    {call : Request} (hidle : Idle bucket call) :
    (request wrap32 bucket call).2 = refill wrap32 bucket call.now := by
  have hlower : -2 ^ 31 ≤ (refill wrap32 bucket call.now).tokens :=
    le_min hcapacity (le_wrap32 _)
  have hupper : (refill wrap32 bucket call.now).tokens < 2 ^ 31 :=
    (min_le_right _ _).trans_lt (wrap32_lt _)
  rw [Idle] at hidle
  simp only [request] at hidle ⊢
  split at hidle
  · next hcovered =>
      rw [if_pos hcovered]
      have hzero : call.tokens = 0 := by simpa using hidle
      have hsame : wrap32 ((refill wrap32 bucket call.now).tokens -
          call.tokens) = (refill wrap32 bucket call.now).tokens := by
        rw [hzero, sub_zero]
        exact wrap32_eq_self hlower hupper
      rw [hsame]
  · next hcovered => rw [if_neg hcovered]

/-- Two numbers are cut off to the same one if they are equal or both beyond the
bound. -/
theorem min_eq_min_left_iff {bound left right : ℤ} :
    min bound left = min bound right ↔
      left = right ∨ bound ≤ left ∧ bound ≤ right := by
  omega

/-- Refilling twice in 32-bit arithmetic reaches the same balance as refilling
once precisely under `KeepsTokens`. -/
theorem refill_refill_wrap32_eq_iff (bucket : TokenBucket) (middle now : ℤ) :
    (refill wrap32 (refill wrap32 bucket middle) now).tokens =
        (refill wrap32 bucket now).tokens ↔
      KeepsTokens bucket middle now := by
  obtain ⟨hfirstLower, hfirstUpper⟩ := wholeTokens_wrap32_bounds
    bucket.refillRate bucket.lastRefill middle
  obtain ⟨hsecondLower, hsecondUpper⟩ :=
    wholeTokens_wrap32_bounds bucket.refillRate middle now
  obtain ⟨hwholeLower, hwholeUpper⟩ := wholeTokens_wrap32_bounds
    bucket.refillRate bucket.lastRefill now
  rw [refill_wrap32_tokens, refill_wrap32_tokens bucket now, KeepsTokens]
  simp only [refill_capacity, refill_refillRate, refill_lastRefill,
    refill_wrap32_tokens bucket middle, min_eq_min_left_iff]
  split_ifs with hbelow
  · rw [min_eq_right hbelow, wrap32_wrap32_add,
      wrap32_eq_wrap32_iff (by omega) (by omega), add_assoc, add_right_inj]
  · rw [min_eq_left (not_le.mp hbelow).le]

theorem refill_refill_wrap32_eq (hkeeps : KeepsTokens bucket middle now) :
    refill wrap32 (refill wrap32 bucket middle) now =
      refill wrap32 bucket now := by
  have htokens := (refill_refill_wrap32_eq_iff bucket middle now).mpr hkeeps
  exact TokenBucket.ext rfl rfl htokens rfl

/-- In exact arithmetic refilling twice reaches the same balance as refilling
once precisely when no token is lost in between. -/
theorem refill_refill_eq_iff (hrate : 0 < bucket.refillRate)
    (hfirst : bucket.lastRefill ≤ middle) (hsecond : middle ≤ now) :
    (refill exactInt (refill exactInt bucket middle) now).tokens =
        (refill exactInt bucket now).tokens ↔
      NoTokenLost bucket middle now := by
  have hsplit := wholeTokens_split hrate.le hfirst hsecond
  have hlost := lostFraction_nonneg hrate.le hfirst hsecond
  have hsecondEarned := wholeTokens_nonneg hrate.le hsecond
  rw [NoTokenLost, ← wholeTokens_eq_ediv hrate.le hfirst,
    ← wholeTokens_eq_ediv hrate.le hsecond]
  rw [refill_tokens, refill_tokens, refill_tokens]
  simp only [refill_capacity, refill_refillRate, refill_lastRefill]
  omega

/-- Without overflow the two conditions are one. -/
theorem keepsTokens_iff_noTokenLost (hrate : 0 < bucket.refillRate)
    (hfirst : bucket.lastRefill ≤ middle) (hsecond : middle ≤ now)
    (hfits : NoOverflow bucket now) :
    KeepsTokens bucket middle now ↔ NoTokenLost bucket middle now := by
  rw [← refill_refill_wrap32_eq_iff,
    ← refill_refill_eq_iff hrate hfirst hsecond]
  have hclock := hfirst.trans hsecond
  have hfirstEarned := wholeTokens_nonneg hrate.le hfirst
  have hsecondEarned := wholeTokens_nonneg hrate.le hsecond
  have hwhole := wholeTokens_superadditive hrate.le hfirst hsecond
  have hsum := hfits.sum
  have htokens := hfits.tokens
  have hcapacity := hfits.capacity
  rw [← wholeTokens_eq_ediv hrate.le hclock] at hsum
  have hfirstEq := wholeTokens_wrap32_eq hrate hfirst
    ((elapsedMs_mul_le_left hrate hfirst hsecond).trans_lt hfits.product)
  have hsecondEq := wholeTokens_wrap32_eq hrate hsecond
    ((elapsedMs_mul_le_right hrate hfirst hsecond).trans_lt hfits.product)
  have hwholeEq := wholeTokens_wrap32_eq hrate hclock hfits.product
  have hmiddle : refill wrap32 bucket middle =
      refill exactInt bucket middle := by
    refine TokenBucket.ext rfl rfl ?_ rfl
    rw [refill_wrap32_tokens, refill_tokens, hfirstEq,
      wrap32_eq_self (by omega) (by omega)]
  have hrefilled := refill_tokens bucket middle
  rw [hmiddle, refill_wrap32_tokens, refill_wrap32_tokens bucket now,
    refill_tokens _ now, refill_tokens bucket now]
  simp only [refill_capacity, refill_refillRate, refill_lastRefill]
  rw [hsecondEq, hwholeEq, wrap32_eq_self (by omega) (by omega),
    wrap32_eq_self (by omega) (by omega)]

/-- A request of a run together with whether it was inserted into the run. -/
structure MarkedRequest where
  call : Request
  inserted : Bool

def original (run : List MarkedRequest) : List Request :=
  (run.filter fun marked => !marked.inserted).map MarkedRequest.call

/-- The answers that the requests of the original run get in the run with the
inserted ones. -/
def originalAnswers : TokenBucket → List MarkedRequest → List Bool
  | _, [] => []
  | bucket, marked :: run =>
      let (answer, next) := request wrap32 bucket marked.call
      if marked.inserted then originalAnswers next run
      else answer :: originalAnswers next run

/-- Every inserted request takes nothing and costs no token at the time of the
next request of the original run. -/
def InsertedHarmless : TokenBucket → List MarkedRequest → Prop
  | _, [] => True
  | bucket, marked :: run =>
      (marked.inserted = true → Idle bucket marked.call ∧
        ∀ later ∈ (original run).head?,
          KeepsTokens bucket marked.call.now later.now) ∧
        InsertedHarmless (request wrap32 bucket marked.call).2 run

/-- Two buckets that agree at the next original request give the original
requests the same answers, with and without the inserted ones. -/
theorem originalAnswers_eq_of_agree {plain : TokenBucket}
    {run : List MarkedRequest} (hcapacity : -2 ^ 31 ≤ bucket.capacity)
    (hharmless : InsertedHarmless bucket run)
    (hagree : ∀ later ∈ (original run).head?,
      refill wrap32 bucket later.now = refill wrap32 plain later.now) :
    originalAnswers bucket run = answers wrap32 plain (original run) := by
  induction run generalizing bucket plain with
  | nil => rfl
  | cons marked run ih =>
      obtain ⟨hinserted, hrest⟩ := hharmless
      have hnextCapacity :
          -2 ^ 31 ≤ (request wrap32 bucket marked.call).2.capacity := by
        rwa [request_capacity]
      by_cases hmark : marked.inserted = true
      · -- The inserted request only refills, and that refill is not felt at
        -- the next original request.
        have horiginal : original (marked :: run) = original run := by
          simp [original, hmark]
        obtain ⟨hidle, hkeeps⟩ := hinserted hmark
        rw [horiginal] at hagree ⊢
        simp only [originalAnswers, hmark, if_true]
        refine ih hnextCapacity hrest fun later hlater => ?_
        rw [request_eq_refill hcapacity hidle,
          refill_refill_wrap32_eq (hkeeps later hlater)]
        exact hagree later hlater
      · have horiginal : original (marked :: run) =
            marked.call :: original run := by
          simp [original, hmark]
        rw [horiginal] at hagree ⊢
        have hsame := request_congr wrap32 marked.call
          (hagree marked.call (by simp))
        rw [hsame] at hnextCapacity hrest
        simp only [originalAnswers, hmark, answers, hsame, if_false,
          Bool.false_eq_true]
        rw [ih hnextCapacity hrest fun _ _ => rfl]

end LostRefill

end TokenBucket

end KataCpp
