import KataCpp.Core.Bytes
import KataCpp.Core.TransitionSystem

/-!
# The memory cache

`MemoryCache` keeps two ordered maps: `cache` from the second of insertion to
the value, and `reverseCache` from the value to that second.  An insert into a
full cache erases the oldest entry of `cache` and then erases the value read
back through `cache[oldestKey]` from `reverseCache`.  Subscripting a
`std::map` with an absent key inserts the key with an empty value, so the
eviction puts the oldest key back, with an empty value, and erases the empty
value instead of the evicted one from `reverseCache`.

The two results say what that leaves of the cache's contract: its size is the
number of distinct seconds in which something was inserted, so the bound
`maxSize` holds exactly for runs with at most `maxSize` such seconds; and the
two indexes keep agreeing exactly along the runs in which no insert rewrites a
key that `reverseCache` still lists for another value.
-/

namespace KataCpp

open Bytes TransitionSystem

/-- One entry as it is handed to `appendCsv`. -/
structure CacheEntry where
  key : ℤ
  value : ByteString
  deriving DecidableEq

structure MemoryCache where
  cache : Std.ExtTreeMap ℤ ByteString
  reverseCache : Std.ExtTreeMap ByteString ℤ
  maxSize : ℕ

namespace MemoryCache

def construct (maxSize : ℕ) : MemoryCache :=
  { cache := ∅, reverseCache := ∅, maxSize }

/-- `map[key]` of a `std::map`: the value found, or an empty one that is
inserted under the key. -/
def subscript (map : Std.ExtTreeMap ℤ ByteString) (key : ℤ) :
    ByteString × Std.ExtTreeMap ℤ ByteString :=
  match map[key]? with
  | some value => (value, map)
  | none => ([], map.insert key [])

/-- `cache.begin()->first`, which does not exist in an empty map. -/
def oldestKey? (memory : MemoryCache) : Option ℤ :=
  memory.cache.toList.head?.map Prod.fst

/-- `cache.size() >= maxSize`. -/
def isFull (memory : MemoryCache) : Bool :=
  memory.maxSize ≤ memory.cache.size

/-- The eviction of `insert`; `none` is the undefined dereference of `begin()`
of an empty map.  The key read through the reference `oldestKey` after the
erase is taken to be the erased key. -/
def evictOldest (memory : MemoryCache) : Option MemoryCache :=
  memory.oldestKey?.map fun oldestKey =>
    let erased := memory.cache.erase oldestKey
    let (value, cache) := subscript erased oldestKey
    { memory with cache, reverseCache := memory.reverseCache.erase value }

/-- `MemoryCache::insert` at clock reading `now`, with the entry it flushes to
the CSV file. -/
protected def insert (memory : MemoryCache) (now : ℤ) (value : ByteString) :
    Option (CacheEntry × MemoryCache) :=
  let evicted := if memory.isFull then memory.evictOldest else some memory
  evicted.map fun current =>
    (⟨now, value⟩,
      { current with
        cache := current.cache.insert now value
        reverseCache := current.reverseCache.insert value now })

def searchByKey (memory : MemoryCache) (key : ℤ) : ByteString :=
  match memory.cache[key]? with
  | some value => value
  | none => ascii "Key not found"

def searchByValue (memory : MemoryCache) (value : ByteString) : ℤ :=
  match memory.reverseCache[value]? with
  | some key => key
  | none => -1

/-- A call of `insert`: the clock reading it makes and its argument. -/
abbrev Call := ℤ × ByteString

/-- One insert, atomic under the mutex. -/
def step (memory : MemoryCache) (call : Call) : Option MemoryCache :=
  (memory.insert call.1 call.2).map Prod.snd

section Step

variable {memory next : MemoryCache} {call : Call}

/-- In a cache of positive capacity an insert is always defined. -/
theorem oldestKey?_isSome_of_isFull (hmaxSize : 1 ≤ memory.maxSize)
    (hfull : memory.isFull = true) : memory.oldestKey?.isSome := by
  have hsize : 1 ≤ memory.cache.toList.length := by
    rw [Std.ExtTreeMap.length_toList]
    exact hmaxSize.trans (by simpa [isFull] using hfull)
  cases hlist : memory.cache.toList with
  | nil => simp [hlist] at hsize
  | cons entry rest => simp [oldestKey?, hlist]

theorem oldestKey?_mem {key : ℤ} (hkey : memory.oldestKey? = some key) :
    key ∈ memory.cache := by
  simp only [oldestKey?, Option.map_eq_some_iff] at hkey
  obtain ⟨⟨found, value⟩, hhead, rfl⟩ := hkey
  have hmem := List.mem_of_mem_head? hhead
  rw [Std.ExtTreeMap.mem_toList_iff_getElem?_eq_some] at hmem
  exact Std.ExtTreeMap.mem_iff_isSome_getElem?.mpr (by simp [hmem])

/-- The eviction leaves the oldest key in the cache, with an empty value, and
removes the empty value from the reverse index. -/
theorem evictOldest_eq_some {evicted : MemoryCache}
    (hevict : memory.evictOldest = some evicted) :
    ∃ oldest, memory.oldestKey? = some oldest ∧
      evicted = { memory with
        cache := (memory.cache.erase oldest).insert oldest []
        reverseCache := memory.reverseCache.erase [] } := by
  simp only [evictOldest, Option.map_eq_some_iff] at hevict
  obtain ⟨oldest, holdest, rfl⟩ := hevict
  exact ⟨oldest, holdest, by simp [subscript]⟩

/-- Everything one insert does to the two indexes: it writes its own entry,
and on a full cache it also blanks the entry of the oldest key and forgets the
empty value. -/
theorem step_eq_some (hstep : memory.step call = some next) :
    next.maxSize = memory.maxSize ∧
      (∀ key, next.cache[key]? =
        if call.1 = key then some call.2
        else if memory.isFull ∧ memory.oldestKey? = some key then some []
        else memory.cache[key]?) ∧
      ∀ value, next.reverseCache[value]? =
        if call.2 = value then some call.1
        else if memory.isFull ∧ value = [] then none
        else memory.reverseCache[value]? := by
  simp only [step, MemoryCache.insert, Option.map_map, Option.map_eq_some_iff,
    Function.comp_apply] at hstep
  obtain ⟨current, hcurrent, rfl⟩ := hstep
  by_cases hfull : memory.isFull = true
  · rw [if_pos hfull] at hcurrent
    obtain ⟨oldest, holdest, rfl⟩ := evictOldest_eq_some hcurrent
    refine ⟨rfl, fun key => ?_, fun value => ?_⟩
    · simp only [Std.ExtTreeMap.getElem?_insert, Std.compare_eq_iff_eq,
        Std.ExtTreeMap.getElem?_erase, hfull, holdest, Option.some.injEq,
        true_and]
      by_cases hkey : oldest = key <;> simp [hkey]
    · simp only [Std.ExtTreeMap.getElem?_insert, Std.compare_eq_iff_eq,
        Std.ExtTreeMap.getElem?_erase, hfull, true_and, eq_comm (a := value)]
  · rw [if_neg hfull, Option.some.injEq] at hcurrent
    subst hcurrent
    refine ⟨rfl, fun key => ?_, fun value => ?_⟩ <;>
      simp [Std.ExtTreeMap.getElem?_insert, hfull]

/-- With a positive capacity no insert dereferences `begin()` of an empty
map. -/
theorem step_isSome (hmaxSize : 1 ≤ memory.maxSize) (call : Call) :
    ∃ next, memory.step call = some next := by
  by_cases hfull : memory.isFull = true
  · obtain ⟨oldest, holdest⟩ := Option.isSome_iff_exists.mp
      (oldestKey?_isSome_of_isFull hmaxSize hfull)
    simp [step, MemoryCache.insert, hfull, evictOldest, holdest]
  · simp [step, MemoryCache.insert, hfull]

end Step

/-- Every sequence of inserts into a cache of positive capacity runs to its
end. -/
theorem run_step_isSome {memory : MemoryCache} (hmaxSize : 1 ≤ memory.maxSize)
    (calls : List Call) : ∃ final, run step memory calls = some final := by
  induction calls generalizing memory with
  | nil => exact ⟨memory, rfl⟩
  | cons call calls ih =>
      obtain ⟨next, hnext⟩ := step_isSome hmaxSize call
      obtain ⟨hsame, -, -⟩ := step_eq_some hnext
      obtain ⟨final, hfinal⟩ := @ih next (by omega)
      exact ⟨final, run_cons_eq_some.mpr ⟨next, hnext, hfinal⟩⟩

section Size

variable {memory next : MemoryCache}

/-- The cache holds exactly the given keys. -/
def HasKeys (memory : MemoryCache) (keys : Finset ℤ) : Prop :=
  ∀ key, key ∈ memory.cache ↔ key ∈ keys

theorem HasKeys.size {keys : Finset ℤ} (hkeys : memory.HasKeys keys) :
    memory.cache.size = keys.card := by
  have hset : memory.cache.keys.toFinset = keys := by
    ext key
    rw [List.mem_toFinset, Std.ExtTreeMap.mem_keys]
    exact hkeys key
  rw [← hset, List.toFinset_card_of_nodup Std.ExtTreeMap.nodup_keys,
    Std.ExtTreeMap.length_keys]

/-- An insert adds its key and, full or not, loses none. -/
theorem HasKeys.step {keys : Finset ℤ} {call : Call}
    (hkeys : memory.HasKeys keys) (hstep : memory.step call = some next) :
    next.HasKeys (insert call.1 keys) := by
  obtain ⟨-, hcache, -⟩ := step_eq_some hstep
  intro key
  rw [Finset.mem_insert, ← hkeys key, Std.ExtTreeMap.mem_iff_isSome_getElem?,
    hcache key]
  by_cases hnow : call.1 = key
  · simp [hnow]
  · by_cases hevicted : memory.isFull ∧ memory.oldestKey? = some key
    · simp [hnow, hevicted, oldestKey?_mem hevicted.2]
    · simp [hnow, hevicted, Ne.symm hnow]

theorem always_size_le_iff {keys : Finset ℤ}
    (hmaxSize : 1 ≤ memory.maxSize) (hkeys : memory.HasKeys keys)
    (calls : List Call) :
    Always MemoryCache.step
        (fun state => state.cache.size ≤ state.maxSize) memory calls ↔
      (keys ∪ (calls.map Prod.fst).toFinset).card ≤ memory.maxSize := by
  induction calls generalizing memory keys with
  | nil => simp [Always, hkeys.size]
  | cons call calls ih =>
      obtain ⟨next, hnext⟩ := step_isSome hmaxSize call
      obtain ⟨hsame, -, -⟩ := step_eq_some hnext
      have hrest := @ih next _ (by omega) (hkeys.step hnext)
      have hunion : insert call.1 keys ∪ (calls.map Prod.fst).toFinset =
          keys ∪ ((call :: calls).map Prod.fst).toFinset := by
        ext key
        simp
      rw [hunion, hsame] at hrest
      simp only [Always, hnext, Option.some.injEq, forall_eq', hrest,
        hkeys.size]
      constructor
      · exact fun h => h.2
      · exact fun h => ⟨(Finset.card_le_card Finset.subset_union_left).trans h,
          h⟩

/-- Starting from the empty cache, the number of entries stays within
`maxSize` after every insert precisely when the inserts happen in at most
`maxSize` different seconds. -/
theorem size_le_maxSize_iff (maxSize : ℕ) (hmaxSize : 1 ≤ maxSize)
    (calls : List Call) :
    (∃ final, run MemoryCache.step (construct maxSize) calls = some final) ∧
      (Always MemoryCache.step
          (fun memory => memory.cache.size ≤ memory.maxSize)
          (construct maxSize) calls ↔
        (calls.map Prod.fst).toFinset.card ≤ maxSize) := by
  have hempty : (construct maxSize).HasKeys ∅ := by
    intro key
    simp [construct]
  refine ⟨run_step_isSome hmaxSize calls, ?_⟩
  rw [always_size_le_iff hmaxSize hempty calls, Finset.empty_union]
  rfl

/-- Two inserts in two different seconds into a cache of capacity two. -/
theorem size_le_maxSize_iff_two_seconds :
    Always MemoryCache.step (fun memory => memory.cache.size ≤ memory.maxSize)
      (construct 2) [(100, ascii "John"), (101, ascii "25")] :=
  (size_le_maxSize_iff 2 (by decide)
    [(100, ascii "John"), (101, ascii "25")]).2.mpr (by decide)

/-- The second insert into a cache of capacity one leaves two entries. -/
theorem size_exceeds_maxSize :
    ¬ Always MemoryCache.step
      (fun memory => memory.cache.size ≤ memory.maxSize)
      (construct 1) [(100, ascii "John"), (101, ascii "25")] := by
  intro halways
  have hsizes : (run MemoryCache.step (construct 1)
      [(100, ascii "John"), (101, ascii "25")]).map
        (fun memory => (memory.cache.size, memory.maxSize)) = some (2, 1) := by
    decide
  obtain ⟨final, hfinal, hpair⟩ := Option.map_eq_some_iff.mp hsizes
  have hbound := halways.final hfinal
  simp only [Prod.mk.injEq] at hpair
  omega

end Size

/-! ## Agreement of the two indexes -/

section Agreement

/-- Whenever `searchByValue` finds a key, `searchByKey` finds the value. -/
def IndexesAgree (memory : MemoryCache) : Prop :=
  ∀ value, memory.searchByValue value ≠ -1 →
    memory.searchByKey (memory.searchByValue value) = value

/-- No other value is listed in `reverseCache` under a key whose entry the
insert rewrites: its own key, or on a full cache the oldest key.  The empty
value is exempt on a full cache, because the eviction forgets it. -/
def RewritesNoListedKey (memory : MemoryCache) (call : Call) : Prop :=
  ∀ value key, memory.reverseCache[value]? = some key → key ≠ -1 →
    value ≠ call.2 → ¬ (memory.isFull ∧ value = []) →
      key ≠ call.1 ∧ ¬ (memory.isFull ∧ memory.oldestKey? = some key)

variable {memory next : MemoryCache} {call : Call}

theorem searchByValue_eq_iff {value : ByteString} {key : ℤ}
    (hkey : key ≠ -1) :
    memory.searchByValue value = key ↔
      memory.reverseCache[value]? = some key := by
  simp only [searchByValue]
  cases hfound : memory.reverseCache[value]? with
  | none => simpa using hkey.symm
  | some found => simp

theorem indexesAgree_iff :
    memory.IndexesAgree ↔
      ∀ value key, memory.reverseCache[value]? = some key → key ≠ -1 →
        memory.searchByKey key = value := by
  constructor
  · intro hagree value key hlisted hkey
    have hsearch := (searchByValue_eq_iff hkey).mpr hlisted
    rw [← hsearch] at hkey ⊢
    exact hagree value hkey
  · intro hagree value hkey
    exact hagree value _ ((searchByValue_eq_iff hkey).mp rfl) hkey

/-- From agreeing indexes, an insert leads to agreeing indexes precisely when
it rewrites no key that is listed for another value. -/
theorem indexesAgree_step_iff (hagree : memory.IndexesAgree)
    (hstep : memory.step call = some next) :
    next.IndexesAgree ↔ memory.RewritesNoListedKey call := by
  obtain ⟨-, hcache, hreverse⟩ := step_eq_some hstep
  rw [indexesAgree_iff] at hagree ⊢
  constructor
  · intro hnext value key hlisted hkey hother hkept
    have hfound := hnext value key
      (by rw [hreverse, if_neg (Ne.symm hother), if_neg hkept, hlisted]) hkey
    simp only [searchByKey, hcache key] at hfound
    refine ⟨fun hown => ?_, fun hevicted => ?_⟩
    · rw [if_pos hown.symm] at hfound
      exact hother hfound.symm
    · by_cases hown : call.1 = key
      · rw [if_pos hown] at hfound
        exact hother hfound.symm
      · rw [if_neg hown, if_pos hevicted] at hfound
        exact hkept ⟨hevicted.1, hfound.symm⟩
  · intro hguard value key hlisted hkey
    rw [hreverse value] at hlisted
    simp only [searchByKey, hcache key]
    by_cases hother : call.2 = value
    · rw [if_pos hother, Option.some.injEq] at hlisted
      rw [if_pos hlisted]
      exact hother
    · rw [if_neg hother] at hlisted
      by_cases hkept : memory.isFull ∧ value = []
      · simp [if_pos hkept] at hlisted
      · rw [if_neg hkept] at hlisted
        obtain ⟨hown, hevicted⟩ :=
          hguard value key hlisted hkey (Ne.symm hother) hkept
        rw [if_neg (Ne.symm hown), if_neg hevicted]
        exact hagree value key hlisted hkey

/-- Along every run from the empty cache, the indexes agree in all states
reached precisely when no insert of the run rewrites a key that is still
listed for another value. -/
theorem indexesAgree_iff_rewritesNoListedKey (maxSize : ℕ)
    (hmaxSize : 1 ≤ maxSize) (calls : List Call) :
    (∃ final, run MemoryCache.step (construct maxSize) calls = some final) ∧
      (Always MemoryCache.step IndexesAgree (construct maxSize) calls ↔
        Meets MemoryCache.step RewritesNoListedKey
          (construct maxSize) calls) := by
  refine ⟨run_step_isSome hmaxSize calls, ?_⟩
  exact always_iff_meets (fun _ => True)
    (fun _ _ _ _ _ => trivial)
    (fun _ _ _ _ hagree hstep => indexesAgree_step_iff hagree hstep)
    trivial (by simp [IndexesAgree, searchByValue, construct]) calls

/-- Inserts of different values in different seconds that never fill the cache
rewrite nothing. -/
theorem indexesAgree_iff_rewritesNoListedKey_two_seconds :
    Always MemoryCache.step IndexesAgree (construct 3)
      [(100, ascii "John"), (101, ascii "25")] := by
  refine (indexesAgree_iff_rewritesNoListedKey 3 (by decide)
    [(100, ascii "John"), (101, ascii "25")]).2.mpr ?_
  intro first hfirst
  obtain ⟨-, -, hreverse⟩ := step_eq_some hfirst
  refine ⟨by simp [RewritesNoListedKey, construct], fun second _ => ?_⟩
  refine ⟨?_, trivial⟩
  intro value key hlisted hkey hother hkept
  have hfull : first.isFull = false := by
    have hvalue : ((construct 3).step (100, ascii "John")).map isFull =
        some false := by
      decide
    simpa [hfirst] using hvalue
  rw [hreverse] at hlisted
  by_cases hjohn : ascii "John" = value
  · rw [if_pos hjohn, Option.some.injEq] at hlisted
    simp [hfull, ← hlisted]
  · simp [hjohn, construct] at hlisted

/-- Two values inserted in the same second share one key: the first is still
found by value, but its key leads to the second. -/
theorem indexes_disagree :
    ¬ Always MemoryCache.step IndexesAgree (construct 2)
      [(100, ascii "John"), (100, ascii "25")] := by
  intro halways
  have hsearch : (run MemoryCache.step (construct 2)
      [(100, ascii "John"), (100, ascii "25")]).map
        (fun memory => (memory.searchByValue (ascii "John"),
          memory.searchByKey (memory.searchByValue (ascii "John")))) =
      some (100, ascii "25") := by
    decide
  obtain ⟨final, hfinal, hpair⟩ := Option.map_eq_some_iff.mp hsearch
  have hagree := halways.final hfinal (ascii "John")
  simp only [Prod.mk.injEq] at hpair
  rw [hpair.2, hpair.1] at hagree
  exact absurd (hagree (by decide)) (by decide)

end Agreement

end MemoryCache

end KataCpp
