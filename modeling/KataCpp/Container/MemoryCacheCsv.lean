import KataCpp.Container.MemoryCache
import KataCpp.Core.TextInput

/-!
# The memory cache on disk

`writeToCSV` appends one line for every entry of the cache: the time text of
the key, a comma, the value.  `loadFromCSV` reads a file line by line, splits
each line at its first comma and inserts the entry into both indexes.  Nothing
is escaped, so a value with a line break falls apart into several lines, and a
line whose value is empty is skipped by the reader.  All other caches are
restored.

The local time zone enters through `localtime` and `mktime`, and `get_time`
takes a time text apart.  The three are parameters here.
-/

namespace KataCpp

open Bytes TextInput

/-- The fields of `std::tm` that the time text shows. -/
structure Tm where
  tmYear : ℤ
  tmMon : ℕ
  tmMday : ℕ
  tmHour : ℕ
  tmMin : ℕ
  tmSec : ℕ
  deriving DecidableEq

def comma : UInt8 := 44

/-- A number below one hundred as two decimal digits. -/
def twoDigits (number : ℕ) : ByteString :=
  [(48 + number / 10 % 10).toUInt8, (48 + number % 10).toUInt8]

/-- `std::put_time(&tm, "%y%m%d_%H%M%S")`. -/
def putTime (tm : Tm) : ByteString :=
  twoDigits (tm.tmYear % 100).toNat ++ twoDigits (tm.tmMon + 1) ++
    twoDigits tm.tmMday ++ [95] ++ twoDigits tm.tmHour ++
    twoDigits tm.tmMin ++ twoDigits tm.tmSec

def timeToString (localtime : ℤ → Tm) (time : ℤ) : ByteString :=
  putTime (localtime time)

namespace MemoryCache

/-- The line that `appendCsv` and `writeToCSV` write for an entry. -/
def csvLine (localtime : ℤ → Tm) (entry : ℤ × ByteString) : ByteString :=
  timeToString localtime entry.1 ++ comma :: entry.2 ++ [newline]

/-- `MemoryCache::writeToCSV`: the file after the call, where `none` is a file
that cannot be opened. -/
def writeToCSV (localtime : ℤ → Tm) (memory : MemoryCache)
    (file : Option ByteString) : Option ByteString :=
  file.map (· ++ memory.cache.toList.flatMap (csvLine localtime))

/-- `cache[key] = value; reverseCache[value] = key`. -/
def store (memory : MemoryCache) (key : ℤ) (value : ByteString) : MemoryCache :=
  { memory with
    cache := memory.cache.insert key value
    reverseCache := memory.reverseCache.insert value key }

section Load

variable (getTime : ByteString → Tm) (mktime : Tm → ℤ)

/-- One pass through the loop of `loadFromCSV`. -/
def loadLine (memory : MemoryCache) (line : ByteString) : MemoryCache :=
  match getline comma line with
  | none => memory
  | some (timeStr, rest) =>
      match getline newline rest with
      | none => memory
      | some (value, _) => memory.store (mktime (getTime timeStr)) value

/-- `while (std::getline(file, line))`. -/
def loadLines (memory : MemoryCache) (input : ByteString) : MemoryCache :=
  match _hline : getline newline input with
  | none => memory
  | some (line, rest) =>
      loadLines (memory.loadLine getTime mktime line) rest
termination_by input.length
decreasing_by exact getline_length_lt _hline

/-- `MemoryCache::loadFromCSV` of a file that opens, or does not. -/
def loadFromCSV (memory : MemoryCache) : Option ByteString → MemoryCache
  | none => memory
  | some content => memory.loadLines getTime mktime content

end Load

theorem notMem_twoDigits (number : ℕ) :
    comma ∉ twoDigits number ∧ newline ∉ twoDigits number := by
  have hdigit : ∀ digit < 10,
      comma ≠ (48 + digit).toUInt8 ∧ newline ≠ (48 + digit).toUInt8 := by
    decide
  have htens := hdigit (number / 10 % 10) (Nat.mod_lt _ (by norm_num))
  have hunits := hdigit (number % 10) (Nat.mod_lt _ (by norm_num))
  simp only [twoDigits, List.mem_cons, List.not_mem_nil, or_false, not_or]
  exact ⟨⟨htens.1, hunits.1⟩, htens.2, hunits.2⟩

/-- A time text consists of digits and an underscore. -/
theorem notMem_putTime (tm : Tm) :
    comma ∉ putTime tm ∧ newline ∉ putTime tm := by
  have hunderscore : comma ≠ 95 ∧ newline ≠ 95 := by decide
  simp only [putTime, List.mem_append, notMem_twoDigits, List.mem_singleton,
    hunderscore, or_self, not_false_eq_true, and_self]

section RoundTrip

variable {localtime : ℤ → Tm} {getTime : ByteString → Tm} {mktime : Tm → ℤ}
variable {memory : MemoryCache}

/-- The first comma of a written line ends its time text, so commas in the
value do no harm. -/
theorem loadLine_record (tm : Tm) {value : ByteString} (hempty : value ≠ [])
    (hvalue : newline ∉ value) :
    memory.loadLine getTime mktime (putTime tm ++ comma :: value) =
      memory.store (mktime (getTime (putTime tm))) value := by
  rw [loadLine, getline_append (notMem_putTime tm).1]
  simp only [getline_of_notMem hvalue hempty]

theorem loadLines_nil : memory.loadLines getTime mktime [] = memory := by
  rw [loadLines]
  rfl

theorem loadLines_append {line : ByteString} (hline : newline ∉ line)
    (rest : ByteString) :
    memory.loadLines getTime mktime (line ++ newline :: rest) =
      (memory.loadLine getTime mktime line).loadLines getTime mktime rest := by
  rw [loadLines, getline_append hline]

/-- Loading written lines stores their entries one after another. -/
theorem loadLines_csvLines {entries : List (ℤ × ByteString)}
    (hvalues : ∀ entry ∈ entries, entry.2 ≠ [] ∧ newline ∉ entry.2)
    (hparsed : ∀ entry ∈ entries,
      mktime (getTime (timeToString localtime entry.1)) = entry.1) :
    memory.loadLines getTime mktime (entries.flatMap (csvLine localtime)) =
      entries.foldl (fun loaded entry => loaded.store entry.1 entry.2)
        memory := by
  induction entries generalizing memory with
  | nil => exact loadLines_nil
  | cons entry entries ih =>
      obtain ⟨hempty, hvalue⟩ := hvalues entry List.mem_cons_self
      have hkey := hparsed entry List.mem_cons_self
      have hline : newline ∉ timeToString localtime entry.1 ++
          comma :: entry.2 := by
        have htime := (notMem_putTime (localtime entry.1)).2
        have hcomma : newline ≠ comma := by decide
        simp only [List.mem_append, List.mem_cons, not_or]
        exact ⟨htime, hcomma, hvalue⟩
      rw [List.flatMap_cons, csvLine, List.append_assoc _ [newline],
        List.singleton_append, loadLines_append hline, timeToString,
        loadLine_record _ hempty hvalue, List.foldl_cons]
      rw [timeToString] at hkey
      rw [hkey]
      apply ih
      · intro later hlater
        exact hvalues later (List.mem_cons_of_mem _ hlater)
      · intro later hlater
        exact hparsed later (List.mem_cons_of_mem _ hlater)

theorem foldl_store_cache (entries : List (ℤ × ByteString)) :
    (entries.foldl (fun loaded entry => loaded.store entry.1 entry.2)
      memory).cache =
      entries.foldl (fun map entry => map.insert entry.1 entry.2)
        memory.cache := by
  induction entries generalizing memory with
  | nil => rfl
  | cons entry entries ih => exact ih

/-- A map is rebuilt by inserting its entries. -/
theorem foldl_insert_toList (map : Std.ExtTreeMap ℤ ByteString) :
    map.toList.foldl (fun built entry => built.insert entry.1 entry.2)
      (∅ : Std.ExtTreeMap ℤ ByteString) = map := by
  rw [← Std.ExtTreeMap.ofList_eq_foldl]
  apply Std.ExtTreeMap.ext_getElem?
  intro key
  cases hkey : map[key]? with
  | some value =>
      have hentry := Std.ExtTreeMap.mem_toList_iff_getElem?_eq_some.mpr hkey
      exact Std.ExtTreeMap.getElem?_ofList_of_mem
        Std.ReflCmp.compare_self
        Std.ExtTreeMap.distinct_keys_toList hentry
  | none =>
      have habsent : key ∉ map := by
        simp [Std.ExtTreeMap.mem_iff_isSome_getElem?, hkey]
      apply Std.ExtTreeMap.getElem?_ofList_of_contains_eq_false
      rwa [Std.ExtTreeMap.map_fst_toList_eq_keys, ← Bool.not_eq_true,
        List.contains_iff_mem, Std.ExtTreeMap.mem_keys]

/-- Whatever the cache holds, as long as its values are not empty and without
line breaks, it is restored from the file it was written to. -/
theorem loadFromCSV_writeToCSV (maxSize : ℕ)
    (hparsed : ∀ key ∈ memory.cache,
      mktime (getTime (timeToString localtime key)) = key)
    (hvalues : ∀ (key : ℤ) (value : ByteString),
      memory.cache[key]? = some value → value ≠ [] ∧ newline ∉ value) :
    ((construct maxSize).loadFromCSV getTime mktime
      (memory.writeToCSV localtime (some []))).cache = memory.cache := by
  have hentries : ∀ entry ∈ memory.cache.toList,
      memory.cache[entry.1]? = some entry.2 := by
    intro entry hentry
    exact Std.ExtTreeMap.mem_toList_iff_getElem?_eq_some.mp hentry
  rw [writeToCSV, Option.map_some, List.nil_append, loadFromCSV,
    loadLines_csvLines (fun entry hentry => hvalues _ _ (hentries entry hentry))
      ?_, foldl_store_cache]
  · exact foldl_insert_toList memory.cache
  · intro entry hentry
    apply hparsed
    rw [Std.ExtTreeMap.mem_iff_isSome_getElem?, hentries entry hentry]
    rfl

end RoundTrip

/-! The three library functions in UTC, for the times of January 1970. -/

def utcLocaltime (time : ℤ) : Tm :=
  ⟨70, 0, (time / 86400 + 1).toNat, (time / 3600 % 24).toNat,
    (time / 60 % 60).toNat, (time % 60).toNat⟩

def utcGetTime (text : ByteString) : Tm :=
  let digit index := (text.getD index 48).toNat - 48
  let number index := 10 * digit index + digit (index + 1)
  ⟨number 0, number 2 - 1, number 4, number 7, number 9, number 11⟩

def utcMktime (tm : Tm) : ℤ :=
  ((tm.tmMday - 1) * 24 + tm.tmHour) * 3600 + tm.tmMin * 60 + tm.tmSec

/-- A cache with one entry, made at the epoch. -/
def singleEntry (value : ByteString) : MemoryCache :=
  (construct 1).store 0 value

/-- A comma in a value survives the round trip. -/
theorem loadFromCSV_writeToCSV_comma :
    ((construct 1).loadFromCSV utcGetTime utcMktime
      ((singleEntry (ascii "a,b")).writeToCSV utcLocaltime (some []))).cache =
      (singleEntry (ascii "a,b")).cache := by
  apply loadFromCSV_writeToCSV 1
  · intro key hkey
    obtain rfl : 0 = key := by
      simpa [singleEntry, store, construct] using hkey
    decide
  · intro key value hvalue
    simp only [singleEntry, store, construct] at hvalue
    rw [Std.ExtTreeMap.getElem?_insert] at hvalue
    split at hvalue
    · obtain rfl : ascii "a,b" = value := by simpa using hvalue
      decide
    · simp at hvalue

theorem writeToCSV_singleEntry (value : ByteString) :
    (singleEntry value).writeToCSV utcLocaltime (some []) =
      some (ascii "700101_000000," ++ value ++ [newline]) := by
  have hentries : (singleEntry value).cache.toList = [(0, value)] := rfl
  have htime : timeToString utcLocaltime 0 ++ [comma] =
      ascii "700101_000000," := by decide
  rw [writeToCSV, Option.map_some, List.nil_append, hentries,
    List.flatMap_singleton, csvLine, ← htime, List.append_assoc _ [comma],
    List.singleton_append]

/-- The value `"a\nb"` comes back as `"a"`, and an empty value does not come
back. -/
theorem csv_drops_line_break_and_empty :
    utcMktime (utcGetTime (timeToString utcLocaltime 0)) = 0 ∧
      ((construct 1).loadFromCSV utcGetTime utcMktime
        ((singleEntry (ascii "a\nb")).writeToCSV utcLocaltime
          (some []))).cache ≠ (singleEntry (ascii "a\nb")).cache ∧
      ((construct 1).loadFromCSV utcGetTime utcMktime
        ((singleEntry []).writeToCSV utcLocaltime (some []))).cache ≠
        (singleEntry []).cache := by
  refine ⟨by decide, ?_, ?_⟩
  · have hfile : (singleEntry (ascii "a\nb")).writeToCSV utcLocaltime
        (some []) = some (ascii "700101_000000,a" ++
          newline :: (ascii "b" ++ [newline])) :=
      writeToCSV_singleEntry _
    have hfirst : (construct 1).loadLine utcGetTime utcMktime
        (ascii "700101_000000,a") = singleEntry (ascii "a") := rfl
    have hsecond : (singleEntry (ascii "a")).loadLine utcGetTime utcMktime
        (ascii "b") = singleEntry (ascii "a") := rfl
    rw [hfile, loadFromCSV, loadLines_append (by decide), hfirst,
      loadLines_append (by decide), hsecond, loadLines_nil]
    intro hcache
    have hvalue := congrArg (·[(0 : ℤ)]?) hcache
    exact absurd hvalue (by decide)
  · have hfile : (singleEntry []).writeToCSV utcLocaltime (some []) =
        some (ascii "700101_000000," ++ newline :: []) :=
      writeToCSV_singleEntry _
    have hskipped : (construct 1).loadLine utcGetTime utcMktime
        (ascii "700101_000000,") = construct 1 := rfl
    rw [hfile, loadFromCSV, loadLines_append (by decide), hskipped,
      loadLines_nil]
    intro hcache
    have hvalue := congrArg (·[(0 : ℤ)]?) hcache
    exact absurd hvalue (by decide)

end MemoryCache

end KataCpp
