import Mathlib

/-!
# The time range queue

`TimeRangeQueue` keeps the most recent pushes: at most `max_length` of them,
and none that is `time_range` seconds old or older at the time of the last
push.  The code drops old items from the front before it appends and one more
item from the front if the queue has become too long.

What the queue is for is said by `IsLongestSuffix`: its content is the longest
suffix of the push history that is short and young enough.  The clock never
goes backwards, so an item that has once become too old stays too old, and
dropping it early loses nothing.
-/

namespace KataCpp

section LongestSuffix

variable {α : Type*}

/-- `suffix` is the longest suffix of `history` that has the property. -/
structure IsLongestSuffix (property : List α → Prop)
    (history suffix : List α) : Prop where
  isSuffix : suffix <:+ history
  holds : property suffix
  longest : ∀ other, other <:+ history → property other →
    other.length ≤ suffix.length

/-- There is at most one longest suffix. -/
theorem IsLongestSuffix.unique {property : List α → Prop}
    {history left right : List α}
    (hleft : IsLongestSuffix property history left)
    (hright : IsLongestSuffix property history right) : left = right := by
  have hlength := hleft.longest right hright.isSuffix hright.holds
  have hsuffix : left <:+ right := by
    apply List.suffix_of_suffix_length_le hleft.isSuffix hright.isSuffix
    exact hright.longest left hleft.isSuffix hleft.holds
  exact hsuffix.eq_of_length_le hlength

/-- A suffix in which nothing is dropped survives the dropping. -/
theorem suffix_dropWhile {list other : List α} {drops : α → Bool}
    (hsuffix : other <:+ list) (hother : ∀ item ∈ other, drops item = false) :
    other <:+ list.dropWhile drops := by
  induction list with
  | nil => simpa using hsuffix
  | cons item list ih =>
      by_cases hitem : drops item = true
      · rw [List.dropWhile_cons_of_pos hitem]
        rcases List.suffix_cons_iff.mp hsuffix with rfl | hrest
        · have hkept := hother item List.mem_cons_self
          rw [hitem] at hkept
          contradiction
        · exact ih hrest
      · rw [List.dropWhile_cons_of_neg hitem]
        exact hsuffix

end LongestSuffix

/-- A pushed value with the time of its push. -/
abbrev TimedItem := ℤ × ℤ

structure TimeRangeQueue where
  q : List TimedItem
  maxLength : ℕ
  timeRange : ℤ

namespace TimeRangeQueue

def construct (length : ℕ) (range : ℤ) : TimeRangeQueue :=
  { q := [], maxLength := length, timeRange := range }

/-- The removal of the oldest item if the queue is full. -/
def popOldest (maxLength : ℕ) (items : List TimedItem) : List TimedItem :=
  if items.length > maxLength then items.tail else items

/-- `TimeRangeQueue::push` at clock reading `currentTime`. -/
def push (queue : TimeRangeQueue) (data currentTime : ℤ) : TimeRangeQueue :=
  let live := queue.q.dropWhile fun item =>
    currentTime - item.2 ≥ queue.timeRange
  { queue with q := popOldest queue.maxLength (live ++ [(data, currentTime)]) }

/-- The loop of `getRange` over the items of the queue. -/
def collectRange (startTime endTime : ℤ) :
    List TimedItem → List ℤ → List ℤ
  | [], rangeList => rangeList
  | item :: rest, rangeList =>
      if item.2 ≥ startTime ∧ item.2 ≤ endTime then
        collectRange startTime endTime rest (rangeList ++ [item.1])
      else
        collectRange startTime endTime rest rangeList

/-- `TimeRangeQueue::getRange` at clock reading `currentTime`. -/
def getRange (queue : TimeRangeQueue) (rangeStart rangeEnd currentTime : ℤ) :
    List ℤ :=
  collectRange (currentTime - rangeStart) (currentTime - rangeEnd) queue.q []

def pushAll (queue : TimeRangeQueue) (history : List TimedItem) :
    TimeRangeQueue :=
  history.foldl (fun current item => current.push item.1 item.2) queue

/-- At most `maxLength` items, all of an age below `timeRange`. -/
def Live (maxLength : ℕ) (timeRange now : ℤ) (items : List TimedItem) : Prop :=
  items.length ≤ maxLength ∧ ∀ item ∈ items, now - item.2 < timeRange

variable {queue : TimeRangeQueue} {history : List TimedItem}

theorem pushAll_concat (item : TimedItem) :
    queue.pushAll (history ++ [item]) =
      (queue.pushAll history).push item.1 item.2 := by
  simp [pushAll]

theorem pushAll_maxLength :
    (queue.pushAll history).maxLength = queue.maxLength := by
  induction history generalizing queue with
  | nil => rfl
  | cons item history ih => exact ih

theorem pushAll_timeRange :
    (queue.pushAll history).timeRange = queue.timeRange := by
  induction history generalizing queue with
  | nil => rfl
  | cons item history ih => exact ih

theorem collectRange_eq (startTime endTime : ℤ) (items : List TimedItem)
    (rangeList : List ℤ) :
    collectRange startTime endTime items rangeList =
      rangeList ++ (items.filter fun item =>
        startTime ≤ item.2 ∧ item.2 ≤ endTime).map Prod.fst := by
  induction items generalizing rangeList with
  | nil => simp [collectRange]
  | cons item items ih =>
      rw [collectRange]
      by_cases hitem : item.2 ≥ startTime ∧ item.2 ≤ endTime
      · rw [if_pos hitem, ih]
        simp [hitem.1, hitem.2]
      · rw [if_neg hitem, ih, List.filter_cons_of_neg (by simpa using hitem)]

/-- The content is a suffix of the history, no longer than allowed, and at
least as long as every suffix that can be live now or later. -/
structure Keeps (queue : TimeRangeQueue) (history : List TimedItem) :
    Prop where
  isSuffix : queue.q <:+ history
  length_le : queue.q.length ≤ queue.maxLength
  longest : ∀ now other, (∀ item ∈ history, item.2 ≤ now) →
    other <:+ history → Live queue.maxLength queue.timeRange now other →
    other.length ≤ queue.q.length

theorem keeps_construct (length : ℕ) (range : ℤ) :
    (construct length range).Keeps [] where
  isSuffix := List.suffix_rfl
  length_le := Nat.zero_le _
  longest := by
    intro now other _ hsuffix _
    exact hsuffix.length_le

/-- What is live at a later time was live before. -/
theorem Live.earlier {maxLength : ℕ} {timeRange now later : ℤ}
    {items : List TimedItem} (hlive : Live maxLength timeRange later items)
    (hnow : now ≤ later) : Live maxLength timeRange now items := by
  refine ⟨hlive.1, fun item hitem => ?_⟩
  have hage := hlive.2 item hitem
  omega

/-- A queue that is the longest live suffix now keeps all that can be live
later. -/
theorem keeps_of_isLongestSuffix {now : ℤ} (last : TimedItem)
    (hlongest : IsLongestSuffix (Live queue.maxLength queue.timeRange now)
      history queue.q)
    (hlast : last ∈ history) (hnow : last.2 = now) : queue.Keeps history where
  isSuffix := hlongest.isSuffix
  length_le := hlongest.holds.1
  longest := by
    intro later other hlater hsuffix hlive
    have hpassed : now ≤ later := hnow ▸ hlater last hlast
    exact hlongest.longest other hsuffix (hlive.earlier hpassed)

/-- In a sorted list the items after the dropped ones are all young. -/
theorem dropWhile_young {items : List TimedItem} {now range : ℤ}
    (hsorted : items.Pairwise fun left right => left.2 ≤ right.2) :
    ∀ item ∈ items.dropWhile (fun item => now - item.2 ≥ range),
      now - item.2 < range := by
  induction items with
  | nil => simp
  | cons first items ih =>
      rw [List.pairwise_cons] at hsorted
      by_cases hfirst : now - first.2 ≥ range
      · rw [List.dropWhile_cons_of_pos (by simpa using hfirst)]
        exact ih hsorted.2
      · rw [List.dropWhile_cons_of_neg (by simpa using hfirst)]
        intro item hitem
        rcases List.mem_cons.mp hitem with rfl | hrest
        · omega
        · have hlater := hsorted.1 item hrest
          omega

/-- Dropping at most one item from the front after an append. -/
theorem popOldest_concat {maxLength : ℕ} {live : List TimedItem}
    (item : TimedItem) (hlength : live.length ≤ maxLength) :
    popOldest maxLength (live ++ [item]) <:+ live ++ [item] ∧
      (popOldest maxLength (live ++ [item])).length =
        min maxLength (live.length + 1) := by
  rw [popOldest, List.length_append, List.length_singleton]
  split
  · refine ⟨List.tail_suffix _, ?_⟩
    rw [List.length_tail, List.length_append, List.length_singleton]
    omega
  · refine ⟨List.suffix_rfl, ?_⟩
    rw [List.length_append, List.length_singleton]
    omega

/-- The items that survive the dropping by age are the longest live suffix of
the history before the push. -/
theorem live_isLongestSuffix (hkeeps : queue.Keeps history) {now : ℤ}
    (hsorted : history.Pairwise fun left right => left.2 ≤ right.2)
    (hnow : ∀ item ∈ history, item.2 ≤ now) :
    IsLongestSuffix (Live queue.maxLength queue.timeRange now) history
      (queue.q.dropWhile fun item => now - item.2 ≥ queue.timeRange) where
  isSuffix := (List.dropWhile_suffix _).trans hkeeps.isSuffix
  holds := by
    constructor
    · exact (List.dropWhile_suffix _).length_le.trans hkeeps.length_le
    · exact dropWhile_young (hsorted.sublist hkeeps.isSuffix.sublist)
  longest := by
    intro other hsuffix hlive
    have hlength := hkeeps.longest now other hnow hsuffix hlive
    have hqueue : other <:+ queue.q :=
      List.suffix_of_suffix_length_le hsuffix hkeeps.isSuffix hlength
    apply (suffix_dropWhile hqueue _).length_le
    intro item hitem
    simpa using hlive.2 item hitem

/-- One push: the content becomes the longest live suffix of the longer
history. -/
theorem push_isLongestSuffix (hrange : 0 < queue.timeRange)
    (hkeeps : queue.Keeps history) {data now : ℤ}
    (hsorted : history.Pairwise fun left right => left.2 ≤ right.2)
    (hnow : ∀ item ∈ history, item.2 ≤ now) :
    IsLongestSuffix (Live queue.maxLength queue.timeRange now)
      (history ++ [(data, now)]) (queue.push data now).q := by
  have hlive := live_isLongestSuffix hkeeps hsorted hnow
  simp only [push]
  generalize queue.q.dropWhile
    (fun item => now - item.2 ≥ queue.timeRange) = live at hlive
  have hlength := hlive.holds.1
  obtain ⟨hsuffix, hkeptLength⟩ := popOldest_concat (data, now) hlength
  constructor
  · apply hsuffix.trans
    obtain ⟨dropped, hhistory⟩ := hlive.isSuffix
    exact ⟨dropped, by rw [← List.append_assoc, hhistory]⟩
  · refine ⟨by omega, fun item hitem => ?_⟩
    rcases List.mem_append.mp (hsuffix.mem hitem) with hold | hnew
    · exact hlive.holds.2 item hold
    · rw [List.mem_singleton.mp hnew, sub_self]
      exact hrange
  · intro other hother hotherLive
    rcases List.suffix_concat_iff.mp hother with rfl | ⟨before, rfl, hbefore⟩
    · exact Nat.zero_le _
    · -- The part before the new item was live as well.
      have hbeforeLive :
          Live queue.maxLength queue.timeRange now before := by
        refine ⟨?_, fun item hitem => ?_⟩
        · apply le_trans _ hotherLive.1
          simp
        · exact hotherLive.2 item (List.mem_append_left _ hitem)
      have hbeforeLength := hlive.longest before hbefore hbeforeLive
      have hotherLength := hotherLive.1
      rw [List.length_append, List.length_singleton] at hotherLength ⊢
      omega

/-- Every history of pushes under a clock that never goes backwards keeps all
that can be live later. -/
theorem keeps_pushAll {maxLength : ℕ} {timeRange : ℤ} (hrange : 0 < timeRange)
    (hclock : history.Pairwise fun left right => left.2 ≤ right.2) :
    ((construct maxLength timeRange).pushAll history).Keeps history := by
  induction history using List.reverseRecOn with
  | nil => exact keeps_construct maxLength timeRange
  | append_singleton history item ih =>
      obtain ⟨hsorted, -, hnow⟩ := List.pairwise_append.mp hclock
      rw [pushAll_concat]
      apply keeps_of_isLongestSuffix item _ (by simp) rfl
      apply push_isLongestSuffix _ (ih hsorted) hsorted
      · intro earlier hearlier
        exact hnow earlier hearlier item (by simp)
      · rw [pushAll_timeRange]
        exact hrange

/-- After each push the queue holds exactly the longest suffix of the push
history with at most `maxLength` items, all younger than `timeRange` at the
time of the push; and until the next push `getRange` returns, in push order,
the items of that suffix with a timestamp in the range. -/
theorem pushAll_isLongestSuffix (maxLength : ℕ) (timeRange : ℤ)
    (hrange : 0 < timeRange) (history : List TimedItem) (last : TimedItem)
    (hclock : (history ++ [last]).Pairwise
      fun left right => left.2 ≤ right.2) :
    let queue := (construct maxLength timeRange).pushAll (history ++ [last])
    IsLongestSuffix (Live maxLength timeRange last.2) (history ++ [last])
        queue.q ∧
      ∀ rangeStart rangeEnd now, last.2 ≤ now →
        ∀ suffix, IsLongestSuffix (Live maxLength timeRange last.2)
            (history ++ [last]) suffix →
          queue.getRange rangeStart rangeEnd now =
            (suffix.filter fun item => now - rangeStart ≤ item.2 ∧
              item.2 ≤ now - rangeEnd).map Prod.fst := by
  intro queue
  obtain ⟨hsorted, -, hnow⟩ := List.pairwise_append.mp hclock
  have hlongest : IsLongestSuffix (Live maxLength timeRange last.2)
      (history ++ [last]) queue.q := by
    have hpush := @push_isLongestSuffix
      ((construct maxLength timeRange).pushAll history) history
      (by rw [pushAll_timeRange]; exact hrange)
      (keeps_pushAll hrange hsorted) last.1 last.2 hsorted
      (fun earlier hearlier => hnow earlier hearlier last (by simp))
    rw [pushAll_maxLength, pushAll_timeRange, ← pushAll_concat] at hpush
    exact hpush
  refine ⟨hlongest, fun rangeStart rangeEnd now _ suffix hsuffix => ?_⟩
  rw [hsuffix.unique hlongest, getRange, collectRange_eq, List.nil_append]

/-- The demo's queue: eleven seconds after five pushes only the new item is
left. -/
theorem pushAll_isLongestSuffix_after_pause :
    IsLongestSuffix (Live 5 10 11)
      [(1, 0), (2, 0), (3, 0), (4, 0), (5, 0), (6, 11)] [(6, 11)] :=
  (pushAll_isLongestSuffix 5 10 (by decide)
    [(1, 0), (2, 0), (3, 0), (4, 0), (5, 0)] (6, 11) (by decide)).1

end TimeRangeQueue

end KataCpp
