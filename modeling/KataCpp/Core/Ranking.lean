import Mathlib

/-!
# Ranks in a descending list

In a list sorted by descending keys, the entries above a key stand in front of
all others.  The number of these entries is therefore the position at which an
entry with the key itself stands, if there is one: counting and sorting give
the same rank.
-/

namespace KataCpp.Ranking

variable {Entry Key : Type*} [LinearOrder Key] {key : Entry → Key}
variable {entries : List Entry} {value : Key}

/-- No entry has a smaller key than a later one. -/
def Descending (key : Entry → Key) (entries : List Entry) : Prop :=
  entries.Pairwise fun first later => key later ≤ key first

/-- The number of entries with a key above the value. -/
def above (key : Entry → Key) (entries : List Entry) (value : Key) : ℕ :=
  entries.countP fun entry => value < key entry

theorem filter_append_filter (hsorted : Descending key entries)
    (value : Key) :
    (entries.filter fun entry => value < key entry) ++
      (entries.filter fun entry => key entry ≤ value) = entries := by
  induction entries with
  | nil => rfl
  | cons first rest ih =>
      obtain ⟨hfirst, hrest⟩ := List.pairwise_cons.mp hsorted
      by_cases habove : value < key first
      · rw [List.filter_cons_of_pos (by simpa using habove),
          List.filter_cons_of_neg (by simpa using habove), List.cons_append,
          ih hrest]
      · -- the keys only get smaller, so nothing after `first` is above either
        have hbelow : ∀ entry ∈ first :: rest, key entry ≤ value := by
          intro entry hentry
          rcases List.mem_cons.mp hentry with rfl | hlater
          · exact not_lt.mp habove
          · exact (hfirst entry hlater).trans (not_lt.mp habove)
        rw [List.filter_eq_nil_iff.mpr (by simpa using hbelow),
          List.filter_eq_self.mpr (by simpa using hbelow), List.nil_append]

theorem take_above (hsorted : Descending key entries) :
    entries.take (above key entries value) =
      entries.filter fun entry => value < key entry := by
  have hsplit := filter_append_filter hsorted value
  rw [above, List.countP_eq_length_filter]
  exact (List.prefix_iff_eq_take.mp ⟨_, hsplit⟩).symm

/-- The entry after those above the key of some entry has the same key. -/
theorem getElem?_above (hsorted : Descending key entries) {entry : Entry}
    (hentry : entry ∈ entries) :
    ∃ found, entries[above key entries (key entry)]? = some found ∧
      key found = key entry := by
  have hsplit := filter_append_filter hsorted (key entry)
  have hbelow : entry ∈ entries.filter fun other => key other ≤ key entry := by
    simpa using hentry
  cases htail : entries.filter fun other => key other ≤ key entry with
  | nil =>
      rw [htail] at hbelow
      simp at hbelow
  | cons found rest =>
      have hfound : found ∈ entries.filter fun other =>
          key other ≤ key entry := by
        rw [htail]
        exact List.mem_cons_self
      have hle : key found ≤ key entry := by
        simpa using (List.mem_filter.mp hfound).2
      have hsorted' : Descending key (found :: rest) := by
        rw [← htail]
        exact List.Pairwise.filter _ hsorted
      have hge : key entry ≤ key found := by
        rw [htail] at hbelow
        rcases List.mem_cons.mp hbelow with rfl | hlater
        · exact le_rfl
        · exact (List.pairwise_cons.mp hsorted').1 entry hlater
      refine ⟨found, ?_, le_antisymm hle hge⟩
      rw [htail] at hsplit
      rw [above, List.countP_eq_length_filter]
      calc entries[(entries.filter fun other =>
            key entry < key other).length]?
          = ((entries.filter fun other => key entry < key other) ++
              found :: rest)[(entries.filter fun other =>
                key entry < key other).length]? := by rw [hsplit]
        _ = some found := by
            rw [List.getElem?_append_right le_rfl, Nat.sub_self,
              List.getElem?_cons_zero]

/-- Fewer entries are above the key of an entry than there are entries. -/
theorem above_lt_length {entry : Entry} (hentry : entry ∈ entries) :
    above key entries (key entry) < entries.length := by
  rw [above, List.countP_lt_length_iff]
  exact ⟨entry, hentry, by simp⟩

end KataCpp.Ranking
