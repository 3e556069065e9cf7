import KataCpp.Core.DecimalText
import KataCpp.Text.WordRank

/-!
# The sorted word list

`sortWords` copies the words of the bank into the member `m_vecWords` and sorts
it, and `printTop` prints the first entries of that list.  The member survives
between calls and is not cleared: every further call adds all words once more.
The list is in step with the bank after the first call only, and from then on
`printTop` prints every word as often as `sortWords` has been called.
-/

namespace KataCpp.WordBank

open Bytes DecimalText MachineInt Ranking TextInput

def topEntries : List (ByteString × ℤ) → ℤ → List (ByteString × ℤ)
  | [], _ => []
  | pair :: rest, n =>
      let n := wrap32 (n - 1)
      if n ≤ 0 then [pair] else pair :: topEntries rest n

def entryLine (pair : ByteString × ℤ) : ByteString :=
  pair.1 ++ ascii ": " ++ integerText pair.2 ++ [newline]

def printTop (bank : WordBank) (n : ℤ) : ByteString :=
  (topEntries bank.vecWords n).flatMap entryLine

/-- Two lists with the same entries, which differ only in the order of entries
of one frequency. -/
def SameUpToTies (first second : List (ByteString × ℤ)) : Prop :=
  first.Perm second ∧ first.map Prod.snd = second.map Prod.snd

/-- The sorted list of `sorted` has every word of the bank once, by descending
frequency, as after one call of `sortWords`, and the entries that `printTop`
prints are of different words. -/
structure ListsWords
    (sort : List (ByteString × ℤ) → List (ByteString × ℤ))
    (bank sorted : WordBank) : Prop where
  perm : sorted.vecWords.Perm sorted.mapWords.toList
  descending : Descending Prod.snd sorted.vecWords
  idempotent : SameUpToTies sorted.vecWords (bank.sortWords sort).vecWords
  printed : ∀ n : ℤ, 1 ≤ n → n < 2 ^ 31 →
    ((topEntries sorted.vecWords n).map Prod.fst).Nodup ∧
      ((topEntries sorted.vecWords n).length : ℤ) =
        min n sorted.getUniqueWordCount

theorem topEntries_eq_take (entries : List (ByteString × ℤ)) {n : ℕ}
    (hlower : 1 ≤ n) (hupper : n < 2 ^ 31) :
    topEntries entries n = entries.take n := by
  induction entries generalizing n with
  | nil => rw [topEntries, List.take_nil]
  | cons pair rest ih =>
      obtain ⟨left, rfl⟩ := Nat.exists_eq_add_of_le' hlower
      have hleft : wrap32 (((left + 1 : ℕ) : ℤ) - 1) = left := by
        rw [Nat.cast_succ, add_sub_cancel_right]
        exact wrap32_natCast (by omega)
      rw [topEntries, hleft, List.take_succ_cons]
      cases left with
      | zero => rw [if_pos (by simp), List.take_zero]
      | succ left =>
          rw [if_neg (by omega), ih (by omega) (by omega)]

/-- What is printed of a list with every word of the bank once. -/
theorem printed_of_perm {bank : WordBank}
    (hperm : bank.vecWords.Perm bank.mapWords.toList) {n : ℕ}
    (hlower : 1 ≤ n) (hupper : n < 2 ^ 31) :
    ((topEntries bank.vecWords n).map Prod.fst).Nodup ∧
      (topEntries bank.vecWords n).length = min n bank.mapWords.size := by
  have hnodup : (bank.vecWords.map Prod.fst).Nodup := by
    rw [(hperm.map Prod.fst).nodup_iff, Std.ExtTreeMap.map_fst_toList_eq_keys]
    exact Std.ExtTreeMap.nodup_keys
  rw [topEntries_eq_take _ hlower hupper, List.map_take, List.length_take,
    hperm.length_eq, Std.ExtTreeMap.length_toList]
  exact ⟨hnodup.take, rfl⟩

section Calls

variable {sort : List (ByteString × ℤ) → List (ByteString × ℤ)}
variable {bank : WordBank}

theorem iterate_mapWords (k : ℕ) :
    ((sortWords sort)^[k] bank).mapWords = bank.mapWords := by
  induction k with
  | zero => rfl
  | succ k ih =>
      rw [Function.iterate_succ_apply']
      exact ih

/-- Every call adds all words of the bank. -/
theorem iterate_length (hsort : SortsByComparePair sort) (k : ℕ) :
    ((sortWords sort)^[k] bank).vecWords.length =
      bank.vecWords.length + k * bank.mapWords.size := by
  induction k with
  | zero => simp
  | succ k ih =>
      rw [Function.iterate_succ_apply', sortWords, (hsort _).1.length_eq,
        List.length_append, ih, Std.ExtTreeMap.length_toList,
        iterate_mapWords, Nat.succ_mul, Nat.add_assoc]

theorem iterate_descending (hsort : SortsByComparePair sort) {k : ℕ}
    (hk : 1 ≤ k) :
    Descending Prod.snd ((sortWords sort)^[k] bank).vecWords := by
  obtain ⟨calls, rfl⟩ := Nat.exists_eq_add_of_le' hk
  rw [Function.iterate_succ_apply']
  exact hsort.descending _

/-- Descending lists of the same entries have the same frequencies. -/
theorem sameUpToTies_of_perm {first second : List (ByteString × ℤ)}
    (hperm : first.Perm second) (hfirst : Descending Prod.snd first)
    (hsecond : Descending Prod.snd second) : SameUpToTies first second := by
  have hsorted : ∀ {entries : List (ByteString × ℤ)},
      Descending Prod.snd entries →
      (entries.map Prod.snd).Pairwise (· ≥ ·) := by
    intro entries hentries
    rw [List.pairwise_map]
    exact hentries
  exact ⟨hperm, (hperm.map Prod.snd).eq_of_pairwise' (hsorted hfirst)
    (hsorted hsecond)⟩

/-- The list is in step with the bank after one call, or with nothing in the
bank. -/
theorem iterate_perm (hsort : SortsByComparePair sort)
    (hfresh : bank.vecWords = []) {k : ℕ} (hk : 1 ≤ k)
    (hcalls : bank.mapWords.size = 0 ∨ k = 1) :
    ((sortWords sort)^[k] bank).vecWords.Perm bank.mapWords.toList := by
  rcases hcalls with hempty | rfl
  · have hlength := @iterate_length _ bank hsort k
    rw [hfresh, hempty, List.length_nil, Nat.mul_zero] at hlength
    rw [← Std.ExtTreeMap.length_toList] at hempty
    rw [List.length_eq_zero_iff.mp hlength, List.length_eq_zero_iff.mp hempty]
  · have hvec : ((sortWords sort)^[1] bank).vecWords =
        sort (bank.vecWords ++ bank.mapWords.toList) := rfl
    rw [hvec, hfresh, List.nil_append]
    exact (hsort _).1

end Calls

/-- The number of unique words is right as an `int`, or it is as great as any
number of lines that can be asked for. -/
def SizeFits (bank : WordBank) : Prop :=
  bank.mapWords.size < 2 ^ 31 ∨ bank.mapWords.size % 2 ^ 32 = 2 ^ 31 - 1

theorem min_wrap32_iff (size : ℕ) :
    (∀ n : ℕ, 1 ≤ n → n < 2 ^ 31 →
      ((min n size : ℕ) : ℤ) = min (n : ℤ) (wrap32 size)) ↔
      size < 2 ^ 31 ∨ size % 2 ^ 32 = 2 ^ 31 - 1 := by
  rw [wrap32, Int.bmod_def]
  constructor
  · intro hall
    have hmost := hall (2 ^ 31 - 1) (by norm_num) (by norm_num)
    split at hmost <;> omega
  · intro hfits n hlower hupper
    split <;> omega

/-- After `k` calls of `sortWords` on a new bank the list is in step with the
bank exactly when there was one call only, or no word. -/
theorem sortWords_listsWords_iff
    {sort : List (ByteString × ℤ) → List (ByteString × ℤ)}
    (hsort : SortsByComparePair sort) {content : ByteString}
    {bank : WordBank} (hbank : construct (some content) = .ok bank) {k : ℕ}
    (hk : 1 ≤ k) :
    ListsWords sort bank ((sortWords sort)^[k] bank) ↔
      bank.mapWords.size = 0 ∨ k = 1 ∧ SizeFits bank := by
  have hfresh : bank.vecWords = [] := by
    obtain rfl : (words content).foldl readWord initial = bank := by
      simpa [construct] using hbank
    exact foldl_vecWords _ _
  have hmap := @iterate_mapWords sort bank k
  have hunique : ((sortWords sort)^[k] bank).getUniqueWordCount =
      wrap32 bank.mapWords.size := by
    rw [getUniqueWordCount, hmap]
  constructor
  · intro hlists
    have hlength := hlists.perm.length_eq
    rw [@iterate_length _ bank hsort k, hfresh, List.length_nil, Nat.zero_add,
      hmap, Std.ExtTreeMap.length_toList] at hlength
    rcases Nat.eq_zero_or_pos bank.mapWords.size with hempty | hsome
    · exact .inl hempty
    · have hone : k = 1 := by nlinarith
      refine .inr ⟨hone, (min_wrap32_iff _).mp fun n hlower hupper => ?_⟩
      obtain ⟨-, hprinted⟩ := printed_of_perm hlists.perm hlower hupper
      rw [hmap] at hprinted
      rw [← hunique, ← hprinted]
      exact (hlists.printed n (by omega) (by omega)).2
  · intro hcondition
    have hcalls : bank.mapWords.size = 0 ∨ k = 1 :=
      hcondition.imp_right And.left
    have hfits : SizeFits bank :=
      hcondition.elim (fun hempty => .inl (by omega)) And.right
    have hperm := iterate_perm hsort hfresh hk hcalls
    have hfirst := iterate_perm hsort hfresh le_rfl (.inr rfl)
    have hdescending := @iterate_descending _ bank hsort k hk
    refine ⟨by rwa [hmap], hdescending, ?_, ?_⟩
    · exact sameUpToTies_of_perm (hperm.trans hfirst.symm) hdescending
        (iterate_descending hsort le_rfl)
    · intro n hlower hupper
      obtain ⟨lines, rfl⟩ := Int.eq_ofNat_of_zero_le (by omega : 0 ≤ n)
      have hone : 1 ≤ lines := by omega
      have hmost : lines < 2 ^ 31 := by omega
      obtain ⟨hnodup, hprinted⟩ := printed_of_perm (hmap ▸ hperm) hone hmost
      rw [hmap] at hprinted
      rw [hprinted, hunique]
      exact ⟨hnodup, (min_wrap32_iff _).mpr hfits lines hone hmost⟩

/-- The bank of the text `a b b`. -/
theorem construct_two_words :
    ∃ bank, construct (some (ascii "a b b")) = .ok bank ∧
      bank.mapWords.size = 2 := by
  refine ⟨_, rfl, ?_⟩
  have hzero : 0 ∉ ascii "a b b" := by decide
  rw [(tallies_foldl (notMem_of_mem_words hzero)).size]
  decide

theorem sortWords_listsWords_once :
    ∃ bank, construct (some (ascii "a b b")) = .ok bank ∧
      ListsWords sortPairs bank (bank.sortWords sortPairs) := by
  obtain ⟨bank, hbank, hsize⟩ := construct_two_words
  have hlists := sortWords_listsWords_iff sortPairs_sortsByComparePair hbank
    (le_refl 1)
  exact ⟨bank, hbank, hlists.mpr (.inr ⟨rfl, .inl (by omega)⟩)⟩

/-- After two calls the words `a` and `b` are listed twice. -/
theorem sortWords_twice :
    ∃ bank, construct (some (ascii "a b b")) = .ok bank ∧
      ∀ sort, SortsByComparePair sort →
        ¬ ((sortWords sort)^[2] bank).vecWords.Perm bank.mapWords.toList := by
  obtain ⟨bank, hbank, hsize⟩ := construct_two_words
  refine ⟨bank, hbank, ?_⟩
  intro sort hsort hperm
  have hlength := hperm.length_eq
  rw [iterate_length hsort, Std.ExtTreeMap.length_toList] at hlength
  omega

end KataCpp.WordBank
