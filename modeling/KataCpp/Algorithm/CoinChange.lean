import KataCpp.Core.Iteration
import KataCpp.Core.MachineInt
import KataCpp.Core.Segment

/-!
# Coin change

`coinChange` fills a table of fewest coins from the smaller amounts to the
larger ones.  An amount that no coins add up to is marked by `amount + 1`, one
more than any count of coins can be.  The mark is incremented like a count: for
`amount = 2 ^ 31 - 2` it is the greatest `int`, its successor is the least one,
and from there on the entry looks like the best of all.
-/

namespace KataCpp.CoinChange

open Iteration MachineInt Segment

def tryCoin (i : ℤ) (dp : List ℤ) (coin : ℤ) : Option (List ℤ) :=
  if 0 ≤ wrap32 (i - coin) then do
    let current ← read dp i
    let rest ← read dp (wrap32 (i - coin))
    write dp i (min current (wrap32 (rest + 1)))
  else
    some dp

def coinChange (coins : List ℤ) (amount : ℤ) : Option ℤ := do
  let dp ← write
    (List.replicate (wrap32 (amount + 1)).toNat (wrap32 (amount + 1))) 0 0
  let dp ← forRange amount.toNat
    (fun dp (index : ℕ) => coins.foldlM (tryCoin (index + 1)) dp) dp
  let last ← read dp amount
  return if last > amount then -1 else last

/-- The coins are taken with repetition. -/
def Sums (coins : List ℤ) (chosen : Multiset ℤ) (total : ℤ) : Prop :=
  (∀ coin ∈ chosen, coin ∈ coins) ∧ chosen.sum = total

def Reachable (coins : List ℤ) (total : ℤ) : Prop :=
  ∃ chosen, Sums coins chosen total

/-- The numbers of coins with which a total can be paid. -/
def counts (coins : List ℤ) (total : ℤ) : Set ℤ :=
  {count | ∃ chosen, Sums coins chosen total ∧ (chosen.card : ℤ) = count}

def Correct (coins : List ℤ) (amount result : ℤ) : Prop :=
  (Reachable coins amount → IsLeast (counts coins amount) result) ∧
    (result = -1 ↔ ¬Reachable coins amount)

section Sums

variable {coins : List ℤ} {total coin : ℤ}

theorem sums_zero (coins : List ℤ) : Sums coins 0 0 :=
  ⟨by simp, rfl⟩

theorem Sums.cons {chosen : Multiset ℤ} (hcoin : coin ∈ coins)
    (hchosen : Sums coins chosen (total - coin)) :
    Sums coins (coin ::ₘ chosen) total := by
  constructor
  · intro member hmember
    rcases Multiset.mem_cons.mp hmember with rfl | hmember
    · exact hcoin
    · exact hchosen.1 member hmember
  · rw [Multiset.sum_cons, hchosen.2]
    omega

theorem Reachable.add (hcoin : coin ∈ coins)
    (hrest : Reachable coins (total - coin)) : Reachable coins total := by
  obtain ⟨chosen, hchosen⟩ := hrest
  exact ⟨coin ::ₘ chosen, hchosen.cons hcoin⟩

theorem counts_add {count : ℤ} (hcoin : coin ∈ coins)
    (hcount : count ∈ counts coins (total - coin)) :
    count + 1 ∈ counts coins total := by
  obtain ⟨chosen, hchosen, rfl⟩ := hcount
  exact ⟨coin ::ₘ chosen, hchosen.cons hcoin, by simp⟩

/-- A total other than zero is paid with some coin and a rest. -/
theorem Sums.exists_cons {chosen : Multiset ℤ} (htotal : total ≠ 0)
    (hchosen : Sums coins chosen total) :
    ∃ coin ∈ coins, ∃ rest, chosen = coin ::ₘ rest ∧
      Sums coins rest (total - coin) := by
  have hne : chosen ≠ 0 := by
    rintro rfl
    exact htotal hchosen.2.symm
  obtain ⟨coin, hcoin⟩ := Multiset.exists_mem_of_ne_zero hne
  obtain ⟨rest, rfl⟩ := Multiset.exists_cons_of_mem hcoin
  have hsum := hchosen.2
  rw [Multiset.sum_cons] at hsum
  refine ⟨coin, hchosen.1 coin hcoin, rest, rfl, ?_, by omega⟩
  intro member hmember
  exact hchosen.1 member (Multiset.mem_cons_of_mem hmember)

variable (hcoins : ∀ coin ∈ coins, 1 ≤ coin)

include hcoins

/-- Coins are worth at least one, so a count never exceeds its total. -/
theorem card_le_of_sums {chosen : Multiset ℤ}
    (hchosen : Sums coins chosen total) : (chosen.card : ℤ) ≤ total := by
  have hone : ∀ coin ∈ chosen, (1 : ℤ) ≤ coin := fun coin hcoin =>
    hcoins coin (hchosen.1 coin hcoin)
  have hsum := Multiset.card_nsmul_le_sum hone
  rw [hchosen.2, nsmul_one] at hsum
  exact hsum

theorem Reachable.nonneg (htotal : Reachable coins total) : 0 ≤ total := by
  obtain ⟨chosen, hchosen⟩ := htotal
  exact (Int.natCast_nonneg _).trans (card_le_of_sums hcoins hchosen)

theorem le_of_mem_counts {count : ℤ} (hcount : count ∈ counts coins total) :
    0 ≤ count ∧ count ≤ total := by
  obtain ⟨chosen, hchosen, rfl⟩ := hcount
  exact ⟨Int.natCast_nonneg _, card_le_of_sums hcoins hchosen⟩

end Sums

/-! ## The entries of the table -/

/-- The amounts whose entry has overflowed: some coins lead to them from an
amount that is marked with the greatest `int`. -/
def Spoilt (coins : List ℤ) (amount i : ℤ) : Prop :=
  amount = 2 ^ 31 - 2 ∧ ∃ paid, 1 ≤ paid ∧ paid ≤ i ∧ Reachable coins paid ∧
    ¬Reachable coins (i - paid)

/-- What the finished entry for the amount `i` says. -/
inductive Entry (coins : List ℤ) (amount i : ℤ) : ℤ → Prop
  | spoilt {x : ℤ} (hspoilt : Spoilt coins amount i) (hlower : -2 ^ 31 ≤ x)
      (hupper : x ≤ -2 ^ 31 + i) : Entry coins amount i x
  | fewest {x : ℤ} (hclean : ¬Spoilt coins amount i)
      (hleast : IsLeast (counts coins i) x) : Entry coins amount i x
  | mark (hclean : ¬Spoilt coins amount i)
      (hunreachable : ¬Reachable coins i) : Entry coins amount i (amount + 1)

/-- The values that the inner loop compares for the amount `i`. -/
def candidates (coins : List ℤ) (table : ℤ → ℤ) (i : ℤ) : Set ℤ :=
  {y | ∃ coin ∈ coins, coin ≤ i ∧ y = wrap32 (table (i - coin) + 1)}

section Entries

variable {coins : List ℤ} {amount i coin : ℤ}

theorem Spoilt.add (hcoin : coin ∈ coins) (hpositive : 1 ≤ coin)
    (hspoilt : Spoilt coins amount (i - coin)) : Spoilt coins amount i := by
  obtain ⟨hamount, paid, hpaid, hle, hreachable, hrest⟩ := hspoilt
  refine ⟨hamount, paid + coin, by omega, by omega, ?_, ?_⟩
  · exact Reachable.add hcoin (by simpa using hreachable)
  · rwa [show i - (paid + coin) = i - coin - paid by ring]

theorem spoilt_of_mark (hamount : amount = 2 ^ 31 - 2) (hcoin : coin ∈ coins)
    (hpositive : 1 ≤ coin) (hle : coin ≤ i)
    (hrest : ¬Reachable coins (i - coin)) : Spoilt coins amount i := by
  refine ⟨hamount, coin, hpositive, hle, ?_, hrest⟩
  exact Reachable.add hcoin (by simpa using ⟨0, sums_zero coins⟩)

/-- A spoilt amount is reached by one coin from an amount that is spoilt or
marked. -/
theorem Spoilt.exists_coin (hcoins : ∀ coin ∈ coins, 1 ≤ coin)
    (hspoilt : Spoilt coins amount i) :
    ∃ coin ∈ coins, coin ≤ i ∧ (Spoilt coins amount (i - coin) ∨
      ¬Reachable coins (i - coin)) := by
  obtain ⟨hamount, paid, hpaid, hle, ⟨chosen, hchosen⟩, hrest⟩ := hspoilt
  obtain ⟨coin, hcoin, others, rfl, hothers⟩ :=
    hchosen.exists_cons (by omega)
  have hreachable : Reachable coins (paid - coin) := ⟨others, hothers⟩
  have hnonneg := hreachable.nonneg hcoins
  refine ⟨coin, hcoin, by omega, ?_⟩
  rcases hnonneg.eq_or_lt with hzero | hpos
  · right
    rwa [show i - coin = i - paid by omega]
  · left
    refine ⟨hamount, paid - coin, by omega, by omega, hreachable, ?_⟩
    rwa [show i - coin - (paid - coin) = i - paid by ring]

variable {table : ℤ → ℤ} {x : ℤ}
  (hcoins : ∀ coin ∈ coins, 1 ≤ coin) (hi : 1 ≤ i) (hamount : i ≤ amount)
  (hrange : amount + 1 < 2 ^ 31)
  (htable : ∀ j, 0 ≤ j → j < i → Entry coins amount j (table j))
  (hleast : IsLeast (insert (amount + 1) (candidates coins table i)) x)

include hcoins hi hamount hrange htable hleast

theorem entry_of_spoilt (hspoilt : Spoilt coins amount i) :
    Entry coins amount i x := by
  have hlower : -2 ^ 31 ≤ x := by
    rcases hleast.1 with rfl | ⟨coin, -, -, rfl⟩
    · omega
    · exact le_wrap32 _
  obtain ⟨coin, hcoin, hle, hrest⟩ := hspoilt.exists_coin hcoins
  have hpositive := hcoins coin hcoin
  refine .spoilt hspoilt hlower ((hleast.2 (Set.mem_insert_of_mem _
    ⟨coin, hcoin, hle, rfl⟩)).trans ?_)
  have hentry := htable (i - coin) (by omega) (by omega)
  generalize table (i - coin) = entry at hentry
  cases hentry with
  | spoilt _ hlower hupper =>
      rw [wrap32_eq_self (by omega) (by omega)]
      omega
  | fewest hclean hfewest =>
      obtain ⟨chosen, hchosen, -⟩ := hfewest.1
      exact absurd ⟨chosen, hchosen⟩ (hrest.resolve_left hclean)
  | mark _ _ =>
      have hmark : wrap32 (amount + 1 + 1) = -2 ^ 31 := by
        rw [hspoilt.1]
        decide
      omega

omit hi hleast in
/-- Where nothing has overflowed, a compared value is one more than a fewest
count or than the mark. -/
theorem candidate_of_clean (hclean : ¬Spoilt coins amount i)
    (hcoin : coin ∈ coins) (hle : coin ≤ i) :
    ∃ entry, wrap32 (table (i - coin) + 1) = entry + 1 ∧
      (IsLeast (counts coins (i - coin)) entry ∨
        ¬Reachable coins (i - coin) ∧ entry = amount + 1) := by
  have hpositive := hcoins coin hcoin
  have hentry := htable (i - coin) (by omega) (by omega)
  generalize table (i - coin) = entry at hentry
  refine ⟨entry, ?_⟩
  cases hentry with
  | spoilt hspoilt _ _ => exact absurd (hspoilt.add hcoin hpositive) hclean
  | fewest _ hfewest =>
      have hbounds := le_of_mem_counts hcoins hfewest.1
      exact ⟨wrap32_eq_self (by omega) (by omega), Or.inl hfewest⟩
  | mark _ hunreachable =>
      have hamount : amount ≠ 2 ^ 31 - 2 := fun hamount =>
        hclean (spoilt_of_mark hamount hcoin hpositive hle hunreachable)
      exact ⟨wrap32_eq_self (by omega) (by omega), Or.inr ⟨hunreachable, rfl⟩⟩

theorem isLeast_counts_of_clean (hclean : ¬Spoilt coins amount i)
    (hreachable : Reachable coins i) : IsLeast (counts coins i) x := by
  have hlower : x ∈ lowerBounds (counts coins i) := by
    rintro count ⟨chosen, hchosen, rfl⟩
    obtain ⟨coin, hcoin, rest, rfl, hrest⟩ := hchosen.exists_cons (by omega)
    have hle := Reachable.nonneg hcoins ⟨rest, hrest⟩
    obtain ⟨entry, hcandidate, hentry⟩ := candidate_of_clean hcoins hamount
      hrange htable hclean hcoin (by omega)
    have hfewest := hentry.resolve_right fun h => h.1 ⟨rest, hrest⟩
    calc x ≤ wrap32 (table (i - coin) + 1) := hleast.2
            (Set.mem_insert_of_mem _ ⟨coin, hcoin, by omega, rfl⟩)
      _ = entry + 1 := hcandidate
      _ ≤ rest.card + 1 := by
          gcongr
          exact hfewest.2 ⟨rest, hrest, rfl⟩
      _ = (coin ::ₘ rest).card := by simp
  refine ⟨?_, hlower⟩
  obtain ⟨chosen, hchosen⟩ := hreachable
  have hsmall : x ≤ amount := by
    calc x ≤ chosen.card := hlower ⟨chosen, hchosen, rfl⟩
      _ ≤ i := card_le_of_sums hcoins hchosen
      _ ≤ amount := hamount
  rcases hleast.1 with rfl | ⟨coin, hcoin, hle, rfl⟩
  · omega
  · obtain ⟨entry, hcandidate, hentry⟩ := candidate_of_clean hcoins hamount
      hrange htable hclean hcoin hle
    rw [hcandidate] at hsmall ⊢
    have hfewest := hentry.resolve_right fun h => by omega
    exact counts_add hcoin hfewest.1

omit hi in
theorem eq_mark_of_clean (hclean : ¬Spoilt coins amount i)
    (hunreachable : ¬Reachable coins i) : x = amount + 1 := by
  rcases hleast.1 with hx | ⟨coin, hcoin, hle, hx⟩
  · exact hx
  · obtain ⟨entry, hcandidate, hentry⟩ := candidate_of_clean hcoins hamount
      hrange htable hclean hcoin hle
    have hrest : ¬Reachable coins (i - coin) := fun hrest =>
      hunreachable (hrest.add hcoin)
    have hmark := hentry.resolve_left fun h => hrest (by
      obtain ⟨chosen, hchosen, -⟩ := h.1
      exact ⟨chosen, hchosen⟩)
    have hupper : x ≤ amount + 1 := hleast.2 (Set.mem_insert _ _)
    omega

/-- The recurrence of the table, overflow included. -/
theorem entry_of_isLeast : Entry coins amount i x := by
  by_cases hspoilt : Spoilt coins amount i
  · exact entry_of_spoilt hcoins hi hamount hrange htable hleast hspoilt
  · by_cases hreachable : Reachable coins i
    · exact .fewest hspoilt (isLeast_counts_of_clean hcoins hi hamount hrange
        htable hleast hspoilt hreachable)
    · rw [eq_mark_of_clean hcoins hamount hrange htable hleast hspoilt
        hreachable]
      exact .mark hspoilt hreachable

end Entries

section Loops

variable {dp : List ℤ} {table : ℤ → ℤ} {i x : ℤ}

theorem tryCoin_of_le {coin : ℤ} (hpositive : 1 ≤ coin) (hle : coin ≤ i)
    (hi : i < 2 ^ 31) (hlength : i < dp.length)
    (htable : ∀ j, 0 ≤ j → j < i → read dp j = some (table j)) :
    tryCoin i (dp.set i.toNat x) coin =
      some (dp.set i.toNat (min x (wrap32 (table (i - coin) + 1)))) := by
  have hwrap : wrap32 (i - coin) = i - coin :=
    wrap32_eq_self (by omega) (by omega)
  have hset : i < (dp.set i.toNat x).length := by
    rwa [List.length_set]
  rw [tryCoin, hwrap, if_pos (by omega), read_set_self (by omega) hlength,
    read_set_of_ne dp (by omega) (by omega), htable _ (by omega) (by omega)]
  simp only [Option.bind_eq_bind, Option.bind_some]
  rw [write_eq_set (by omega) hset, List.set_set]

theorem tryCoin_of_lt {coin : ℤ} (hlt : i < coin) (hi : 0 ≤ i)
    (hcoin : coin < 2 ^ 31) : tryCoin i dp coin = some dp := by
  rw [tryCoin, wrap32_eq_self (by omega) (by omega), if_neg (by omega)]

theorem candidates_cons_of_le {coin : ℤ} (rest : List ℤ) (hle : coin ≤ i) :
    candidates (coin :: rest) table i =
      insert (wrap32 (table (i - coin) + 1)) (candidates rest table i) := by
  ext y
  simp [candidates, hle]

theorem candidates_cons_of_lt {coin : ℤ} (rest : List ℤ) (hlt : i < coin) :
    candidates (coin :: rest) table i = candidates rest table i := by
  ext y
  simp [candidates, hlt.not_ge]

theorem isLeast_insert_insert {set : Set ℤ} {left right least : ℤ}
    (hleast : IsLeast (insert (min left right) set) least) :
    IsLeast (insert left (insert right set)) least := by
  constructor
  · rcases hleast.1 with hmin | hset
    · rcases min_choice left right with hchoice | hchoice
      · exact Or.inl (hmin.trans hchoice)
      · exact Or.inr (Or.inl (hmin.trans hchoice))
    · exact Or.inr (Or.inr hset)
  · have hmin : least ≤ min left right := hleast.2 (Set.mem_insert _ _)
    rintro y (rfl | rfl | hset)
    · exact hmin.trans (min_le_left _ _)
    · exact hmin.trans (min_le_right _ _)
    · exact hleast.2 (Set.mem_insert_of_mem _ hset)

/-- The inner loop finds the least of the old entry and the candidates. -/
theorem foldlM_tryCoin {coins : List ℤ}
    (hcoins : ∀ coin ∈ coins, 1 ≤ coin ∧ coin < 2 ^ 31)
    (hlower : 0 ≤ i) (hi : i < 2 ^ 31) (hlength : i < dp.length)
    (htable : ∀ j, 0 ≤ j → j < i → read dp j = some (table j)) :
    ∃ least, coins.foldlM (tryCoin i) (dp.set i.toNat x) =
        some (dp.set i.toNat least) ∧
      IsLeast (insert x (candidates coins table i)) least := by
  induction coins generalizing x with
  | nil =>
      refine ⟨x, rfl, ?_⟩
      simp [candidates]
  | cons coin rest ih =>
      have hcoin := hcoins coin List.mem_cons_self
      have ih := fun x => @ih x fun coin hcoin =>
        hcoins coin (List.mem_cons_of_mem _ hcoin)
      rcases le_or_gt coin i with hle | hlt
      · obtain ⟨least, hloop, hleast⟩ :=
          ih (min x (wrap32 (table (i - coin) + 1)))
        refine ⟨least, ?_, ?_⟩
        · rw [List.foldlM_cons, tryCoin_of_le hcoin.1 hle hi hlength htable]
          exact hloop
        · rw [candidates_cons_of_le rest hle]
          exact isLeast_insert_insert hleast
      · obtain ⟨least, hloop, hleast⟩ := ih x
        refine ⟨least, ?_, ?_⟩
        · rw [List.foldlM_cons, tryCoin_of_lt hlt hlower hcoin.2]
          exact hloop
        · rwa [candidates_cons_of_lt rest hlt]

/-- The table when the entries up to `last` are finished. -/
structure Filled (coins : List ℤ) (amount last : ℤ) (dp : List ℤ) : Prop where
  length_eq : (dp.length : ℤ) = amount + 1
  finished : ∀ j, 0 ≤ j → j ≤ last →
    ∃ x, read dp j = some x ∧ Entry coins amount j x
  untouched : ∀ j, last < j → j ≤ amount → read dp j = some (amount + 1)

variable {coins : List ℤ} {amount : ℤ}

theorem entry_zero (coins : List ℤ) (amount : ℤ)
    (hcoins : ∀ coin ∈ coins, 1 ≤ coin) : Entry coins amount 0 0 := by
  have hclean : ¬Spoilt coins amount 0 := by
    rintro ⟨-, paid, hpaid, hle, -⟩
    omega
  refine .fewest hclean ⟨⟨0, sums_zero coins, rfl⟩, ?_⟩
  intro count hcount
  exact (le_of_mem_counts hcoins hcount).1

theorem filled_start (hcoins : ∀ coin ∈ coins, 1 ≤ coin)
    (hamount : 0 ≤ amount) :
    Filled coins amount 0
      ((List.replicate (amount + 1).toNat (amount + 1)).set 0 0) where
  length_eq := by
    rw [List.length_set, List.length_replicate]
    omega
  finished := by
    intro j hlower hupper
    obtain rfl : j = 0 := by omega
    have hlength : (0 : ℤ) <
        (List.replicate (amount + 1).toNat (amount + 1)).length := by
      rw [List.length_replicate]
      omega
    exact ⟨0, read_set_self le_rfl hlength 0, entry_zero coins amount hcoins⟩
  untouched := by
    intro j hlower hupper
    have hset := read_set_of_ne
      (List.replicate (amount + 1).toNat (amount + 1)) le_rfl hlower.ne 0
    refine hset.trans ?_
    rw [Segment.read, if_pos hlower.le, List.getElem?_replicate,
      if_pos (by omega)]

variable (hcoins : ∀ coin ∈ coins, 1 ≤ coin ∧ coin < 2 ^ 31)
  (hrange : amount + 1 < 2 ^ 31)

include hcoins hrange

/-- One pass of the outer loop finishes one entry. -/
theorem Filled.step (hi : 1 ≤ i) (hamount : i ≤ amount)
    (hfilled : Filled coins amount (i - 1) dp) :
    ∃ next, coins.foldlM (tryCoin i) dp = some next ∧
      Filled coins amount i next := by
  have hlength := hfilled.length_eq
  let table : ℤ → ℤ := fun j => (read dp j).getD 0
  have hread : ∀ j, 0 ≤ j → j < i → read dp j = some (table j) := by
    intro j hlower hupper
    obtain ⟨x, hx, -⟩ := hfilled.finished j hlower (by omega)
    simp only [table, hx, Option.getD_some]
  have htable : ∀ j, 0 ≤ j → j < i → Entry coins amount j (table j) := by
    intro j hlower hupper
    obtain ⟨x, hx, hentry⟩ := hfilled.finished j hlower (by omega)
    simpa only [table, hx, Option.getD_some] using hentry
  have hself : dp.set i.toNat (amount + 1) = dp :=
    set_of_read (hfilled.untouched i (by omega) hamount)
  obtain ⟨least, hloop, hleast⟩ := foldlM_tryCoin hcoins (by omega)
    (by omega) (by omega) hread
  rw [hself] at hloop
  refine ⟨_, hloop, ?_, ?_, ?_⟩
  · rwa [List.length_set]
  · intro j hlower hupper
    rcases hupper.eq_or_lt with rfl | hlt
    · exact ⟨least, read_set_self hlower (by omega) least,
        entry_of_isLeast (fun coin hcoin => (hcoins coin hcoin).1) hi hamount
          hrange htable hleast⟩
    · rw [read_set_of_ne dp (by omega) hlt.ne']
      exact hfilled.finished j hlower (by omega)
  · intro j hlower hupper
    rw [read_set_of_ne dp (by omega) hlower.ne]
    exact hfilled.untouched j (by omega) hupper

/-- The whole run: the answer is read off the entry of the amount. -/
theorem coinChange_eq_some (hamount : 0 ≤ amount) :
    ∃ x, coinChange coins amount = some (if x > amount then -1 else x) ∧
      Entry coins amount amount x := by
  have hstart := filled_start (fun coin hcoin => (hcoins coin hcoin).1) hamount
  have hwrite : write (List.replicate (amount + 1).toNat (amount + 1)) 0 0 =
      some ((List.replicate (amount + 1).toNat (amount + 1)).set 0 0) :=
    write_eq_set le_rfl (by rw [List.length_replicate]; omega) 0
  have hloop : ∃ dp, forRange amount.toNat
      (fun dp (index : ℕ) => coins.foldlM (tryCoin (index + 1)) dp)
      ((List.replicate (amount + 1).toNat (amount + 1)).set 0 0) = some dp ∧
        Filled coins amount amount.toNat dp := by
    apply forRange_invariant (fun index dp => Filled coins amount index dp)
      hstart
    intro index dp hindex hfilled
    push_cast
    exact Filled.step hcoins hrange (by omega) (by omega) (by simpa)
  obtain ⟨dp, hloop, hfilled⟩ := hloop
  obtain ⟨x, hread, hentry⟩ := hfilled.finished amount hamount (by omega)
  refine ⟨x, ?_, hentry⟩
  rw [coinChange, wrap32_eq_self (by omega) hrange, hwrite]
  simp only [Option.bind_eq_bind, Option.bind_some, hloop, hread]
  rfl

end Loops

/-! ## Which calls are right -/

section Results

variable {coins : List ℤ} {amount : ℤ}
  (hcoins : ∀ coin ∈ coins, 1 ≤ coin ∧ coin < 2 ^ 31)
  (hamount : 0 ≤ amount) (hrange : amount + 1 < 2 ^ 31)

include hcoins hamount hrange

theorem coinChange_of_clean (hclean : ¬Spoilt coins amount amount) :
    ∃ result, coinChange coins amount = some result ∧
      Correct coins amount result := by
  obtain ⟨x, hrun, hentry⟩ := coinChange_eq_some hcoins hrange hamount
  refine ⟨_, hrun, ?_⟩
  cases hentry with
  | spoilt hspoilt _ _ => exact absurd hspoilt hclean
  | fewest _ hleast =>
      have hbounds := le_of_mem_counts
        (fun coin hcoin => (hcoins coin hcoin).1) hleast.1
      have hreachable : Reachable coins amount := by
        obtain ⟨chosen, hchosen, -⟩ := hleast.1
        exact ⟨chosen, hchosen⟩
      rw [if_neg (by omega)]
      exact ⟨fun _ => hleast, fun hx => by omega, fun h => absurd hreachable h⟩
  | mark _ hunreachable =>
      rw [if_pos (by omega)]
      exact ⟨fun h => absurd h hunreachable, fun _ => hunreachable,
        fun _ => rfl⟩

/-- Once the entry of the amount has overflowed, the result is a negative
number other than the one for an amount that cannot be paid. -/
theorem coinChange_of_spoilt (hspoilt : Spoilt coins amount amount) :
    ∃ result, coinChange coins amount = some result ∧ result < -1 := by
  obtain ⟨x, hrun, hentry⟩ := coinChange_eq_some hcoins hrange hamount
  refine ⟨_, hrun, ?_⟩
  cases hentry with
  | spoilt hspoilt hlower hupper =>
      have hamount := hspoilt.1
      rw [if_neg (by omega)]
      omega
  | fewest hclean _ => exact absurd hspoilt hclean
  | mark hclean _ => exact absurd hspoilt hclean

theorem not_correct_of_spoilt (hspoilt : Spoilt coins amount amount) :
    ¬∃ result, coinChange coins amount = some result ∧
      Correct coins amount result := by
  rintro ⟨result, hrun, hfewest, hminus⟩
  obtain ⟨returned, hreturned, hlt⟩ :=
    coinChange_of_spoilt hcoins hamount hrange hspoilt
  obtain rfl : result = returned :=
    Option.some.inj (hrun.symm.trans hreturned)
  by_cases hreachable : Reachable coins amount
  · have hcount := (hfewest hreachable).1
    have hbounds := le_of_mem_counts
      (fun coin hcoin => (hcoins coin hcoin).1) hcount
    omega
  · have hresult := hminus.mpr hreachable
    omega

/-- The result is right exactly when the mark is less than the greatest `int`
or whatever part of the amount can be paid leaves a rest that can be paid. -/
theorem coinChange_correct_iff :
    (∃ result, coinChange coins amount = some result ∧
      Correct coins amount result) ↔
      amount < 2 ^ 31 - 2 ∨ ∀ paid, 1 ≤ paid → paid ≤ amount →
        Reachable coins paid → Reachable coins (amount - paid) := by
  constructor
  · intro hcorrect
    by_contra hnot
    push Not at hnot
    obtain ⟨hlarge, paid, hpaid, hle, hreachable, hrest⟩ := hnot
    exact not_correct_of_spoilt hcoins hamount hrange
      ⟨by omega, paid, hpaid, hle, hreachable, hrest⟩ hcorrect
  · intro hcondition
    apply coinChange_of_clean hcoins hamount hrange
    rintro ⟨hlarge, paid, hpaid, hle, hreachable, hrest⟩
    rcases hcondition with hsmall | hpayable
    · omega
    · exact hrest (hpayable paid hpaid hle hreachable)

end Results

theorem coinChange_correct_iff_eleven :
    (∃ result, coinChange [1, 2, 5] 11 = some result ∧
      Correct [1, 2, 5] 11 result) ↔
      (11 : ℤ) < 2 ^ 31 - 2 ∨ ∀ paid, 1 ≤ paid → paid ≤ (11 : ℤ) →
        Reachable [1, 2, 5] paid → Reachable [1, 2, 5] (11 - paid) :=
  coinChange_correct_iff (by decide) (by decide) (by decide)

/-- Fours never add up to `2 ^ 31 - 2`, and the table takes the overflowed mark
for a count. -/
theorem coinChange_fours :
    ¬∃ result, coinChange [4] (2 ^ 31 - 2) = some result ∧
      Correct [4] (2 ^ 31 - 2) result := by
  apply not_correct_of_spoilt (by decide) (by decide) (by decide)
  refine ⟨rfl, 4, by decide, by decide, ⟨{4}, by simp [Sums]⟩, ?_⟩
  rintro ⟨chosen, hchosen, hsum⟩
  have hdvd : (4 : ℤ) ∣ chosen.sum := by
    apply Multiset.dvd_sum
    intro coin hcoin
    rw [List.mem_singleton.mp (hchosen coin hcoin)]
  rw [hsum] at hdvd
  revert hdvd
  decide

end KataCpp.CoinChange
