import KataCpp.Core.Iteration
import KataCpp.Core.MachineInt
import KataCpp.Core.Segment

/-!
# The knapsack table

`knapsack` fills a table whose entry in row `i` and column `j` is the greatest
value of a selection of the first `i` items that weighs at most `j`.  The inner
loop starts at column one, so column zero stays at its initial zeros.

Items that weigh something never need column zero for anything but an empty
rest, and the table is right.  Items that weigh nothing would have to be
entered there: a selection that fills the knapsack exactly loses those of them
that stand before its first other item, and the result depends on the order.

The table has `n + 1` rows of `W + 1` entries, which are sums of type `int`.
For the greatest `int` there is no such sum, or it wraps around to a size that
no vector has.
-/

namespace KataCpp.Knapsack

open Iteration MachineInt Segment

variable (int : ℤ → Option ℤ)

/-- `dp[i][j]`, from the row above. -/
def cell (weights values : List ℤ) (dp : List (List ℤ)) (i j : ℕ) :
    Option ℤ := do
  let weight ← weights[i - 1]?
  let above ← dp[i - 1]?
  let without ← above[j]?
  if weight ≤ j then
    let rest ← above[(j - weight).toNat]?
    let value ← values[i - 1]?
    let sum ← int (rest + value)
    return max without sum
  else
    return without

def fillCell (weights values : List ℤ) (dp : List (List ℤ)) (i j : ℕ) :
    Option (List (List ℤ)) := do
  let entry ← cell int weights values dp i j
  let row ← dp[i]?
  if j < row.length then some (dp.set i (row.set j entry)) else none

/-- `std::vector<T>(size, element)`; a negative size is too large for a vector,
and the constructor throws. -/
def filled {α : Type*} (size : ℤ) (element : α) : Option (List α) :=
  if 0 ≤ size then some (List.replicate size.toNat element) else none

/-- `W` is the capacity and `n` the number of items.  The counters of the loops
stay below `n + 1` and `W + 1`. -/
def knapsack (W : ℤ) (weights values : List ℤ) (n : ℤ) : Option ℤ := do
  let rows ← int (n + 1)
  let columns ← int (W + 1)
  let zeros ← filled columns 0
  let table ← filled rows zeros
  let dp ← forRange n.toNat (fun dp index =>
    forRange W.toNat (fun dp column =>
      fillCell int weights values dp (index + 1) (column + 1)) dp) table
  let row ← read dp n
  read row W

structure Item where
  weight : ℤ
  value : ℤ
  deriving DecidableEq

def totalWeight (items : List Item) : ℤ := (items.map Item.weight).sum

def totalValue (items : List Item) : ℤ := (items.map Item.value).sum

def knapsackOf (W : ℕ) (items : List Item) : Option ℤ :=
  knapsack int W (items.map Item.weight) (items.map Item.value) items.length

/-- The entry that the table has in column `j` for items listed from the last
to the first. -/
def entry : List Item → ℕ → ℤ
  | [], _ => 0
  | item :: rest, j =>
      if j = 0 then 0
      else if item.weight ≤ j then
        max (entry rest j) (entry rest (j - item.weight).toNat + item.value)
      else entry rest j

theorem entry_zero (items : List Item) : entry items 0 = 0 := by
  cases items with
  | nil => rfl
  | cons item rest => rw [entry, if_pos rfl]

theorem totalWeight_cons (item : Item) (items : List Item) :
    totalWeight (item :: items) = item.weight + totalWeight items := by
  simp [totalWeight]

theorem totalValue_cons (item : Item) (items : List Item) :
    totalValue (item :: items) = item.value + totalValue items := by
  simp [totalValue]

theorem totalWeight_nonneg {items : List Item}
    (hitems : ∀ item ∈ items, 0 ≤ item.weight) : 0 ≤ totalWeight items := by
  apply List.sum_nonneg
  simpa using hitems

/-- An item that is not heavier than the capacity leaves a smaller one. -/
theorem entry_cons_le (item : Item) (rest : List Item) {j : ℕ} (hj : j ≠ 0) :
    entry rest j ≤ entry (item :: rest) j := by
  rw [entry, if_neg hj]
  split_ifs
  · exact le_max_left _ _
  · exact le_rfl

theorem entry_rest_le {item : Item} (rest : List Item) {j : ℕ} (hj : j ≠ 0)
    (hweight : item.weight ≤ j) :
    entry rest (j - item.weight).toNat + item.value ≤
      entry (item :: rest) j := by
  rw [entry, if_neg hj, if_pos hweight]
  exact le_max_right _ _

/-- Every entry is the value of a selection that fits.  If it fills the
knapsack, then the recursion ends at capacity zero, right behind an item that
weighs something. -/
theorem exists_chosen (items : List Item) (j : ℕ) :
    ∃ chosen : List Item, chosen.Sublist items ∧ totalWeight chosen ≤ j ∧
      totalValue chosen = entry items j ∧
      (totalWeight chosen = j →
        ∀ item ∈ chosen.getLast?, item.weight ≠ 0) := by
  induction items generalizing j with
  | nil => exact ⟨[], List.Sublist.refl _, by simp [totalWeight], rfl, by simp⟩
  | cons item rest ih =>
      rw [entry]
      obtain ⟨without, hsub, hweight, hvalue, hlast⟩ := ih j
      split_ifs with hzero hfits
      · exact ⟨[], List.nil_sublist _, by simp [totalWeight], rfl, by simp⟩
      · rcases max_choice (entry rest j)
          (entry rest (j - item.weight).toNat + item.value) with hmax | hmax
        · exact ⟨without, hsub.cons item, hweight, hvalue.trans hmax.symm,
            hlast⟩
        · obtain ⟨others, hsub, hothers, hvalue, hlast⟩ :=
            ih (j - item.weight).toNat
          refine ⟨item :: others, hsub.cons_cons item, ?_, ?_, ?_⟩
          · rw [totalWeight_cons]
            omega
          · rw [totalValue_cons, hvalue, hmax, add_comm]
          · intro hfull
            rw [totalWeight_cons] at hfull
            cases others with
            | nil =>
                simp only [totalWeight, List.map_nil, List.sum_nil] at hfull
                simp only [List.getLast?_singleton, Option.mem_some_iff,
                  forall_eq']
                omega
            | cons second more =>
                rw [List.getLast?_cons_cons]
                exact hlast (by omega)
      · exact ⟨without, hsub.cons item, hweight, hvalue, hlast⟩

/-- A selection that fits is matched by the entry if it leaves room, or if all
of its items weigh something. -/
theorem totalValue_le_entry {items chosen : List Item} {j : ℕ}
    (hitems : ∀ item ∈ items, 0 ≤ item.weight) (hsub : chosen.Sublist items)
    (hweight : totalWeight chosen ≤ j)
    (hroom : totalWeight chosen < j ∨ ∀ item ∈ chosen, 1 ≤ item.weight) :
    totalValue chosen ≤ entry items j := by
  induction hsub generalizing j with
  | slnil => exact le_rfl
  | @cons chosen rest item hsub ih =>
      have hrest := ih (fun item hitem =>
        hitems item (List.mem_cons_of_mem _ hitem)) hweight hroom
      by_cases hj : j = 0
      · subst hj
        rwa [entry_zero] at hrest ⊢
      · exact hrest.trans (entry_cons_le item rest hj)
  | @cons_cons chosen rest item hsub ih =>
      have hothers : ∀ item ∈ rest, 0 ≤ item.weight := fun item hitem =>
        hitems item (List.mem_cons_of_mem _ hitem)
      have hnonneg := hitems item List.mem_cons_self
      have hpart := totalWeight_nonneg fun item hitem =>
        hothers item (hsub.subset hitem)
      rw [totalWeight_cons] at hweight hroom
      have hj : j ≠ 0 := by
        rcases hroom with hless | hpositive
        · omega
        · have hone := hpositive item List.mem_cons_self
          omega
      have hrest := @ih (j - item.weight).toNat hothers (by omega) (by
        rcases hroom with hless | hpositive
        · exact .inl (by omega)
        · exact .inr fun other hother =>
            hpositive other (List.mem_cons_of_mem _ hother))
      calc
        totalValue (item :: chosen) = totalValue chosen + item.value := by
          rw [totalValue_cons, add_comm]
        _ ≤ entry rest (j - item.weight).toNat + item.value := by
          gcongr
        _ ≤ entry (item :: rest) j := entry_rest_le rest hj (by omega)

/-! ## The table -/

def tableRow (items : List Item) (W i : ℕ) : List ℤ :=
  (List.range (W + 1)).map fun j => entry (items.take i).reverse j

variable {int : ℤ → Option ℤ} {items : List Item} {W : ℕ}

theorem tableRow_getElem? {i j : ℕ} (hj : j ≤ W) :
    (tableRow items W i)[j]? = some (entry (items.take i).reverse j) := by
  rw [tableRow, List.getElem?_map, List.getElem?_range (by omega)]
  rfl

/-- The table while row `i` is being filled: `filled` columns behind column
zero are done. -/
structure Filled (items : List Item) (W i filled : ℕ)
    (dp : List (List ℤ)) : Prop where
  length_eq : dp.length = items.length + 1
  above : ∀ row < i, dp[row]? = some (tableRow items W row)
  current : ∃ row, dp[i]? = some row ∧ row.length = W + 1 ∧
    (∀ j ≤ filled, row[j]? = some (entry (items.take i).reverse j)) ∧
    ∀ j, filled < j → j ≤ W → row[j]? = some 0
  below : ∀ row, i < row → row ≤ items.length →
    dp[row]? = some (List.replicate (W + 1) 0)

theorem reverse_take_succ {i : ℕ} (hi : i < items.length) :
    (items.take (i + 1)).reverse = items[i] :: (items.take i).reverse := by
  rw [List.take_succ_eq_append_getElem hi, List.reverse_append]
  rfl

/-- The selections that fit have values of type `int`. -/
def SumsFit (W : ℕ) (items : List Item) : Prop :=
  ∀ chosen : List Item, chosen.Sublist items → totalWeight chosen ≤ W →
    -2 ^ 31 ≤ totalValue chosen ∧ totalValue chosen < 2 ^ 31

/-- A sum that the code forms is the value of a selection that fits. -/
theorem SumsFit.entry_add (h : SumsFit W items) {i j : ℕ}
    (hi : i < items.length) (hj : j ≤ W) (hweight : items[i].weight ≤ j) :
    let sum := entry (items.take i).reverse (j - items[i].weight).toNat +
      items[i].value
    sum < 2 ^ 31 ∧ -2 ^ 31 ≤ sum := by
  obtain ⟨others, hsub, hothers, hvalue, -⟩ :=
    exists_chosen (items.take i).reverse (j - items[i].weight).toNat
  have hchosen : (items[i] :: others).reverse.Sublist items := by
    have hreversed := (hsub.cons_cons items[i]).reverse
    rw [← reverse_take_succ hi, List.reverse_reverse] at hreversed
    exact hreversed.trans (List.take_sublist _ _)
  have hfits := h _ hchosen
  rw [totalWeight, totalValue, List.map_reverse, List.map_reverse,
    List.sum_reverse, List.sum_reverse, ← totalWeight, ← totalValue,
    totalWeight_cons, totalValue_cons, hvalue, add_comm items[i].value]
    at hfits
  exact (hfits (by omega)).symm

/-- What the code computes from the row above. -/
theorem cell_eq (hitems : ∀ item ∈ items, 0 ≤ item.weight)
    {dp : List (List ℤ)} {i j : ℕ} (hi : i < items.length) (hj : j ≤ W)
    (habove : dp[i]? = some (tableRow items W i)) :
    cell int (items.map Item.weight) (items.map Item.value) dp (i + 1) j =
      if items[i].weight ≤ j then
        (int (entry (items.take i).reverse (j - items[i].weight).toNat +
          items[i].value)).map (max (entry (items.take i).reverse j))
      else some (entry (items.take i).reverse j) := by
  have hweight : (items.map Item.weight)[i]? = some items[i].weight := by
    rw [List.getElem?_map, List.getElem?_eq_getElem hi]
    rfl
  have hvalue : (items.map Item.value)[i]? = some items[i].value := by
    rw [List.getElem?_map, List.getElem?_eq_getElem hi]
    rfl
  have hnonneg := hitems _ (List.getElem_mem hi)
  have hrest : (tableRow items W i)[((j : ℤ) - items[i].weight).toNat]? =
      some (entry (items.take i).reverse
        ((j : ℤ) - items[i].weight).toNat) :=
    tableRow_getElem? (by omega)
  simp only [cell, Nat.add_sub_cancel, hweight, habove, tableRow_getElem? hj,
    hrest, hvalue, Option.bind_eq_bind, Option.bind_some, Option.pure_def]
  split_ifs
  · rw [Option.map_eq_bind]
    rfl
  · rfl

/-- A sum that does not overflow makes the entry right. -/
theorem cell_of_fits (hint : IntArithmetic int) (hsums : SumsFit W items)
    (hitems : ∀ item ∈ items, 0 ≤ item.weight) {dp : List (List ℤ)}
    {i j : ℕ} (hi : i < items.length) (hpos : j ≠ 0) (hj : j ≤ W)
    (habove : dp[i]? = some (tableRow items W i)) :
    cell int (items.map Item.weight) (items.map Item.value) dp (i + 1) j =
      some (entry (items.take (i + 1)).reverse j) := by
  rw [cell_eq hitems hi hj habove, reverse_take_succ hi, entry, if_neg hpos]
  split_ifs with hweight
  · obtain ⟨hupper, hlower⟩ := hsums.entry_add hi hj hweight
    rw [hint.exact _ hlower hupper, Option.map_some]
  · rfl

/-- An entry that is computed without overflow is right. -/
theorem of_cell_eq_some (hitems : ∀ item ∈ items, 0 ≤ item.weight)
    {dp : List (List ℤ)} {i j : ℕ} {value : ℤ} (hi : i < items.length)
    (hpos : j ≠ 0) (hj : j ≤ W)
    (habove : dp[i]? = some (tableRow items W i))
    (hbefore : entry (items.take i).reverse j < 2 ^ 31)
    (hcell : cell checked32 (items.map Item.weight) (items.map Item.value) dp
      (i + 1) j = some value) :
    value = entry (items.take (i + 1)).reverse j ∧ value < 2 ^ 31 := by
  rw [cell_eq hitems hi hj habove] at hcell
  rw [reverse_take_succ hi, entry, if_neg hpos]
  split_ifs at hcell ⊢ with hweight
  · obtain ⟨sum, hsum, rfl⟩ := Option.map_eq_some_iff.mp hcell
    rw [checked32] at hsum
    split_ifs at hsum with hfits
    obtain rfl := Option.some.inj hsum
    exact ⟨rfl, max_lt hbefore hfits.2⟩
  · obtain rfl := Option.some.inj hcell
    exact ⟨rfl, hbefore⟩

/-- One more column is done when its entry has been written. -/
theorem Filled.write {dp : List (List ℤ)} {row : List ℤ} {i column : ℕ}
    (hi : i < items.length) (hcolumn : column < W)
    (h : Filled items W (i + 1) column dp) (hrow : dp[i + 1]? = some row) :
    column + 1 < row.length ∧
      Filled items W (i + 1) (column + 1) (dp.set (i + 1)
        (row.set (column + 1)
          (entry (items.take (i + 1)).reverse (column + 1)))) := by
  obtain ⟨other, hother, hlength, hdone, hzero⟩ := h.current
  obtain rfl : other = row := Option.some.inj (hother.symm.trans hrow)
  have hin : i + 1 < dp.length := by
    rw [h.length_eq]
    omega
  refine ⟨by omega, ?_⟩
  constructor
  case length_eq => rw [List.length_set, h.length_eq]
  case above =>
    intro other hother
    rw [List.getElem?_set_ne (by omega), h.above other hother]
  case current =>
    refine ⟨_, List.getElem?_set_self hin, ?_, ?_, ?_⟩
    · rw [List.length_set, hlength]
    · intro j hj
      rcases Nat.lt_or_ge j (column + 1) with hbefore | hlast
      · rw [List.getElem?_set_ne (by omega), hdone j (by omega)]
      · obtain rfl : j = column + 1 := by omega
        rw [List.getElem?_set_self (by omega)]
    · intro j hbehind hj
      rw [List.getElem?_set_ne (by omega), hzero j (by omega) hj]
  case below =>
    intro other hother hlast
    rw [List.getElem?_set_ne (by omega), h.below other hother hlast]

/-- One pass of the inner loop fills one more column. -/
theorem Filled.fillCell {dp : List (List ℤ)} (hint : IntArithmetic int)
    (hsums : SumsFit W items) (hitems : ∀ item ∈ items, 0 ≤ item.weight)
    {i column : ℕ} (hi : i < items.length) (hcolumn : column < W)
    (h : Filled items W (i + 1) column dp) :
    ∃ next,
      fillCell int (items.map Item.weight) (items.map Item.value) dp (i + 1)
          (column + 1) = some next ∧
        Filled items W (i + 1) (column + 1) next := by
  obtain ⟨row, hrow, -⟩ := h.current
  obtain ⟨hlength, hfilled⟩ := h.write hi hcolumn hrow
  have hcell := cell_of_fits hint hsums hitems hi (Nat.succ_ne_zero column)
    hcolumn (h.above i (Nat.lt_succ_self i))
  refine ⟨_, ?_, hfilled⟩
  simp only [Knapsack.fillCell, hcell, hrow, Option.bind_eq_bind,
    Option.bind_some]
  rw [if_pos hlength]

/-- A pass in which nothing overflows fills one more column with what it
should. -/
theorem Filled.of_fillCell {dp next : List (List ℤ)}
    (hitems : ∀ item ∈ items, 0 ≤ item.weight) {i column : ℕ}
    (hi : i < items.length) (hcolumn : column < W)
    (h : Filled items W (i + 1) column dp)
    (hbefore : entry (items.take i).reverse (column + 1) < 2 ^ 31)
    (hnext : Knapsack.fillCell checked32 (items.map Item.weight)
      (items.map Item.value) dp (i + 1) (column + 1) = some next) :
    Filled items W (i + 1) (column + 1) next ∧
      entry (items.take (i + 1)).reverse (column + 1) < 2 ^ 31 := by
  obtain ⟨row, hrow, -⟩ := h.current
  obtain ⟨hlength, hfilled⟩ := h.write hi hcolumn hrow
  obtain ⟨value, hcell, hrest⟩ := Option.bind_eq_some_iff.mp hnext
  obtain ⟨hvalue, hless⟩ := of_cell_eq_some hitems hi
    (Nat.succ_ne_zero column) hcolumn (h.above i (Nat.lt_succ_self i)) hbefore
    hcell
  rw [hrow, Option.bind_eq_bind, Option.bind_some, if_pos hlength] at hrest
  obtain rfl := Option.some.inj hrest
  rw [← hvalue]
  exact ⟨by rwa [hvalue], hless⟩

/-- The table after `i` passes of the outer loop. -/
structure RowsFilled (items : List Item) (W i : ℕ) (dp : List (List ℤ)) :
    Prop where
  length_eq : dp.length = items.length + 1
  done : ∀ row ≤ i, dp[row]? = some (tableRow items W row)
  below : ∀ row, i < row → row ≤ items.length →
    dp[row]? = some (List.replicate (W + 1) 0)

theorem rowsFilled_start :
    RowsFilled items W 0
      (List.replicate (items.length + 1) (List.replicate (W + 1) 0)) where
  length_eq := List.length_replicate
  done := by
    intro row hrow
    obtain rfl : row = 0 := Nat.le_zero.mp hrow
    have hzeros : tableRow items W 0 = List.replicate (W + 1) 0 := by
      rw [tableRow, List.eq_replicate_iff]
      simp [entry]
    rw [List.getElem?_replicate, if_pos (by omega), hzeros]
  below := by
    intro row _ hrow
    rw [List.getElem?_replicate, if_pos (by omega)]

theorem RowsFilled.filled {dp : List (List ℤ)} {i : ℕ}
    (hi : i < items.length) (h : RowsFilled items W i dp) :
    Filled items W (i + 1) 0 dp where
  length_eq := h.length_eq
  above := fun row hrow => h.done row (Nat.lt_succ_iff.mp hrow)
  current := by
    refine ⟨_, h.below (i + 1) (Nat.lt_succ_self i) hi,
      List.length_replicate, ?_, ?_⟩
    · intro j hj
      obtain rfl : j = 0 := Nat.le_zero.mp hj
      rw [entry_zero, List.getElem?_replicate, if_pos (by omega)]
    · intro j _ hj
      rw [List.getElem?_replicate, if_pos (by omega)]
  below := fun row hrow => h.below row (by omega)

theorem Filled.rowsFilled {dp : List (List ℤ)} {i : ℕ}
    (h : Filled items W (i + 1) W dp) : RowsFilled items W (i + 1) dp where
  length_eq := h.length_eq
  done := by
    intro other hother
    rcases Nat.lt_or_ge other (i + 1) with hbefore | hlast
    · exact h.above other hbefore
    · obtain rfl : other = i + 1 := by omega
      obtain ⟨row, hrow, hlength, hdone, -⟩ := h.current
      rw [hrow, Option.some.injEq]
      apply List.ext_getElem?
      intro j
      rcases Nat.lt_or_ge j (W + 1) with hin | hout
      · rw [hdone j (by omega), tableRow_getElem? (by omega)]
      · rw [List.getElem?_eq_none (by omega), List.getElem?_eq_none]
        simpa [tableRow] using hout
  below := h.below

theorem RowsFilled.read {dp : List (List ℤ)}
    (h : RowsFilled items W items.length dp) :
    ((Segment.read dp items.length).bind fun row => Segment.read row W) =
      some (entry items.reverse W) := by
  rw [read_natCast, h.done items.length le_rfl, Option.bind_some, read_natCast,
    tableRow_getElem? le_rfl, List.take_length]

/-- The table is made if the greatest `int` is not met. -/
theorem knapsackOf_eq_bind (hint : IntArithmetic int)
    (hcapacity : W + 1 < 2 ^ 31) (hlength : items.length + 1 < 2 ^ 31) :
    knapsackOf int W items =
      (forRange items.length (fun dp index => forRange W (fun dp column =>
        fillCell int (items.map Item.weight) (items.map Item.value) dp
          (index + 1) (column + 1)) dp)
        (List.replicate (items.length + 1) (List.replicate (W + 1) 0))).bind
        fun dp => (Segment.read dp items.length).bind fun row =>
          Segment.read row W := by
  have hrows := hint.exact (items.length + 1) (by omega) (by omega)
  have hcolumns := hint.exact (W + 1) (by omega) (by omega)
  have hrowsFilled (row : List ℤ) :
      filled ((items.length : ℤ) + 1) row =
        some (List.replicate (items.length + 1) row) :=
    if_pos (by omega)
  have hcolumnsFilled : filled ((W : ℤ) + 1) (0 : ℤ) =
      some (List.replicate (W + 1) 0) :=
    if_pos (by omega)
  simp only [knapsackOf, knapsack, hrows, hcolumns, hrowsFilled,
    hcolumnsFilled, Option.bind_eq_bind, Option.bind_some, Int.toNat_natCast]

/-- The greatest `int` as capacity or number of items: there is no table. -/
theorem knapsackOf_eq_none (hint : IntArithmetic int)
    (hlarge : W + 1 = 2 ^ 31 ∨ items.length + 1 = 2 ^ 31) :
    knapsackOf int W items = none := by
  have hnone {size : ℤ} {α : Type} (element : α)
      (hsize : int (2 ^ 31) = some size) : filled size element = none :=
    if_neg (hint.overflow size hsize).not_ge
  rw [knapsackOf, knapsack, Option.bind_eq_bind, Option.bind_eq_none_iff]
  intro rows hrows
  rw [Option.bind_eq_bind, Option.bind_eq_none_iff]
  intro columns hcolumns
  rw [Option.bind_eq_bind, Option.bind_eq_none_iff]
  intro zeros hzeros
  rcases hlarge with hcapacity | hlength
  · rw [show (W : ℤ) + 1 = 2 ^ 31 by exact_mod_cast hcapacity] at hcolumns
    rw [hnone 0 hcolumns] at hzeros
    exact absurd hzeros.symm (Option.some_ne_none zeros)
  · rw [show (items.length : ℤ) + 1 = 2 ^ 31 by exact_mod_cast hlength]
      at hrows
    rw [hnone zeros hrows]
    rfl

/-- The code computes the last entry of the table.  Without a capacity it forms
no sum. -/
theorem knapsackOf_eq (hint : IntArithmetic int)
    (hsums : W ≠ 0 → SumsFit W items)
    (hitems : ∀ item ∈ items, 0 ≤ item.weight) (hcapacity : W + 1 < 2 ^ 31)
    (hlength : items.length + 1 < 2 ^ 31) :
    knapsackOf int W items = some (entry items.reverse W) := by
  obtain ⟨dp, hdp, hrows⟩ := forRange_invariant (RowsFilled items W)
    rowsFilled_start fun i dp hi h =>
      have hinner := forRange_invariant (Filled items W (i + 1))
        (h.filled hi) fun column dp hcolumn h =>
          h.fillCell hint (hsums (Nat.ne_zero_of_lt hcolumn)) hitems hi
            hcolumn
      let ⟨next, hnext, hfilled⟩ := hinner
      ⟨next, hnext, hfilled.rowsFilled⟩
  rw [knapsackOf_eq_bind hint hcapacity hlength, hdp, Option.bind_some]
  exact hrows.read

/-- Where no sum overflows the code computes the last entry of the table, and it
is of type `int`. -/
theorem of_knapsackOf_eq_some (hitems : ∀ item ∈ items, 0 ≤ item.weight)
    (hcapacity : W + 1 < 2 ^ 31) (hlength : items.length + 1 < 2 ^ 31)
    {result : ℤ} (hresult : knapsackOf checked32 W items = some result) :
    result = entry items.reverse W ∧ result < 2 ^ 31 := by
  rw [knapsackOf_eq_bind intArithmetic_checked32 hcapacity hlength] at hresult
  obtain ⟨dp, hdp, hread⟩ := Option.bind_eq_some_iff.mp hresult
  obtain ⟨hrows, hless⟩ := of_forRange_eq_some
    (fun i dp => RowsFilled items W i dp ∧
      ∀ j ≤ W, entry (items.take i).reverse j < 2 ^ 31)
    ⟨rowsFilled_start, fun _ _ => by simp [entry]⟩
    (fun i dp next hi ⟨hdone, hless⟩ hnext => by
      obtain ⟨hfilled, hrow⟩ := of_forRange_eq_some
        (fun column dp => Filled items W (i + 1) column dp ∧
          ∀ j ≤ column, entry (items.take (i + 1)).reverse j < 2 ^ 31)
        ⟨hdone.filled hi, fun j hj => by
          rw [Nat.le_zero.mp hj, entry_zero]
          decide⟩
        (fun column dp next hcolumn ⟨hfilled, hrow⟩ hcell => by
          obtain ⟨hmore, hlast⟩ := hfilled.of_fillCell hitems hi hcolumn
            (hless _ hcolumn) hcell
          refine ⟨hmore, fun j hj => ?_⟩
          rcases Nat.le_succ_iff.mp hj with hbefore | rfl
          · exact hrow j hbefore
          · exact hlast) hnext
      exact ⟨hfilled.rowsFilled, hrow⟩) hdp
  rw [hrows.read] at hread
  obtain rfl := Option.some.inj hread
  have hlast := hless W le_rfl
  rw [List.take_length] at hlast
  exact ⟨rfl, hlast⟩

/-! ## Selections and the order of the items -/

theorem totalWeight_perm {left right : List Item} (h : left.Perm right) :
    totalWeight left = totalWeight right :=
  (h.map Item.weight).sum_eq

theorem totalValue_perm {left right : List Item} (h : left.Perm right) :
    totalValue left = totalValue right :=
  (h.map Item.value).sum_eq

/-- A selection is also one of the items in any other order. -/
theorem exists_sublist_of_perm {chosen permuted : List Item}
    (hsub : chosen.Sublist items) (hperm : items.Perm permuted) :
    ∃ same : List Item, same.Sublist permuted ∧ same.Perm chosen := by
  obtain ⟨same, hsame, hsublist⟩ := hsub.subperm.trans hperm.subperm
  exact ⟨same, hsublist, hsame⟩

def fittingValues (W : ℕ) (items : List Item) : Set ℤ :=
  { total | ∃ chosen : List Item, chosen.Sublist items ∧
      totalWeight chosen ≤ W ∧ totalValue chosen = total }

theorem fittingValues_perm {permuted : List Item}
    (hperm : items.Perm permuted) :
    fittingValues W items ⊆ fittingValues W permuted := by
  rintro total ⟨chosen, hsub, hweight, htotal⟩
  obtain ⟨same, hsublist, hsame⟩ := exists_sublist_of_perm hsub hperm
  exact ⟨same, hsublist, (totalWeight_perm hsame).trans_le hweight,
    (totalValue_perm hsame).trans htotal⟩

/-- An entry that no selection exceeds is the greatest value. -/
theorem entry_isGreatest
    (hbound : ∀ chosen : List Item, chosen.Sublist items →
      totalWeight chosen ≤ W → totalValue chosen ≤ entry items W) :
    IsGreatest (fittingValues W items) (entry items W) := by
  obtain ⟨best, hsub, hweight, hvalue, -⟩ := exists_chosen items W
  refine ⟨⟨best, hsub, hweight, hvalue⟩, ?_⟩
  rintro total ⟨chosen, hsub, hweight, rfl⟩
  exact hbound chosen hsub hweight

/-- `knapsack` finds the greatest value of a selection that fits, unless the
capacity or the number of items is the greatest `int`. -/
theorem knapsack_isGreatest_iff (int : ℤ → Option ℤ) (hint : IntArithmetic int)
    (items : List Item) (W : ℕ) (hcapacity : W < 2 ^ 31)
    (hlength : items.length < 2 ^ 31)
    (hweights : ∀ item ∈ items, 1 ≤ item.weight) (hsums : SumsFit W items) :
    (∃ best, knapsackOf int W items = some best ∧
        IsGreatest (fittingValues W items) best) ↔
      W ≠ 2 ^ 31 - 1 ∧ items.length ≠ 2 ^ 31 - 1 := by
  have hnonneg : ∀ item ∈ items, 0 ≤ item.weight := fun item hitem =>
    (Int.zero_lt_one.trans_le (hweights item hitem)).le
  have hreversed : IsGreatest (fittingValues W items.reverse)
      (entry items.reverse W) := by
    apply entry_isGreatest
    intro chosen hsub hweight
    have hchosen : ∀ item ∈ chosen, 1 ≤ item.weight := fun item hitem =>
      hweights item (List.mem_reverse.mp (hsub.subset hitem))
    exact totalValue_le_entry (by simpa using hnonneg) hsub hweight
      (.inr hchosen)
  have hperm := List.reverse_perm items
  constructor
  · rintro ⟨best, hbest, -⟩
    by_contra hlarge
    have hnone := @knapsackOf_eq_none _ items W hint (by omega)
    exact Option.some_ne_none best (hbest.symm.trans hnone)
  · rintro ⟨hW, hn⟩
    refine ⟨entry items.reverse W, knapsackOf_eq hint (fun _ => hsums) hnonneg
      (by omega) (by omega), ?_⟩
    exact ⟨fittingValues_perm hperm hreversed.1,
      fun total htotal => hreversed.2 (fittingValues_perm hperm.symm htotal)⟩

/-- The three items of the program's own demonstration. -/
theorem knapsack_isGreatest_iff_three_items :
    let items : List Item := [⟨10, 60⟩, ⟨20, 100⟩, ⟨30, 120⟩]
    knapsackOf wrapping32 50 items = some 220 ∧
      IsGreatest (fittingValues 50 items) 220 := by
  intro items
  have hresult : knapsackOf wrapping32 50 items = some 220 := by
    decide +kernel
  have hsums : ∀ chosen ∈ items.sublists, totalWeight chosen ≤ 50 →
      -2 ^ 31 ≤ totalValue chosen ∧ totalValue chosen < 2 ^ 31 := by
    decide +kernel
  obtain ⟨best, hbest, hgreatest⟩ :=
    (knapsack_isGreatest_iff wrapping32 intArithmetic_wrapping32 items 50
      (by decide) (by decide) (by decide)
      (fun chosen hsub => hsums chosen (List.mem_sublists.mpr hsub))).mpr
      ⟨by decide, by decide⟩
  rw [hresult, Option.some.injEq] at hbest
  exact ⟨hresult, hbest ▸ hgreatest⟩

/-- One item, and the greatest `int` as capacity: the rows of the table would
have a negative length. -/
theorem knapsack_throws :
    ¬ ∀ (items : List Item) (W : ℕ), W < 2 ^ 31 → items.length < 2 ^ 31 →
      (∀ item ∈ items, 1 ≤ item.weight) → SumsFit W items →
      ∃ best, knapsackOf wrapping32 W items = some best ∧
        IsGreatest (fittingValues W items) best := by
  intro hall
  have hsums : ∀ chosen ∈ List.sublists [Item.mk 1 1],
      -2 ^ 31 ≤ totalValue chosen ∧ totalValue chosen < 2 ^ 31 := by
    decide +kernel
  obtain ⟨best, hbest, -⟩ := hall [⟨1, 1⟩] (2 ^ 31 - 1) (by decide) (by decide)
    (by decide) fun chosen hsub _ =>
      hsums chosen (List.mem_sublists.mpr hsub)
  have hnone : knapsackOf wrapping32 (2 ^ 31 - 1) [⟨1, 1⟩] = none :=
    knapsackOf_eq_none intArithmetic_wrapping32 (Or.inl (by decide))
  exact Option.some_ne_none best (hbest.symm.trans hnone)

end KataCpp.Knapsack
