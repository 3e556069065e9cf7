import KataCpp.Algorithm.Knapsack

/-!
# The order of the items

A selection that fills the knapsack exactly loses the weightless items that
stand before its first other item, since column zero of the table is never
filled.  With the weightless items first it loses all of them, with these last
none.  So the order does not matter exactly when no such selection is needed,
or nothing is lost.  The last entry is one of the sums that are formed, and so
it must not overflow in any order.
-/

namespace KataCpp.Knapsack

open MachineInt

variable {items : List Item} {W : ℕ}

section Order

variable {zeros positives chosen : List Item} {j : ℕ}

/-- With the weightless items first in the list, a selection that fills the
knapsack has none of them. -/
theorem exists_chosen_of_zeros_first
    (hzeros : ∀ item ∈ zeros, item.weight = 0) (j : ℕ) :
    ∃ chosen : List Item, chosen.Sublist (positives ++ zeros) ∧
      totalWeight chosen ≤ j ∧
      totalValue chosen = entry (positives ++ zeros) j ∧
      (totalWeight chosen = j → chosen.Sublist positives) := by
  obtain ⟨chosen, hsub, hweight, hvalue, hlast⟩ :=
    exists_chosen (positives ++ zeros) j
  refine ⟨chosen, hsub, hweight, hvalue, fun hfull => ?_⟩
  obtain ⟨left, right, rfl, hleft, hright⟩ := List.sublist_append_iff.mp hsub
  cases hend : right.getLast? with
  | none =>
      rw [List.getLast?_eq_none_iff] at hend
      rwa [hend, List.append_nil]
  | some item =>
      have hmem : item ∈ (left ++ right).getLast? := by
        rw [List.getLast?_append, hend]
        rfl
      have hzero := hzeros item
        (hright.subset (List.mem_of_getLast? hend))
      exact absurd hzero (hlast hfull item hmem)

/-- With the weightless items last in the list, all of them are counted. -/
theorem totalValue_le_entry_of_zeros_last
    (hzeros : ∀ item ∈ zeros, item.weight = 0)
    (hpositives : ∀ item ∈ positives, 1 ≤ item.weight) (hj : j ≠ 0)
    (hsub : chosen.Sublist (zeros ++ positives))
    (hweight : totalWeight chosen ≤ j) :
    totalValue chosen ≤ entry (zeros ++ positives) j := by
  induction zeros generalizing chosen with
  | nil =>
      have hnonneg : ∀ item ∈ positives, 0 ≤ item.weight := fun item hitem =>
        (Int.zero_lt_one.trans_le (hpositives item hitem)).le
      exact totalValue_le_entry hnonneg hsub hweight
        (.inr fun item hitem => hpositives item (hsub.subset hitem))
  | cons item zeros ih =>
      have hothers : ∀ item ∈ zeros, item.weight = 0 := fun item hitem =>
        hzeros item (List.mem_cons_of_mem _ hitem)
      have hzero := hzeros item List.mem_cons_self
      rw [List.cons_append] at hsub ⊢
      rcases List.sublist_cons_iff.mp hsub with hskip | ⟨rest, rfl, hrest⟩
      · exact (ih hothers hskip hweight).trans (entry_cons_le item _ hj)
      · rw [totalWeight_cons, hzero, zero_add] at hweight
        have hless := entry_rest_le (zeros ++ positives) hj
          (show item.weight ≤ j by omega)
        rw [hzero, sub_zero, Int.toNat_natCast] at hless
        rw [totalValue_cons]
        have hih := ih hothers hrest hweight
        omega

end Order

/-- The capacity is zero, or the weightless items are worth nothing, or some
best selection does not fill the knapsack. -/
def OrderFree (W : ℕ) (items : List Item) : Prop :=
  W = 0 ∨ (∀ item ∈ items, item.weight = 0 → item.value = 0) ∨
    ∃ chosen : List Item, chosen.Sublist items ∧ totalWeight chosen < W ∧
      ∀ other : List Item, other.Sublist items → totalWeight other ≤ W →
        totalValue other ≤ totalValue chosen

/-- Items that count nothing can be left out of a sum. -/
theorem sum_map_filter_weight (f : Item → ℤ) {chosen : List Item}
    (hzero : ∀ item ∈ chosen, item.weight = 0 → f item = 0) :
    ((chosen.filter (·.weight ≠ 0)).map f).sum = (chosen.map f).sum := by
  induction chosen with
  | nil => rfl
  | cons item rest ih =>
      have hrest := ih fun other hother =>
        hzero other (List.mem_cons_of_mem _ hother)
      by_cases hweight : item.weight = 0
      · have hnothing := hzero item List.mem_cons_self hweight
        simp [hweight, hnothing, ← hrest]
      · simp [hweight, ← hrest]

/-- In every order of the items the entry is the greatest value. -/
theorem OrderFree.entry_isGreatest {order : List Item} (h : OrderFree W items)
    (hW : W ≠ 0) (horder : items.Perm order)
    (hweights : ∀ item ∈ order, 0 ≤ item.weight) :
    IsGreatest (fittingValues W order) (entry order W) := by
  apply Knapsack.entry_isGreatest
  intro other hother hfits
  rcases h with rfl | hworthless | ⟨chosen, hchosen, hroom, hbest⟩
  · exact absurd rfl hW
  · -- Without its weightless items the selection is worth the same.
    have hnothing : ∀ item ∈ other, item.weight = 0 → item.value = 0 :=
      fun item hitem =>
        hworthless item (horder.mem_iff.mpr (hother.subset hitem))
    have hvalue : totalValue (other.filter (·.weight ≠ 0)) =
        totalValue other := sum_map_filter_weight Item.value hnothing
    have hweight : totalWeight (other.filter (·.weight ≠ 0)) =
        totalWeight other :=
      sum_map_filter_weight Item.weight fun _ _ hzero => hzero
    rw [← hvalue]
    apply totalValue_le_entry hweights
      ((List.filter_sublist).trans hother) (hweight.trans_le hfits)
    right
    intro item hitem
    obtain ⟨hmem, hheavy⟩ := List.mem_filter.mp hitem
    have hnonneg := hweights item (hother.subset hmem)
    have hne : item.weight ≠ 0 := by simpa using hheavy
    omega
  · obtain ⟨same, hsame, hperm⟩ := exists_sublist_of_perm hchosen horder
    obtain ⟨back, hback, hpermBack⟩ :=
      exists_sublist_of_perm hother horder.symm
    calc
      totalValue other = totalValue back := (totalValue_perm hpermBack).symm
      _ ≤ totalValue chosen :=
          hbest back hback ((totalWeight_perm hpermBack).trans_le hfits)
      _ = totalValue same := (totalValue_perm hperm).symm
      _ ≤ entry order W := by
          have hless : totalWeight same < W :=
            (totalWeight_perm hperm).trans_lt hroom
          exact totalValue_le_entry hweights hsame hless.le (.inl hless)

theorem OrderFree.perm {order : List Item} (h : OrderFree W items)
    (horder : items.Perm order) : OrderFree W order := by
  rcases h with hzero | hworthless | ⟨chosen, hchosen, hroom, hbest⟩
  · exact .inl hzero
  · exact .inr (.inl fun item hitem =>
      hworthless item (horder.mem_iff.mpr hitem))
  · obtain ⟨same, hsame, hperm⟩ := exists_sublist_of_perm hchosen horder
    refine .inr (.inr ⟨same, hsame, ?_, ?_⟩)
    · rwa [totalWeight_perm hperm]
    · intro other hother hfits
      obtain ⟨back, hback, hpermBack⟩ :=
        exists_sublist_of_perm hother horder.symm
      rw [totalValue_perm hperm, ← totalValue_perm hpermBack]
      rw [← totalWeight_perm hpermBack] at hfits
      exact hbest back hback hfits

/-- The weightless items and the others. -/
theorem filter_weight_perm (items : List Item) :
    (items.filter (·.weight = 0) ++ items.filter (·.weight ≠ 0)).Perm
      items := by
  simpa using List.filter_append_perm (·.weight = 0) items

/-- If the order matters nowhere, then the weightless items are counted even
when they come first. -/
theorem orderFree_of_entry_eq {zeros positives : List Item}
    (hzeros : ∀ item ∈ zeros, item.weight = 0)
    (hpositives : ∀ item ∈ positives, 1 ≤ item.weight)
    (hvalues : ∀ item ∈ zeros, 0 ≤ item.value)
    (hsame : entry (positives ++ zeros) W = entry (zeros ++ positives) W) :
    OrderFree W (zeros ++ positives) := by
  by_cases hW : W = 0
  · exact .inl hW
  by_cases hworthless : ∀ item ∈ zeros, item.value = 0
  · refine .inr (.inl fun item hitem hzero => ?_)
    rcases List.mem_append.mp hitem with hin | hin
    · exact hworthless item hin
    · have hone := hpositives item hin
      omega
  push Not at hworthless
  obtain ⟨extra, hextra, hvalue⟩ := hworthless
  obtain ⟨chosen, hsub, hweight, htotal, hfull⟩ :=
    exists_chosen_of_zeros_first hzeros W
  have hbound : ∀ other : List Item, other.Sublist (zeros ++ positives) →
      totalWeight other ≤ W → totalValue other ≤ totalValue chosen := by
    intro other hother hfits
    rw [htotal, hsame]
    exact totalValue_le_entry_of_zeros_last hzeros hpositives hW hother hfits
  rcases hweight.lt_or_eq with hroom | hexact
  · obtain ⟨same, hsublist, hperm⟩ :=
      exists_sublist_of_perm hsub List.perm_append_comm
    refine .inr (.inr ⟨same, hsublist, ?_, ?_⟩)
    · rwa [totalWeight_perm hperm]
    · rwa [totalValue_perm hperm]
  · -- One more item that weighs nothing would have been worth something.
    have hmore : (extra :: chosen).Sublist (zeros ++ positives) :=
      (List.singleton_sublist.mpr hextra).append (hfull hexact)
    have hgain := hbound _ hmore (by
      rw [totalWeight_cons, hzeros extra hextra, zero_add]
      exact hweight)
    rw [totalValue_cons] at hgain
    have hnonneg := hvalues extra hextra
    omega

theorem SumsFit.perm {order : List Item} (h : SumsFit W items)
    (horder : items.Perm order) : SumsFit W order := by
  intro chosen hsub hweight
  obtain ⟨same, hsame, hperm⟩ := exists_sublist_of_perm hsub horder.symm
  rw [← totalValue_perm hperm]
  exact h same hsame ((totalWeight_perm hperm).trans_le hweight)

/-- If the entry of every order is of type `int`, then so are the values of all
selections that fit. -/
theorem OrderFree.sumsFit {order : List Item} (h : OrderFree W items)
    (hW : W ≠ 0) (horder : items.Perm order)
    (hweights : ∀ item ∈ items, 0 ≤ item.weight)
    (hvalues : ∀ item ∈ items, 0 ≤ item.value)
    (hentry : entry order W < 2 ^ 31) : SumsFit W items := by
  intro chosen hsub hweight
  obtain ⟨-, hupper⟩ := h.entry_isGreatest hW horder fun item hitem =>
    hweights item (horder.mem_iff.mpr hitem)
  have hmem : totalValue chosen ∈ fittingValues W order :=
    fittingValues_perm horder ⟨chosen, hsub, hweight, rfl⟩
  have hnonneg : 0 ≤ totalValue chosen := by
    apply List.sum_nonneg
    intro value hvalue
    obtain ⟨item, hitem, rfl⟩ := List.mem_map.mp hvalue
    exact hvalues item (hsub.subset hitem)
  exact ⟨by omega, (hupper hmem).trans_lt hentry⟩

/-- When the order matters nowhere and no sum overflows, every order gives the
entry of the given one. -/
theorem knapsackOf_perm {int : ℤ → Option ℤ} (hint : IntArithmetic int)
    (hcapacity : W + 1 < 2 ^ 31) (hlength : items.length + 1 < 2 ^ 31)
    (hweights : ∀ item ∈ items, 0 ≤ item.weight) (hfree : OrderFree W items)
    (hsums : W = 0 ∨ SumsFit W items) {permuted : List Item}
    (hperm : permuted.Perm items) :
    knapsackOf int W permuted = some (entry items.reverse W) := by
  have horder : items.Perm permuted := hperm.symm
  rw [knapsackOf_eq hint (fun hW => (hsums.resolve_left hW).perm horder)
    (fun item hitem => hweights item (hperm.mem_iff.mp hitem)) hcapacity
    (by rwa [hperm.length_eq])]
  by_cases hW : W = 0
  · rw [hW, entry_zero, entry_zero]
  have hgreatest : ∀ {order : List Item}, items.Perm order →
      IsGreatest (fittingValues W order) (entry order W) :=
    fun horder => hfree.entry_isGreatest hW horder fun item hitem =>
      hweights item (horder.mem_iff.mpr hitem)
  have hleft := hgreatest (horder.trans permuted.reverse_perm.symm)
  have hright := hgreatest items.reverse_perm.symm
  have horders : permuted.reverse.Perm items.reverse :=
    permuted.reverse_perm.trans (hperm.trans items.reverse_perm.symm)
  have hvalues : fittingValues W permuted.reverse =
      fittingValues W items.reverse :=
    Set.Subset.antisymm (fittingValues_perm horders)
      (fittingValues_perm horders.symm)
  rw [hvalues] at hleft
  rw [hleft.unique hright]

/-- When the greatest values are the same in all orders, as they are with the
items without weight first and last, the order matters nowhere. -/
theorem orderFree_of_entry_perm {result : ℤ}
    (hweights : ∀ item ∈ items, 0 ≤ item.weight)
    (hvalues : ∀ item ∈ items, 0 ≤ item.value)
    (hentry : ∀ permuted : List Item, permuted.Perm items →
      result = entry permuted.reverse W) :
    OrderFree W items := by
  let zeros := items.filter (·.weight = 0)
  let positives := items.filter (·.weight ≠ 0)
  have hsplit : (zeros ++ positives).Perm items := filter_weight_perm items
  have hswapped : (positives ++ zeros).Perm items :=
    List.perm_append_comm.trans hsplit
  have hsame := (hentry _ hsplit).symm.trans (hentry _ hswapped)
  rw [List.reverse_append, List.reverse_append] at hsame
  have hzeros : ∀ item ∈ zeros.reverse, item.weight = 0 := by
    simp [zeros]
  have hpositives : ∀ item ∈ positives.reverse, 1 ≤ item.weight := by
    intro item hitem
    obtain ⟨hmem, hheavy⟩ := List.mem_filter.mp (List.mem_reverse.mp hitem)
    have hnonneg := hweights item hmem
    have hne : item.weight ≠ 0 := by simpa using hheavy
    omega
  have hworth : ∀ item ∈ zeros.reverse, 0 ≤ item.value := fun item hitem =>
    hvalues item (List.mem_filter.mp (List.mem_reverse.mp hitem)).1
  have hfree := orderFree_of_entry_eq hzeros hpositives hworth hsame
  rw [← List.reverse_append] at hfree
  exact hfree.perm ((List.reverse_perm _).trans hswapped)

/-- All orders of the items give one result exactly when capacity and number of
items are less than the greatest `int`, no selection that fits is worth more
than an `int` unless the capacity is zero, and the order matters nowhere.  Then
they do so too where sums wrap around. -/
theorem knapsack_perm_iff (items : List Item) (W : ℕ) (hW : W < 2 ^ 31)
    (hlength : items.length < 2 ^ 31)
    (hweights : ∀ item ∈ items, 0 ≤ item.weight)
    (hvalues : ∀ item ∈ items, 0 ≤ item.value) :
    ((∃ result, ∀ permuted : List Item, permuted.Perm items →
        knapsackOf checked32 W permuted = some result) ↔
      (W ≠ 2 ^ 31 - 1 ∧ items.length ≠ 2 ^ 31 - 1) ∧ OrderFree W items ∧
        (W = 0 ∨ SumsFit W items)) ∧
    ((W ≠ 2 ^ 31 - 1 ∧ items.length ≠ 2 ^ 31 - 1) ∧ OrderFree W items ∧
        (W = 0 ∨ SumsFit W items) →
      ∃ result, ∀ permuted : List Item, permuted.Perm items →
        knapsackOf wrapping32 W permuted = some result) := by
  have hback : ∀ {int : ℤ → Option ℤ}, IntArithmetic int →
      (W ≠ 2 ^ 31 - 1 ∧ items.length ≠ 2 ^ 31 - 1) ∧ OrderFree W items ∧
        (W = 0 ∨ SumsFit W items) →
      ∃ result, ∀ permuted : List Item, permuted.Perm items →
        knapsackOf int W permuted = some result := by
    rintro int hint ⟨⟨hcapacity, hn⟩, hfree, hsums⟩
    exact ⟨_, fun permuted hperm => knapsackOf_perm hint (by omega) (by omega)
      hweights hfree hsums hperm⟩
  refine ⟨⟨?_, hback intArithmetic_checked32⟩, hback intArithmetic_wrapping32⟩
  rintro ⟨result, hall⟩
  have hlarge : W ≠ 2 ^ 31 - 1 ∧ items.length ≠ 2 ^ 31 - 1 := by
    by_contra hlarge
    have hnone := @knapsackOf_eq_none _ items W
      intArithmetic_checked32 (by omega)
    have hresult := hall items (List.Perm.refl items)
    exact Option.some_ne_none result (hresult.symm.trans hnone)
  have hentry : ∀ {permuted : List Item}, permuted.Perm items →
      result = entry permuted.reverse W ∧ result < 2 ^ 31 := fun hperm =>
    of_knapsackOf_eq_some
      (fun item hitem => hweights item (hperm.mem_iff.mp hitem)) (by omega)
      (by rw [hperm.length_eq]; omega) (hall _ hperm)
  have hfree : OrderFree W items :=
    orderFree_of_entry_perm hweights hvalues fun _ hperm => (hentry hperm).1
  obtain ⟨hresult, hless⟩ := hentry (List.Perm.refl items)
  refine ⟨hlarge, hfree, or_iff_not_imp_left.mpr fun hpositive => ?_⟩
  exact hfree.sumsFit hpositive items.reverse_perm.symm hweights hvalues
    (hresult ▸ hless)

/-- Two items that weigh something: the order does not matter. -/
theorem knapsack_perm_of_two_items :
    knapsackOf checked32 5 [⟨3, 7⟩, ⟨2, 4⟩] =
      knapsackOf checked32 5 [⟨2, 4⟩, ⟨3, 7⟩] := by
  have hsums : ∀ chosen ∈ List.sublists [Item.mk 2 4, ⟨3, 7⟩],
      -2 ^ 31 ≤ totalValue chosen ∧ totalValue chosen < 2 ^ 31 := by
    decide +kernel
  have hfree : OrderFree 5 [⟨2, 4⟩, ⟨3, 7⟩] := .inr (.inl (by decide))
  obtain ⟨result, hresult⟩ :=
    (knapsack_perm_iff [⟨2, 4⟩, ⟨3, 7⟩] 5 (by decide) (by decide) (by decide)
      (by decide)).1.mpr ⟨by decide, hfree, .inr fun chosen hsub _ =>
        hsums chosen (List.mem_sublists.mpr hsub)⟩
  exact (hresult _ (List.Perm.swap _ _ _)).trans
    (hresult _ (List.Perm.refl _)).symm

/-- A weightless item of value five and an item of weight one and value ten,
with capacity one: ten in this order, fifteen in the other. -/
theorem knapsack_depends_on_order :
    ¬ ∀ (items : List Item) (W : ℕ), W < 2 ^ 31 → items.length < 2 ^ 31 →
      (∀ item ∈ items, 0 ≤ item.weight) → (∀ item ∈ items, 0 ≤ item.value) →
      ∀ permuted : List Item, permuted.Perm items →
        knapsackOf checked32 W permuted = knapsackOf checked32 W items := by
  intro hall
  have hsame := hall [⟨0, 5⟩, ⟨1, 10⟩] 1 (by decide) (by decide) (by decide)
    (by decide) [⟨1, 10⟩, ⟨0, 5⟩] (List.Perm.swap _ _ _)
  revert hsame
  decide +kernel

end KataCpp.Knapsack
