import KataCpp.Core.Bytes
import KataCpp.Core.Iteration
import KataCpp.Core.MachineInt

/-!
# Palindromes with one character too many

`validPalindrome` compares the characters of a text from its two ends.  At the
first pair that differs it leaves out one of the two and asks whether the rest
is a palindrome; no other character needs to be tried.

The last position is computed as an `int`.  For texts of more than `2 ^ 31`
characters it is not the last position any more, and only the characters up to
it are looked at.
-/

namespace KataCpp.Palindrome

open Bytes Iteration MachineInt

/-- A pass of the loop in `isPalindrome`, on `left` and `right`. -/
def isPalindromePass (str : ByteString) (ends : ℤ × ℤ) :
    Outcome (ℤ × ℤ) Bool :=
  if ends.1 < ends.2 then
    match charAt str ends.1, charAt str ends.2 with
    | some x, some y =>
        if x ≠ y then .exit false
        else .next (wrap32 (ends.1 + 1), wrap32 (ends.2 - 1))
    | _, _ => .fault
  else .exit true

def isPalindrome (str : ByteString) (left right : ℤ) (fuel : ℕ) :
    Option Bool :=
  loop (isPalindromePass str) fuel (left, right)

/-- A pass of the loop in `validPalindrome`; it is left with the first pair of
positions whose characters differ, if there is one. -/
def validPalindromePass (str : ByteString) (ends : ℤ × ℤ) :
    Outcome (ℤ × ℤ) (Option (ℤ × ℤ)) :=
  if ends.1 < ends.2 then
    match charAt str ends.1, charAt str ends.2 with
    | some x, some y =>
        if x ≠ y then .exit (some ends)
        else .next (wrap32 (ends.1 + 1), wrap32 (ends.2 - 1))
    | _, _ => .fault
  else .exit none

/-- The two calls at the first pair that differs. -/
def withoutOne (str : ByteString) (ends : ℤ × ℤ) (fuel : ℕ) : Option Bool := do
  let withoutLeft ← isPalindrome str (wrap32 (ends.1 + 1)) ends.2 fuel
  if withoutLeft then
    return true
  else
    isPalindrome str ends.1 (wrap32 (ends.2 - 1)) fuel

def validPalindrome (str : ByteString) (fuel : ℕ) : Option Bool := do
  let mismatch ← loop (validPalindromePass str) fuel
    (0, wrap32 (str.length - 1))
  match mismatch with
  | none => return true
  | some ends => withoutOne str ends fuel

/-! ## Leaving out one character -/

section Lists

variable {α : Type*}

/-- A palindrome, or a text that becomes one when the character at some
position is deleted. -/
def AlmostPalindrome (text : List α) : Prop :=
  text.reverse = text ∨ ∃ position < text.length,
    (text.eraseIdx position).reverse = text.eraseIdx position

variable {text mid : List α} {x y : α}

theorem almostPalindrome_iff_split :
    AlmostPalindrome text ↔ text.reverse = text ∨
      ∃ before char after, text = before ++ char :: after ∧
        (before ++ after).reverse = before ++ after := by
  refine or_congr Iff.rfl ⟨?_, ?_⟩
  · rintro ⟨position, hposition, hpalindrome⟩
    refine ⟨text.take position, text[position], text.drop (position + 1),
      ?_, ?_⟩
    · rw [List.getElem_cons_drop, List.take_append_drop]
    · rwa [← List.eraseIdx_eq_take_drop_succ]
  · rintro ⟨before, char, after, rfl, hpalindrome⟩
    refine ⟨before.length, by simp, ?_⟩
    rwa [List.eraseIdx_append_of_length_le le_rfl, Nat.sub_self,
      List.eraseIdx_cons_zero]

/-- The two ends of a palindrome are equal, and the middle is one. -/
theorem reverse_ends_iff :
    (x :: (mid ++ [y])).reverse = x :: (mid ++ [y]) ↔
      x = y ∧ mid.reverse = mid := by
  rw [List.reverse_cons, List.reverse_append, List.reverse_singleton,
    List.singleton_append, List.cons_append, List.cons.injEq]
  constructor
  · rintro ⟨rfl, hmid⟩
    exact ⟨rfl, List.append_cancel_right hmid⟩
  · rintro ⟨rfl, hmid⟩
    exact ⟨rfl, by rw [hmid]⟩

theorem almostPalindrome_of_split (before after : List α) (char : α)
    (hrest : (before ++ after).reverse = before ++ after) :
    AlmostPalindrome (before ++ char :: after) :=
  almostPalindrome_iff_split.mpr (Or.inr ⟨before, char, after, rfl, hrest⟩)

/-- The ways to leave out one character: an end, or one in the middle. -/
theorem AlmostPalindrome.ends (halmost : AlmostPalindrome (x :: (mid ++ [y]))) :
    (mid ++ [y]).reverse = mid ++ [y] ∨ (x :: mid).reverse = x :: mid ∨
      (x = y ∧ AlmostPalindrome mid) := by
  rcases almostPalindrome_iff_split.mp halmost with
    hwhole | ⟨before, char, after, hsplit, hrest⟩
  · obtain ⟨hxy, hmid⟩ := reverse_ends_iff.mp hwhole
    exact Or.inr (Or.inr ⟨hxy, Or.inl hmid⟩)
  cases before with
  | nil =>
      obtain ⟨-, rfl⟩ := List.cons.inj hsplit
      exact Or.inl hrest
  | cons first before =>
      obtain ⟨rfl, htail⟩ := List.cons.inj hsplit
      rcases List.eq_nil_or_concat after with rfl | ⟨after, last, rfl⟩
      · obtain ⟨rfl, -⟩ := List.append_inj' htail rfl
        rw [List.append_nil] at hrest
        exact Or.inr (Or.inl hrest)
      · rw [List.concat_eq_append] at htail hrest
        have hmid : mid ++ [y] = (before ++ char :: after) ++ [last] := by
          simpa using htail
        obtain ⟨rfl, hlast⟩ := List.append_inj' hmid rfl
        obtain rfl := List.singleton_inj.mp hlast
        rw [List.cons_append, ← List.append_assoc] at hrest
        obtain ⟨hxy, hpalindrome⟩ := reverse_ends_iff.mp hrest
        exact Or.inr (Or.inr ⟨hxy, almostPalindrome_of_split _ _ _ hpalindrome⟩)

/-- Ends that differ: one of them has to go. -/
theorem almostPalindrome_of_ne_iff (hxy : x ≠ y) :
    AlmostPalindrome (x :: (mid ++ [y])) ↔
      (mid ++ [y]).reverse = mid ++ [y] ∨ (x :: mid).reverse = x :: mid := by
  constructor
  · intro halmost
    rcases halmost.ends with hleft | hright | ⟨heq, -⟩
    · exact Or.inl hleft
    · exact Or.inr hright
    · exact absurd heq hxy
  · rintro (hleft | hright)
    · exact almostPalindrome_of_split [] _ x hleft
    · rw [← List.cons_append]
      exact almostPalindrome_of_split _ [] _ (by rwa [List.append_nil])

/-- Equal ends: nothing is lost by keeping both of them. -/
theorem almostPalindrome_of_eq_iff :
    AlmostPalindrome (x :: (mid ++ [x])) ↔ AlmostPalindrome mid := by
  constructor
  · intro halmost
    rcases halmost.ends with hleft | hright | ⟨-, hmid⟩
    · cases mid with
      | nil => exact Or.inl rfl
      | cons first rest =>
          -- The first character of the middle can go in place of the end.
          have hrest := (reverse_ends_iff.mp hleft).2
          exact almostPalindrome_of_split [] rest first hrest
    · rcases List.eq_nil_or_concat mid with rfl | ⟨rest, last, rfl⟩
      · exact Or.inl rfl
      · rw [List.concat_eq_append] at hright ⊢
        have hrest := (reverse_ends_iff.mp hright).2
        exact almostPalindrome_of_split _ [] _ (by rwa [List.append_nil])
    · exact hmid
  · intro halmost
    rcases almostPalindrome_iff_split.mp halmost with
      hmid | ⟨before, char, after, rfl, hrest⟩
    · exact Or.inl (reverse_ends_iff.mpr ⟨rfl, hmid⟩)
    · have hends := reverse_ends_iff.mpr ⟨Eq.refl x, hrest⟩
      have hwhole : ((x :: before) ++ (after ++ [x])).reverse =
          (x :: before) ++ (after ++ [x]) := by
        simpa using hends
      simpa using almostPalindrome_of_split _ _ char hwhole

end Lists

def Spans (str mid : ByteString) (left right : ℤ) : Prop :=
  ∃ before after, str = before ++ (mid ++ after) ∧ left = before.length ∧
    right + 1 = before.length + mid.length ∧
    before.length + mid.length ≤ 2 ^ 31

section Loops

variable {str mid : ByteString} {x y : UInt8} {left right : ℤ}

theorem Spans.not_lt (hspans : Spans str mid left right)
    (hmid : mid.length ≤ 1) : ¬left < right := by
  obtain ⟨before, after, -, hleft, hright, -⟩ := hspans
  omega

/-- The characters at the ends, and what is left without one of them or
without both. -/
structure Spans.Ends (str mid : ByteString) (x y : UInt8) (left right : ℤ) :
    Prop where
  lt : left < right
  charAt_left : charAt str left = some x
  charAt_right : charAt str right = some y
  withoutLeft : Spans str (mid ++ [y]) (wrap32 (left + 1)) right
  withoutRight : Spans str (x :: mid) left (wrap32 (right - 1))
  withoutBoth : Spans str mid (wrap32 (left + 1)) (wrap32 (right - 1))

theorem Spans.ends (hspans : Spans str (x :: (mid ++ [y])) left right) :
    Spans.Ends str mid x y left right := by
  obtain ⟨before, after, hstr, hleft, hright, hlength⟩ := hspans
  rw [List.length_cons, List.length_append, List.length_singleton] at hlength
  simp only [List.length_cons, List.length_append, List.length_nil] at hright
  have hnext : wrap32 (left + 1) = left + 1 :=
    wrap32_eq_self (by omega) (by omega)
  have hprevious : wrap32 (right - 1) = right - 1 :=
    wrap32_eq_self (by omega) (by omega)
  have hstrLeft : str = before ++ x :: (mid ++ y :: after) := by
    rw [hstr, List.cons_append, List.append_assoc, List.singleton_append]
  have hstrRight : str = (before ++ x :: mid) ++ y :: after := by
    rw [hstrLeft, List.append_assoc, List.cons_append]
  refine ⟨by omega, ?_, ?_, ?_, ?_, ?_⟩
  · exact charAt_append_cons hstrLeft hleft (by omega)
  · apply charAt_append_cons hstrRight
    · rw [List.length_append, List.length_cons]
      omega
    · rw [List.length_append, List.length_cons]
      omega
  · refine ⟨before ++ [x], after, ?_, ?_, ?_, ?_⟩
    · rw [hstrLeft, List.append_assoc, List.append_assoc]
      rfl
    all_goals
      simp only [List.length_append, List.length_singleton]
      omega
  · refine ⟨before, y :: after, ?_, hleft, ?_, ?_⟩
    · rw [hstrLeft, List.cons_append]
    all_goals
      rw [List.length_cons]
      omega
  · refine ⟨before ++ [x], y :: after, ?_, ?_, ?_, ?_⟩
    · rw [hstrLeft, List.append_assoc]
      rfl
    all_goals
      rw [List.length_append, List.length_singleton]
      omega

theorem isPalindrome_of_length_le (hspans : Spans str mid left right)
    (hmid : mid.length ≤ 1) : Returns (isPalindrome str left right) true := by
  apply returns_of_exit
  rw [isPalindromePass, if_neg (hspans.not_lt hmid)]

theorem isPalindromePass_ends (hends : Spans.Ends str mid x y left right) :
    isPalindromePass str (left, right) =
      if x ≠ y then .exit false
      else .next (wrap32 (left + 1), wrap32 (right - 1)) := by
  rw [isPalindromePass, if_pos hends.lt]
  simp only [hends.charAt_left, hends.charAt_right]

theorem isPalindrome_returns (hspans : Spans str mid left right) :
    Returns (isPalindrome str left right) (decide (mid.reverse = mid)) := by
  induction mid using List.bidirectionalRec generalizing left right with
  | nil => exact isPalindrome_of_length_le hspans (Nat.zero_le 1)
  | singleton x => simpa using isPalindrome_of_length_le hspans le_rfl
  | cons_append x mid y ih =>
      have hpass := isPalindromePass_ends hspans.ends
      simp only [reverse_ends_iff]
      by_cases hxy : x = y
      · rw [if_neg (not_not_intro hxy)] at hpass
        simp only [hxy, true_and]
        exact returns_of_next hpass (ih hspans.ends.withoutBoth)
      · rw [if_pos hxy] at hpass
        simp only [hxy, false_and, decide_false]
        exact returns_of_exit hpass

/-- What the loop of `validPalindrome` has found out about a text. -/
def Found (str mid : ByteString) : Option (ℤ × ℤ) → Prop
  | none => mid.reverse = mid
  | some (left, right) => ∃ x inner y, x ≠ y ∧
      Spans str (x :: (inner ++ [y])) left right ∧
      (AlmostPalindrome mid ↔ AlmostPalindrome (x :: (inner ++ [y])))

theorem Found.ends {mismatch : Option (ℤ × ℤ)}
    (hfound : Found str mid mismatch) :
    Found str (x :: (mid ++ [x])) mismatch := by
  match mismatch with
  | none => exact reverse_ends_iff.mpr ⟨rfl, hfound⟩
  | some (left, right) =>
      obtain ⟨first, inner, last, hne, hspans, halmost⟩ := hfound
      exact ⟨first, inner, last, hne, hspans,
        almostPalindrome_of_eq_iff.trans halmost⟩

theorem validPalindromePass_ends (hends : Spans.Ends str mid x y left right) :
    validPalindromePass str (left, right) =
      if x ≠ y then .exit (some (left, right))
      else .next (wrap32 (left + 1), wrap32 (right - 1)) := by
  rw [validPalindromePass, if_pos hends.lt]
  simp only [hends.charAt_left, hends.charAt_right]

theorem validPalindromePass_of_not_lt (str : ByteString)
    (hnot : ¬left < right) :
    validPalindromePass str (left, right) = .exit none := by
  rw [validPalindromePass, if_neg hnot]

theorem mismatch_returns (hspans : Spans str mid left right) :
    ∃ mismatch, Returns (loop (validPalindromePass str) · (left, right))
      mismatch ∧ Found str mid mismatch := by
  induction mid using List.bidirectionalRec generalizing left right with
  | nil =>
      have hpass := validPalindromePass_of_not_lt str
        (hspans.not_lt (Nat.zero_le 1))
      exact ⟨none, returns_of_exit hpass, rfl⟩
  | singleton x =>
      have hpass := validPalindromePass_of_not_lt str
        (hspans.not_lt le_rfl)
      exact ⟨none, returns_of_exit hpass, rfl⟩
  | cons_append x mid y ih =>
      have hpass := validPalindromePass_ends hspans.ends
      by_cases hxy : x = y
      · subst hxy
        rw [if_neg (not_not_intro rfl)] at hpass
        obtain ⟨mismatch, hreturns, hfound⟩ := ih hspans.ends.withoutBoth
        exact ⟨mismatch, returns_of_next hpass hreturns, hfound.ends⟩
      · rw [if_pos hxy] at hpass
        exact ⟨some (left, right), returns_of_exit hpass, x, mid, y, hxy,
          hspans, Iff.rfl⟩

/-- The two calls decide whether one of the ends can be left out. -/
theorem withoutOne_returns (hxy : x ≠ y)
    (hspans : Spans str (x :: (mid ++ [y])) left right) :
    ∃ result, Returns (withoutOne str (left, right)) result ∧
      (result = true ↔ AlmostPalindrome (x :: (mid ++ [y]))) := by
  have hleft := isPalindrome_returns hspans.ends.withoutLeft
  have hright := isPalindrome_returns hspans.ends.withoutRight
  rw [almostPalindrome_of_ne_iff hxy]
  by_cases hpalindrome : (mid ++ [y]).reverse = mid ++ [y]
  · rw [decide_eq_true hpalindrome] at hleft
    exact ⟨true, hleft.bind (returns_some true),
      iff_of_true rfl (Or.inl hpalindrome)⟩
  · rw [decide_eq_false hpalindrome] at hleft
    refine ⟨_, hleft.bind hright, ?_⟩
    simp only [hpalindrome, false_or, decide_eq_true_eq]

/-- The characters that the function looks at. -/
def visible (str : ByteString) : ByteString :=
  str.take (wrap32 (str.length - 1) + 1).toNat

/-- Up to `2 ^ 31` characters, these are all of them. -/
theorem visible_eq_self (hlength : str.length ≤ 2 ^ 31) :
    visible str = str := by
  rw [visible, wrap32_eq_self (by omega) (by omega)]
  exact List.take_of_length_le (by omega)

theorem spans_visible (hright : 0 ≤ wrap32 (str.length - 1)) :
    Spans str (visible str) 0 (wrap32 (str.length - 1)) := by
  have hupper := wrap32_lt (str.length - 1)
  have hle : wrap32 ((str.length : ℤ) - 1) ≤ str.length - 1 := by
    rcases Nat.eq_zero_or_pos str.length with hzero | hpos
    · rw [hzero] at hright ⊢
      revert hright
      decide
    · exact wrap32_le (by omega)
  refine ⟨[], str.drop (wrap32 (str.length - 1) + 1).toNat, ?_, rfl, ?_, ?_⟩
  · rw [List.nil_append, visible, List.take_append_drop]
  · rw [visible, List.length_take, List.length_nil]
    omega
  · rw [visible, List.length_take, List.length_nil]
    omega

/-- The function decides the property for the characters it looks at. -/
theorem validPalindrome_returns (str : ByteString) :
    ∃ result, Returns (validPalindrome str) result ∧
      (result = true ↔ AlmostPalindrome (visible str)) := by
  rcases lt_or_ge (wrap32 (str.length - 1)) 0 with hnegative | hright
  · have hpass := validPalindromePass_of_not_lt str hnegative.not_gt
    have hvisible : visible str = [] := by
      rw [visible, Int.toNat_of_nonpos (by omega), List.take_zero]
    refine ⟨true, (returns_of_exit hpass).bind (returns_some true), ?_⟩
    rw [hvisible]
    exact iff_of_true rfl (Or.inl rfl)
  · obtain ⟨mismatch, hmismatch, hfound⟩ :=
      mismatch_returns (spans_visible hright)
    match mismatch with
    | none =>
        exact ⟨true, hmismatch.bind (returns_some true),
          iff_of_true rfl (Or.inl hfound)⟩
    | some (left, right) =>
        obtain ⟨x, inner, y, hxy, hspans, halmost⟩ := hfound
        obtain ⟨result, hresult, hiff⟩ := withoutOne_returns hxy hspans
        exact ⟨result, hmismatch.bind hresult, hiff.trans halmost.symm⟩

end Loops

/-- Two characters behind equal ones: no single character can be left out. -/
theorem not_almostPalindrome_replicate (count : ℕ) :
    ¬AlmostPalindrome ((97 : UInt8) ::
      (List.replicate (count + 1) 97 ++ [98] ++ [99])) := by
  rw [almostPalindrome_of_ne_iff (by decide)]
  rintro (hleft | hright)
  · rw [List.replicate_succ, List.cons_append, List.cons_append,
      reverse_ends_iff] at hleft
    exact absurd hleft.1 (by decide)
  · rw [reverse_ends_iff] at hright
    exact absurd hright.1 (by decide)

/-- Of a longer text the last two characters are never looked at. -/
theorem visible_length_le {length : ℕ} (hlong : 2 ^ 31 < length) :
    (wrap32 ((length : ℤ) - 1) + 1).toNat + 2 ≤ length := by
  rw [wrap32, Int.bmod_def]
  split <;> omega

/-- The function overlooks that a long text ends with two characters that occur
nowhere else. -/
theorem validPalindrome_replicate_incorrect {count : ℕ}
    (hlong : 2 ^ 31 < count + 4) :
    ¬∃ result, Returns (validPalindrome
        (97 :: (List.replicate (count + 1) 97 ++ [98] ++ [99]))) result ∧
      (result = true ↔ AlmostPalindrome
        ((97 : UInt8) :: (List.replicate (count + 1) 97 ++ [98] ++ [99]))) := by
  rintro ⟨result, hreturns, hcorrect⟩
  obtain ⟨other, hother, hvisible⟩ := validPalindrome_returns
    (97 :: (List.replicate (count + 1) 97 ++ [98] ++ [99]))
  obtain rfl := hreturns.unique hother
  have hlength : ((97 : UInt8) :: (List.replicate (count + 1) 97 ++ [98] ++
      [99])).length = count + 4 := by
    simp
  have hlast := visible_length_le hlong
  have hsame : (97 : UInt8) :: (List.replicate (count + 1) 97 ++ [98] ++ [99]) =
      List.replicate (count + 2) 97 ++ [98, 99] := by
    rw [List.append_assoc, List.replicate_succ (n := count + 1)]
    rfl
  have hequal : visible (97 :: (List.replicate (count + 1) 97 ++ [98] ++
      [99])) = List.replicate (wrap32 ((count + 4 : ℕ) - 1) + 1).toNat 97 := by
    rw [visible, hlength, hsame, List.take_append_of_le_length,
      List.take_replicate, min_eq_left (by omega)]
    rw [List.length_replicate]
    omega
  rw [hequal] at hvisible
  exact not_almostPalindrome_replicate count
    (hcorrect.mp (hvisible.mpr (Or.inl List.reverse_replicate)))

/-- The function is right about all texts of a length exactly when that is at
most `2 ^ 31`. -/
theorem validPalindrome_correct_iff (length : ℕ) :
    (∀ str : ByteString, str.length = length →
      ∃ result, Returns (validPalindrome str) result ∧
        (result = true ↔ AlmostPalindrome str)) ↔
      length ≤ 2 ^ 31 := by
  constructor
  · intro hall
    by_contra hlong
    obtain ⟨count, rfl⟩ : ∃ count, length = count + 4 :=
      Nat.exists_eq_add_of_le' (by omega)
    exact validPalindrome_replicate_incorrect (not_le.mp hlong)
      (hall _ (by simp))
  · rintro hlength str rfl
    obtain ⟨result, hreturns, hresult⟩ := validPalindrome_returns str
    rw [visible_eq_self hlength] at hresult
    exact ⟨result, hreturns, hresult⟩

/-- A text with one character more than can be counted: nothing of it is looked
at. -/
theorem validPalindrome_long :
    ¬∃ result, Returns (validPalindrome
        (97 :: (List.replicate (2 ^ 31 - 2) 97 ++ [98] ++ [99]))) result ∧
      (result = true ↔ AlmostPalindrome
        ((97 : UInt8) ::
          (List.replicate (2 ^ 31 - 2) 97 ++ [98] ++ [99]))) := by
  obtain ⟨count, hcount⟩ : ∃ count, 2 ^ 31 - 2 = count + 1 :=
    ⟨2 ^ 31 - 3, rfl⟩
  rw [hcount]
  exact validPalindrome_replicate_incorrect (by omega)

end KataCpp.Palindrome
