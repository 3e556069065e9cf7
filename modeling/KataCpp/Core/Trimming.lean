import Mathlib.Data.List.DropRight

/-!
# Cutting a list at both ends

What remains of a list when the elements of one kind are cut off at both ends
is determined by its description: a contiguous part with only such elements
around it, whose own first and last elements are of the other kind.  The two
ends can be cut off in either order.
-/

namespace KataCpp.Trimming

variable {α : Type*} {p : α → Bool} {text kept back : List α}

/-- `kept` is `text` without the elements of `p` at its two ends. -/
structure IsTrimmed (p : α → Bool) (text kept : List α) : Prop where
  cut : ∃ front back, text = front ++ (kept ++ back) ∧
    (∀ c ∈ front, p c = true) ∧ ∀ c ∈ back, p c = true
  head : ∀ c ∈ kept.head?, p c = false
  last : ∀ c ∈ kept.getLast?, p c = false

theorem dropWhile_eq_self (hhead : ∀ c ∈ kept.head?, p c = false)
    (hnonempty : kept ≠ []) :
    (kept ++ back).dropWhile p = kept ++ back := by
  obtain ⟨first, rest, rfl⟩ := List.exists_cons_of_ne_nil hnonempty
  have hfirst : p first = false := hhead first rfl
  rw [List.cons_append, List.dropWhile_cons_of_neg (by simp [hfirst])]

theorem rdropWhile_append_of_pos (hback : ∀ c ∈ back, p c = true) :
    (kept ++ back).rdropWhile p = kept.rdropWhile p := by
  have hreverse : ∀ c ∈ back.reverse, p c = true := by
    intro c hc
    exact hback c (List.mem_reverse.mp hc)
  rw [List.rdropWhile, List.reverse_append,
    List.dropWhile_append_of_pos hreverse, List.rdropWhile]

theorem rdropWhile_eq_self (hlast : ∀ c ∈ kept.getLast?, p c = false) :
    kept.rdropWhile p = kept := by
  rw [List.rdropWhile_eq_self_iff]
  intro hnonempty
  have hend := hlast _ (List.getLast?_eq_some_getLast hnonempty)
  simp [hend]

theorem last_rdropWhile (p : α → Bool) (text : List α) :
    ∀ c ∈ (text.rdropWhile p).getLast?, p c = false := by
  intro c hc
  obtain ⟨hnonempty, rfl⟩ := List.mem_getLast?_eq_getLast hc
  simpa using List.rdropWhile_last_not p text hnonempty

theorem head_dropWhile (p : α → Bool) (text : List α) :
    ∀ c ∈ (text.dropWhile p).head?, p c = false := by
  intro c hc
  have hnot := List.head?_dropWhile_not p text
  rw [Option.mem_def.mp hc] at hnot
  simpa using hnot

/-- The description determines what remains. -/
theorem IsTrimmed.eq (htrimmed : IsTrimmed p text kept) :
    kept = (text.dropWhile p).rdropWhile p := by
  obtain ⟨front, back, rfl, hfront, hback⟩ := htrimmed.cut
  rw [List.dropWhile_append_of_pos hfront]
  rcases eq_or_ne kept [] with rfl | hnonempty
  · have hnothing : back.dropWhile p = [] := by
      rw [List.dropWhile_eq_nil_iff]
      exact hback
    rw [List.nil_append, hnothing, List.rdropWhile_nil]
  · rw [dropWhile_eq_self htrimmed.head hnonempty,
      rdropWhile_append_of_pos hback, rdropWhile_eq_self htrimmed.last]

/-- What remains has nothing more to cut off. -/
theorem IsTrimmed.self (htrimmed : IsTrimmed p text kept) :
    IsTrimmed p kept kept where
  cut := ⟨[], [], by simp⟩
  head := htrimmed.head
  last := htrimmed.last

/-- The front first, then the back. -/
theorem isTrimmed_front_back (p : α → Bool) (text : List α) :
    IsTrimmed p text ((text.dropWhile p).rdropWhile p) where
  cut := by
    refine ⟨text.takeWhile p, (text.dropWhile p).rtakeWhile p, ?_, ?_, ?_⟩
    · rw [List.rdropWhile_append_rtakeWhile, List.takeWhile_append_dropWhile]
    · intro c hc
      exact List.mem_takeWhile_imp hc
    · intro c hc
      exact List.mem_rtakeWhile_imp hc
  head := by
    intro c hc
    refine head_dropWhile p text c ?_
    rw [← List.rdropWhile_append_rtakeWhile (p := p) (l := text.dropWhile p)]
    exact List.mem_head?_append_of_mem_head? hc
  last := last_rdropWhile p _

/-- The back first, then the front. -/
theorem isTrimmed_back_front (p : α → Bool) (text : List α) :
    IsTrimmed p text ((text.rdropWhile p).dropWhile p) where
  cut := by
    refine ⟨(text.rdropWhile p).takeWhile p, text.rtakeWhile p, ?_, ?_, ?_⟩
    · rw [← List.append_assoc, List.takeWhile_append_dropWhile,
        List.rdropWhile_append_rtakeWhile]
    · intro c hc
      exact List.mem_takeWhile_imp hc
    · intro c hc
      exact List.mem_rtakeWhile_imp hc
  head := head_dropWhile p _
  last := by
    intro c hc
    refine last_rdropWhile p text c ?_
    rw [← List.takeWhile_append_dropWhile (p := p) (l := text.rdropWhile p)]
    exact List.mem_getLast?_append_of_mem_getLast? hc

end KataCpp.Trimming
