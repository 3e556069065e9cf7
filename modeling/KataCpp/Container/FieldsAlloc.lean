import KataCpp.Core.TransitionSystem

/-!
# The memory pool of the fields allocator

A `static_pool` hands out consecutive parts of one block.  It counts the parts
that are in use, and only when all have been given back does it start again at
the beginning.  The pool belongs to all copies of the allocator, which count
their references, and the last one deletes it.

The copies may be used in any order, as long as each is destroyed once and each
part is given back once.  The parts handed out since the pool was last empty do
not overlap and lie inside the block, and no call uses the pool after it has
been deleted.
-/

namespace KataCpp.FieldsAlloc

open TransitionSystem

/-- A pool; `base` is the address behind the object, where the block begins. -/
structure StaticPool where
  base : ℕ
  size : ℕ
  refs : ℕ
  count : ℕ
  p : ℕ
  deriving DecidableEq

def construct (base size : ℕ) : StaticPool where
  base := base
  size := size
  refs := 1
  count := 0
  p := base

def StaticPool.share (pool : StaticPool) : StaticPool :=
  { pool with refs := pool.refs + 1 }

/-- `destroy`, which deletes the pool with the last reference. -/
def StaticPool.destroy (pool : StaticPool) : Option StaticPool :=
  if pool.refs - 1 ≠ 0 then some { pool with refs := pool.refs - 1 } else none

/-- `alloc`; the addresses are 64-bit integers.  Without room it throws. -/
def StaticPool.alloc (pool : StaticPool) (n : ℕ) :
    Option ℕ × StaticPool :=
  let last := (pool.p + n) % 2 ^ 64
  if pool.base + pool.size ≤ last then (none, pool)
  else (some pool.p, { pool with count := pool.count + 1, p := last })

def StaticPool.dealloc (pool : StaticPool) : StaticPool :=
  if pool.count - 1 ≠ 0 then { pool with count := pool.count - 1 }
  else { pool with count := pool.count - 1, p := pool.base }

/-- The calls that the copies of the allocator make. -/
inductive Call where
  | copy
  | release
  | allocate (n sizeofT : ℕ)
  | deallocate (part : ℕ × ℕ)
  deriving DecidableEq

/-- The number of bytes that `allocate` asks for, in a 64-bit integer. -/
def bytes (n sizeofT : ℕ) : ℕ := n * sizeofT % 2 ^ 64

/-- A call, and what `allocate` returns.  There is no pool to use when it has
been deleted. -/
def perform (state : Option StaticPool) (call : Call) :
    Option (Option ℕ × Option StaticPool) :=
  state.map fun pool =>
    match call with
    | .copy => (none, some pool.share)
    | .release => (none, pool.destroy)
    | .allocate n sizeofT =>
        let allocated := pool.alloc (bytes n sizeofT)
        (allocated.1, some allocated.2)
    | .deallocate _ => (none, some pool.dealloc)

/-! ## The parts -/

/-- The copies of the allocator, the parts handed out since the pool was last
empty, and those of them that are in use.  A part is given by its address and
its length. -/
structure Ledger where
  copies : ℕ
  given : List (ℕ × ℕ)
  used : List (ℕ × ℕ)

def Ledger.start : Ledger where
  copies := 1
  given := []
  used := []

def total (parts : List (ℕ × ℕ)) : ℕ := (parts.map Prod.snd).sum

/-- What a call does: a part is handed out behind the others while it ends in
front of the last byte of the block. -/
def record (base size : ℕ) (ledger : Ledger) : Call → Option ℕ × Ledger
  | .copy => (none, { ledger with copies := ledger.copies + 1 })
  | .release => (none, { ledger with copies := ledger.copies - 1 })
  | .allocate n sizeofT =>
      if total ledger.given + bytes n sizeofT < size then
        let part := (base + total ledger.given, bytes n sizeofT)
        (some part.1, { ledger with
          given := ledger.given ++ [part], used := ledger.used ++ [part] })
      else (none, ledger)
  | .deallocate part =>
      let used := ledger.used.erase part
      (none, { ledger with
        given := if used = [] then [] else ledger.given, used := used })

/-- How the copies may be used: while there is one; the last copy is destroyed
when all parts have been given back; a part is given back once; and the
addresses behind the block that are computed exist. -/
def Legal (base size : ℕ) (ledger : Ledger) : Call → Prop
  | .copy => 0 < ledger.copies
  | .release => 1 < ledger.copies ∨ (ledger.copies = 1 ∧ ledger.used = [])
  | .allocate n sizeofT => 0 < ledger.copies ∧
      base + size + bytes n sizeofT < 2 ^ 64
  | .deallocate part => part ∈ ledger.used

/-- The parts follow each other without gaps. -/
def Consecutive : ℕ → List (ℕ × ℕ) → Prop
  | _, [] => True
  | address, part :: parts =>
      part.1 = address ∧ Consecutive (address + part.2) parts

section Parts

variable {address : ℕ} {part : ℕ × ℕ} {parts : List (ℕ × ℕ)}

theorem total_append (left right : List (ℕ × ℕ)) :
    total (left ++ right) = total left + total right := by
  rw [total, total, total, List.map_append, List.sum_append]

theorem Consecutive.append (hparts : Consecutive address parts) (length : ℕ) :
    Consecutive address
      (parts ++ [(address + total parts, length)]) := by
  induction parts generalizing address with
  | nil => exact ⟨rfl, trivial⟩
  | cons part parts ih =>
      obtain ⟨hpart, hrest⟩ := hparts
      have hnext := ih hrest
      rw [Nat.add_assoc] at hnext
      exact ⟨hpart, hnext⟩

theorem Consecutive.bounds (hparts : Consecutive address parts)
    (hmem : part ∈ parts) :
    address ≤ part.1 ∧ part.1 + part.2 ≤ address + total parts := by
  induction parts generalizing address with
  | nil => exact absurd hmem List.not_mem_nil
  | cons head parts ih =>
      obtain ⟨hhead, hrest⟩ := hparts
      have htotal : total (head :: parts) = head.2 + total parts := rfl
      rcases List.mem_cons.mp hmem with rfl | hmem
      · omega
      · have hbounds := ih hrest hmem
        omega

/-- Consecutive parts do not overlap. -/
theorem Consecutive.pairwise (hparts : Consecutive address parts) :
    parts.Pairwise fun left right => left.1 + left.2 ≤ right.1 := by
  induction parts generalizing address with
  | nil => exact List.Pairwise.nil
  | cons head parts ih =>
      obtain ⟨hhead, hrest⟩ := hparts
      refine List.pairwise_cons.mpr ⟨fun other hmem => ?_, ih hrest⟩
      have hbounds := (hrest.bounds hmem).1
      omega

end Parts

section Runs

variable {base size : ℕ} {state : Option StaticPool} {ledger : Ledger}

/-- The pool and the ledger.  A pool is there as long as a copy is. -/
structure Represents (base size : ℕ) (state : Option StaticPool)
    (ledger : Ledger) : Prop where
  state_eq : state =
    if ledger.copies = 0 then none
    else some ⟨base, size, ledger.copies, ledger.used.length,
      base + total ledger.given⟩
  used_of_released : ledger.copies = 0 → ledger.used = []
  consecutive : Consecutive base ledger.given
  total_lt : ledger.given ≠ [] → total ledger.given < size
  subperm : ledger.used.Subperm ledger.given
  given_of_unused : ledger.used = [] → ledger.given = []

theorem represents_construct (base size : ℕ) :
    Represents base size (some (construct base size)) Ledger.start := by
  constructor <;> simp [construct, Ledger.start, total, Consecutive]

theorem Represents.eq_some (hstate : Represents base size state ledger)
    (hcopies : ledger.copies ≠ 0) :
    state = some ⟨base, size, ledger.copies, ledger.used.length,
      base + total ledger.given⟩ := by
  rw [hstate.state_eq, if_neg hcopies]

theorem Represents.total_le (hstate : Represents base size state ledger) :
    total ledger.given ≤ size := by
  by_cases hgiven : ledger.given = []
  · rw [hgiven]
    exact Nat.zero_le size
  · exact (hstate.total_lt hgiven).le

/-- Another copy, or one copy less of several. -/
theorem Represents.copies (hstate : Represents base size state ledger)
    {copies : ℕ} (hcopies : copies ≠ 0) :
    Represents base size
      (some ⟨base, size, copies, ledger.used.length,
        base + total ledger.given⟩)
      { ledger with copies := copies } where
  state_eq := (if_neg hcopies).symm
  used_of_released := fun hnone => absurd hnone hcopies
  consecutive := hstate.consecutive
  total_lt := hstate.total_lt
  subperm := hstate.subperm
  given_of_unused := hstate.given_of_unused

theorem Represents.copy (hstate : Represents base size state ledger)
    (hlegal : Legal base size ledger .copy) :
    ∃ next, perform state .copy =
        some ((record base size ledger .copy).1, next) ∧
      Represents base size next (record base size ledger .copy).2 := by
  have hcopies : ledger.copies ≠ 0 := Nat.pos_iff_ne_zero.mp hlegal
  have hsome := hstate.eq_some hcopies
  exact ⟨_, by rw [hsome]; rfl, hstate.copies (Nat.succ_ne_zero _)⟩

/-- The last copy deletes the pool. -/
theorem Represents.release (hstate : Represents base size state ledger)
    (hlegal : Legal base size ledger .release) :
    ∃ next, perform state .release =
        some ((record base size ledger .release).1, next) ∧
      Represents base size next (record base size ledger .release).2 := by
  rcases hlegal with hmany | ⟨hone, hused⟩
  · have hsome := hstate.eq_some (show ledger.copies ≠ 0 by omega)
    have hleft : ledger.copies - 1 ≠ 0 := by omega
    refine ⟨_, ?_, hstate.copies hleft⟩
    rw [hsome]
    simp only [perform, record, StaticPool.destroy, Option.map_some,
      if_pos hleft]
  · have hsome := hstate.eq_some (show ledger.copies ≠ 0 by omega)
    have hgiven := hstate.given_of_unused hused
    refine ⟨none, ?_, ?_⟩
    · rw [hsome]
      simp [perform, record, StaticPool.destroy, hone]
    · constructor <;> simp [record, hone, hused, hgiven, Consecutive]

/-- A part is handed out, or there is no room for it. -/
theorem Represents.allocate (hstate : Represents base size state ledger)
    {n sizeofT : ℕ} (hlegal : Legal base size ledger (.allocate n sizeofT)) :
    ∃ next, perform state (.allocate n sizeofT) =
        some ((record base size ledger (.allocate n sizeofT)).1, next) ∧
      Represents base size next
        (record base size ledger (.allocate n sizeofT)).2 := by
  obtain ⟨hcopies, hbound⟩ := hlegal
  have hcopies : ledger.copies ≠ 0 := Nat.pos_iff_ne_zero.mp hcopies
  have hsome := hstate.eq_some hcopies
  have htotal := hstate.total_le
  -- the end of the part is an address, so that it does not wrap around
  have hlast : (base + total ledger.given + bytes n sizeofT) % 2 ^ 64 =
      base + total ledger.given + bytes n sizeofT :=
    Nat.mod_eq_of_lt (by omega)
  by_cases hroom : total ledger.given + bytes n sizeofT < size
  · have hend : ¬ base + size ≤
        base + total ledger.given + bytes n sizeofT := by omega
    refine ⟨some ⟨base, size, ledger.copies, ledger.used.length + 1,
      base + total ledger.given + bytes n sizeofT⟩, ?_, ?_⟩
    · rw [hsome]
      simp only [perform, record, StaticPool.alloc, Option.map_some, hlast,
        if_neg hend, if_pos hroom]
    · have hmore (part : ℕ × ℕ) : total (ledger.given ++ [part]) =
          total ledger.given + part.2 := by
        rw [total_append]
        rfl
      simp only [record, if_pos hroom]
      refine ⟨?_, fun hnone => absurd hnone hcopies,
        hstate.consecutive.append _, fun _ => ?_,
        hstate.subperm.append (List.Subperm.refl _), fun hnone => ?_⟩
      · simp only [if_neg hcopies, hmore, List.length_append,
          List.length_singleton, Nat.add_assoc]
      · simpa only [hmore] using hroom
      · exact absurd hnone (List.append_ne_nil_of_right_ne_nil _
          (List.cons_ne_nil _ _))
  · have hend : base + size ≤
        base + total ledger.given + bytes n sizeofT := by omega
    refine ⟨state, ?_, ?_⟩
    · rw [hsome]
      simp only [perform, record, StaticPool.alloc, Option.map_some, hlast,
        if_pos hend, if_neg hroom]
    · simpa only [record, if_neg hroom] using hstate

/-- A part is given back, and the pool starts again if it was the last. -/
theorem Represents.deallocate (hstate : Represents base size state ledger)
    {part : ℕ × ℕ} (hpart : part ∈ ledger.used) :
    ∃ next, perform state (.deallocate part) =
        some ((record base size ledger (.deallocate part)).1, next) ∧
      Represents base size next
        (record base size ledger (.deallocate part)).2 := by
  have hcopies : ledger.copies ≠ 0 := by
    intro hnone
    rw [hstate.used_of_released hnone] at hpart
    exact List.not_mem_nil hpart
  have hsome := hstate.eq_some hcopies
  have hlength := List.length_erase_of_mem hpart
  by_cases hlast : ledger.used.erase part = []
  · refine ⟨some ⟨base, size, ledger.copies, 0, base⟩, ?_, ?_⟩
    · rw [hlast, List.length_nil] at hlength
      rw [hsome]
      simp [perform, record, StaticPool.dealloc, ← hlength]
    · constructor <;>
        simp [record, hlast, hcopies, total, Consecutive]
  · have hleft : ledger.used.length - 1 ≠ 0 := by
      rw [← hlength]
      exact fun hnone => hlast (List.length_eq_zero_iff.mp hnone)
    refine ⟨some ⟨base, size, ledger.copies, ledger.used.length - 1,
      base + total ledger.given⟩, ?_, ?_⟩
    · rw [hsome]
      simp only [perform, record, StaticPool.dealloc, Option.map_some,
        if_pos hleft]
    · simp only [record, if_neg hlast]
      refine ⟨?_, fun hnone => absurd hnone hcopies, hstate.consecutive,
        hstate.total_lt, ?_, fun hnone => absurd hnone hlast⟩
      · simp only [if_neg hcopies, hlength]
      · exact (List.erase_sublist.subperm).trans hstate.subperm

theorem Represents.perform (hstate : Represents base size state ledger)
    {call : Call} (hlegal : Legal base size ledger call) :
    ∃ next, FieldsAlloc.perform state call =
        some ((record base size ledger call).1, next) ∧
      Represents base size next (record base size ledger call).2 := by
  cases call with
  | copy => exact hstate.copy hlegal
  | release => exact hstate.release hlegal
  | allocate n sizeofT => exact hstate.allocate hlegal
  | deallocate part => exact hstate.deallocate hlegal

/-- However the copies of the allocator are used, no call meets a deleted
pool, and the pool is deleted with the last copy.  Each call returns what the
ledger says: the parts in use are among those given, which do not overlap and
end in front of the last byte of the block. -/
theorem parts_disjoint {calls : List Call}
    (hcalls : CallsMeet (record base size) (Legal base size) Ledger.start
      calls) :
    ∃ final,
      let ledger := (trace (record base size) Ledger.start calls).2
      checkedTrace FieldsAlloc.perform (some (construct base size)) calls =
          some ((trace (record base size) Ledger.start calls).1, final) ∧
        (final = none ↔ ledger.copies = 0) ∧
        ledger.used.Subperm ledger.given ∧
        ledger.given.Pairwise
          (fun left right => left.1 + left.2 ≤ right.1) ∧
        ∀ part ∈ ledger.given,
          base ≤ part.1 ∧ part.1 + part.2 < base + size := by
  obtain ⟨final, hanswers, hfinal⟩ := checkedTrace_of_callsMeet
    FieldsAlloc.perform (record base size)
    (fun _ _ _ hstate hlegal => hstate.perform hlegal)
    (represents_construct base size) hcalls
  refine ⟨final, hanswers, ?_, hfinal.subperm, hfinal.consecutive.pairwise,
    fun part hpart => ?_⟩
  · have heq := hfinal.state_eq
    constructor
    · intro hnone
      by_contra hcopies
      rw [if_neg hcopies, hnone] at heq
      exact Option.some_ne_none _ heq.symm
    · intro hcopies
      rw [heq, if_pos hcopies]
  · have hbounds := hfinal.consecutive.bounds hpart
    have hlt := hfinal.total_lt (List.ne_nil_of_mem hpart)
    omega

/-- Two parts of a block of 100 bytes; the third does not fit until both are
given back. -/
theorem parts_disjoint_again : ∃ final,
    checkedTrace FieldsAlloc.perform (some (construct 4096 100))
        [.copy, .allocate 10 4, .allocate 50 1, .allocate 10 1,
          .deallocate (4096, 40), .release, .allocate 10 1,
          .deallocate (4136, 50), .allocate 10 1, .deallocate (4096, 10),
          .release] =
      some ([none, some 4096, some 4136, none, none, none, none, none,
        some 4096, none, none], final) ∧ final = none := by
  have hcalls : CallsMeet (record 4096 100) (Legal 4096 100) Ledger.start
      [.copy, .allocate 10 4, .allocate 50 1, .allocate 10 1,
        .deallocate (4096, 40), .release, .allocate 10 1,
        .deallocate (4136, 50), .allocate 10 1, .deallocate (4096, 10),
        .release] := by
    simp [CallsMeet, Legal, record, total, bytes, Ledger.start]
  obtain ⟨final, hanswers, hnone, -⟩ := parts_disjoint hcalls
  exact ⟨final, hanswers, hnone.mpr rfl⟩

end Runs

end KataCpp.FieldsAlloc
