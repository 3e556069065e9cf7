import KataCpp.Core.TextInput
import KataCpp.Core.TransitionSystem

/-!
# The buffer of a network message

`NetworkMessage` describes one payload three times: in an owned array, in
`m_size` and in a vector.  Its five special member functions each update a
different part of that description.  The copy constructor passes the array on
as a C string, the move constructor leaves `m_size` uninitialized, and neither
assignment touches `m_size`.

Objects live in a list and are addressed by their position.  What the program
reads but does not control is part of the action: the text behind an array up
to the next NUL, and the value an uninitialized `m_size` starts with.
-/

namespace KataCpp

open Bytes TextInput TransitionSystem

/-- `mBuffer` is `none` for the null pointer. -/
structure NetworkMessage where
  mBuffer : Option ByteString
  mSize : ℕ
  mData : ByteString
  deriving DecidableEq

namespace NetworkMessage

/-- `NetworkMessage(std::string_view)`. -/
def construct (msg : ByteString) : NetworkMessage where
  mBuffer := some msg
  mSize := msg.length
  mData := msg

/-- An array without a length, taken as a `std::string_view`: its bytes and
those behind it, up to the first NUL. -/
def stringView (buffer : ByteString) (beyond : CString) : ByteString :=
  (buffer ++ beyond.bytes).takeWhile (· != 0)

/-- The copy constructor.  A view of the null pointer is undefined. -/
def copyConstruct (other : NetworkMessage) (beyond : CString) :
    Option NetworkMessage := do
  let buffer ← other.mBuffer
  return { construct (stringView buffer beyond) with mData := other.mData }

/-- The move constructor: the new object and what is left of `other`. -/
def moveConstruct (other : NetworkMessage) (uninitialized : ℕ) :
    NetworkMessage × NetworkMessage :=
  ({ mBuffer := other.mBuffer, mSize := uninitialized, mData := other.mData },
    { other with mBuffer := none, mData := [] })

/-- Move assignment swaps the array and the vector. -/
def moveAssign (this other : NetworkMessage) :
    NetworkMessage × NetworkMessage :=
  ({ this with mBuffer := other.mBuffer, mData := other.mData },
    { other with mBuffer := this.mBuffer, mData := this.mData })

/-- Copy assignment moves a temporary copy, which is destroyed at once. -/
def copyAssign (this other : NetworkMessage) (beyond : CString) :
    Option NetworkMessage := do
  let temporary ← copyConstruct other beyond
  return (moveAssign this temporary).1

/-- The array holds exactly the bytes of the vector. -/
def ViewsAgree (message : NetworkMessage) : Prop :=
  message.mBuffer.getD [] = message.mData

/-- The representation invariant the three members are meant to have. -/
def WellFormed (message : NetworkMessage) : Prop :=
  message.mSize = message.mData.length ∧ message.ViewsAgree

instance (message : NetworkMessage) : Decidable message.WellFormed :=
  inferInstanceAs (Decidable (_ ∧ _ = _))

/-- An object of the program.  An object that is assigned to holds a value
again and no longer counts as moved from. -/
structure Object where
  message : NetworkMessage
  movedFrom : Bool
  deriving DecidableEq

inductive Action where
  | construct (msg : ByteString)
  | copyConstruct (source : ℕ) (beyond : CString)
  | moveConstruct (source uninitialized : ℕ)
  | copyAssign (target source : ℕ) (beyond : CString)
  | moveAssign (target source : ℕ)

def step (objects : List Object) : Action → Option (List Object)
  | .construct msg => some (objects ++ [⟨construct msg, false⟩])
  | .copyConstruct source beyond => do
      let other ← objects[source]?
      let message ← copyConstruct other.message beyond
      return objects ++ [⟨message, false⟩]
  | .moveConstruct source uninitialized => do
      let other ← objects[source]?
      let (message, rest) := moveConstruct other.message uninitialized
      return objects.set source ⟨rest, true⟩ ++ [⟨message, false⟩]
  | .copyAssign target source beyond => do
      let this ← objects[target]?
      let other ← objects[source]?
      let message ← copyAssign this.message other.message beyond
      return objects.set target ⟨message, false⟩
  | .moveAssign target source => do
      let this ← objects[target]?
      let other ← objects[source]?
      let (message, rest) := moveAssign this.message other.message
      return (objects.set target ⟨message, false⟩).set source ⟨rest, true⟩

def Object.Sound (object : Object) : Prop :=
  object.movedFrom = false → object.message.WellFormed

/-- Every object that has not been moved from is well formed. -/
def AllSound (objects : List Object) : Prop :=
  ∀ object ∈ objects, object.Sound

instance (objects : List Object) : Decidable (AllSound objects) :=
  inferInstanceAs (Decidable (∀ object ∈ objects, _ → _))

/-- A copy is faithful when the payload has no NUL and a NUL happens to follow
the array. -/
def CopiesExactly (payload : ByteString) (beyond : CString) : Prop :=
  0 ∉ payload ∧ beyond.bytes = []

/-- The steps that keep the objects well formed: faithful copies, moves that
find the right size in uninitialized memory, and assignments between messages
of one size. -/
def Harmless (objects : List Object) : Action → Prop
  | .construct _ => True
  | .copyConstruct source beyond =>
      ∀ other ∈ objects[source]?, CopiesExactly other.message.mData beyond
  | .moveConstruct source uninitialized =>
      ∀ other ∈ objects[source]?, uninitialized = other.message.mData.length
  | .copyAssign target source beyond =>
      ∀ this ∈ objects[target]?, ∀ other ∈ objects[source]?,
        CopiesExactly other.message.mData beyond ∧
          this.message.mSize = other.message.mData.length
  | .moveAssign target source =>
      target = source ∨
        ∀ this ∈ objects[target]?, ∀ other ∈ objects[source]?,
          this.message.mSize = other.message.mData.length

/-! ## What one step keeps -/

/-- Stronger than soundness: moved-from objects still have agreeing views,
since every move leaves a whole pair of views behind. -/
def Object.Consistent (object : Object) : Prop :=
  object.message.ViewsAgree ∧
    (object.movedFrom = false →
      object.message.mSize = object.message.mData.length)

def AllConsistent (objects : List Object) : Prop :=
  ∀ object ∈ objects, object.Consistent

theorem Object.Consistent.sound {object : Object} (h : object.Consistent) :
    object.Sound :=
  fun hmoved => ⟨h.2 hmoved, h.1⟩

theorem AllConsistent.allSound {objects : List Object}
    (h : AllConsistent objects) : AllSound objects :=
  fun object hobject => (h object hobject).sound

theorem Object.consistent_iff_sound (message : NetworkMessage) :
    Object.Consistent ⟨message, false⟩ ↔ message.WellFormed := by
  simp [Consistent, WellFormed, and_comm]

theorem stringView_eq_iff (buffer : ByteString) (beyond : CString) :
    stringView buffer beyond = buffer ↔ CopiesExactly buffer beyond := by
  have hbeyond := forall_bne_of_notMem beyond.zero_notMem
  rw [stringView, CopiesExactly]
  constructor
  · intro hview
    have hzero : 0 ∉ buffer := by
      intro hmem
      rw [← hview] at hmem
      simpa using List.mem_takeWhile_imp hmem
    rw [List.takeWhile_append_of_pos (forall_bne_of_notMem hzero),
      List.takeWhile_eq_self_iff.mpr hbeyond,
      List.append_right_eq_self] at hview
    exact ⟨hzero, hview⟩
  · rintro ⟨hzero, hnil⟩
    rw [hnil, List.append_nil]
    exact List.takeWhile_eq_self_iff.mpr (forall_bne_of_notMem hzero)

/-- A copy made through the C string, with the size it ends up with. -/
theorem copied_wellFormed_iff (payload : ByteString) (beyond : CString)
    (size : ℕ) :
    WellFormed ⟨some (stringView payload beyond), size, payload⟩ ↔
      CopiesExactly payload beyond ∧ size = payload.length := by
  simp only [WellFormed, ViewsAgree, Option.getD_some, stringView_eq_iff,
    and_comm]

theorem ViewsAgree.eq_of_some {message : NetworkMessage} {buffer : ByteString}
    (h : message.ViewsAgree) (hbuffer : message.mBuffer = some buffer) :
    buffer = message.mData := by
  rwa [ViewsAgree, hbuffer] at h

theorem AllConsistent.set {objects : List Object} (h : AllConsistent objects)
    (index : ℕ) (object : Object) (hobject : object.Consistent) :
    AllConsistent (objects.set index object) := by
  intro other hother
  rcases List.mem_or_eq_of_mem_set hother with hold | rfl
  · exact h other hold
  · exact hobject

/-- A step that adds one object to consistent ones is exactly as good as that
object. -/
theorem exact_of_fresh {kept next : List Object} {message : NetworkMessage}
    (hkept : AllConsistent kept) (hfresh : ⟨message, false⟩ ∈ next)
    (hnext : ∀ object ∈ next, object ∈ kept ∨ object = ⟨message, false⟩) :
    (AllSound next ↔ message.WellFormed) ∧
      (AllSound next → AllConsistent next) := by
  have hadded : message.WellFormed → AllConsistent next := by
    intro hmessage object hobject
    rcases hnext object hobject with hold | rfl
    · exact hkept object hold
    · exact (Object.consistent_iff_sound message).mpr hmessage
  have hmessage : AllSound next → message.WellFormed :=
    fun hsound => hsound _ hfresh rfl
  exact ⟨⟨hmessage, fun h => (hadded h).allSound⟩, hadded ∘ hmessage⟩

variable {objects next : List Object}

theorem exact_of_append (hobjects : AllConsistent objects)
    (message : NetworkMessage) :
    (AllSound (objects ++ [⟨message, false⟩]) ↔ message.WellFormed) ∧
      (AllSound (objects ++ [⟨message, false⟩]) →
        AllConsistent (objects ++ [⟨message, false⟩])) :=
  exact_of_fresh hobjects (by simp) (by simp)

theorem exact_of_set (hobjects : AllConsistent objects) {index : ℕ}
    (hindex : index < objects.length) (message : NetworkMessage) :
    (AllSound (objects.set index ⟨message, false⟩) ↔ message.WellFormed) ∧
      (AllSound (objects.set index ⟨message, false⟩) →
        AllConsistent (objects.set index ⟨message, false⟩)) :=
  exact_of_fresh hobjects (List.mem_set hindex _)
    (fun _ => List.mem_or_eq_of_mem_set)

/-- What copying a consistent object reads. -/
theorem copyConstruct_eq_some {other message : NetworkMessage}
    {beyond : CString} (hother : other.ViewsAgree)
    (hcopy : copyConstruct other beyond = some message) :
    message = ⟨some (stringView other.mData beyond),
      (stringView other.mData beyond).length, other.mData⟩ := by
  simp only [copyConstruct, Option.bind_eq_bind, Option.pure_def,
    Option.bind_eq_some_iff, Option.some.injEq] at hcopy
  obtain ⟨buffer, hbuffer, rfl⟩ := hcopy
  rw [hother.eq_of_some hbuffer, construct]

theorem copyAssign_eq_some {this other message : NetworkMessage}
    {beyond : CString} (hother : other.ViewsAgree)
    (hcopy : copyAssign this other beyond = some message) :
    message =
      ⟨some (stringView other.mData beyond), this.mSize, other.mData⟩ := by
  simp only [copyAssign, Option.bind_eq_bind, Option.pure_def,
    Option.bind_eq_some_iff, Option.some.injEq] at hcopy
  obtain ⟨temporary, htemporary, rfl⟩ := hcopy
  rw [copyConstruct_eq_some hother htemporary, moveAssign]

/-- An object that was copied owns an array. -/
theorem mBuffer_of_copyAssign {this other message : NetworkMessage}
    {beyond : CString} (hother : other.ViewsAgree)
    (hcopy : copyAssign this other beyond = some message) :
    other.mBuffer = some other.mData := by
  cases hbuffer : other.mBuffer with
  | none => simp [copyAssign, copyConstruct, hbuffer] at hcopy
  | some buffer => rw [hother.eq_of_some hbuffer]

theorem AllConsistent.at (hobjects : AllConsistent objects) {index : ℕ}
    {object : Object} (hobject : objects[index]? = some object) :
    object.Consistent :=
  hobjects object (List.mem_of_getElem? hobject)

/-- A copy construction leaves its size to the copied bytes, so it is sound as
soon as these are right. -/
theorem copyConstruct_exact (hobjects : AllConsistent objects)
    {source : ℕ} {beyond : CString}
    (hstep : step objects (.copyConstruct source beyond) = some next) :
    (AllSound next ↔ Harmless objects (.copyConstruct source beyond)) ∧
      (AllSound next → AllConsistent next) := by
  simp only [step, Option.bind_eq_bind, Option.pure_def,
    Option.bind_eq_some_iff, Option.some.injEq] at hstep
  obtain ⟨other, hother, message, hcopy, rfl⟩ := hstep
  obtain rfl := copyConstruct_eq_some (hobjects.at hother).1 hcopy
  have hexact := exact_of_append hobjects
    ⟨some (stringView other.message.mData beyond),
      (stringView other.message.mData beyond).length, other.message.mData⟩
  rw [copied_wellFormed_iff] at hexact
  refine ⟨hexact.1.trans ?_, hexact.2⟩
  simp only [Harmless, hother, Option.mem_def, Option.some.injEq, forall_eq']
  refine and_iff_left_of_imp fun hcopies => ?_
  rw [(stringView_eq_iff _ _).mpr hcopies]

theorem moveConstruct_exact (hobjects : AllConsistent objects)
    {source uninitialized : ℕ}
    (hstep : step objects (.moveConstruct source uninitialized) = some next) :
    (AllSound next ↔ Harmless objects (.moveConstruct source uninitialized)) ∧
      (AllSound next → AllConsistent next) := by
  simp only [step, moveConstruct, Option.bind_eq_bind, Option.pure_def,
    Option.bind_eq_some_iff, Option.some.injEq] at hstep
  obtain ⟨other, hother, rfl⟩ := hstep
  have hkept := hobjects.set source
    ⟨{ other.message with mBuffer := none, mData := [] }, true⟩
    ⟨rfl, by simp⟩
  have hexact := exact_of_append hkept
    ⟨other.message.mBuffer, uninitialized, other.message.mData⟩
  refine ⟨hexact.1.trans ?_, hexact.2⟩
  simp only [Harmless, hother, Option.mem_def, Option.some.injEq, forall_eq']
  exact and_iff_left (hobjects.at hother).1

theorem copyAssign_exact (hobjects : AllConsistent objects)
    {target source : ℕ} {beyond : CString}
    (hstep : step objects (.copyAssign target source beyond) = some next) :
    (AllSound next ↔ Harmless objects (.copyAssign target source beyond)) ∧
      (AllSound next → AllConsistent next) := by
  simp only [step, Option.bind_eq_bind, Option.pure_def,
    Option.bind_eq_some_iff, Option.some.injEq] at hstep
  obtain ⟨this, hthis, other, hother, message, hcopy, rfl⟩ := hstep
  obtain rfl := copyAssign_eq_some (hobjects.at hother).1 hcopy
  have hexact := exact_of_set hobjects (List.getElem?_eq_some_iff.mp hthis).1
    ⟨some (stringView other.message.mData beyond), this.message.mSize,
      other.message.mData⟩
  rw [copied_wellFormed_iff] at hexact
  simpa only [Harmless, hthis, hother, Option.mem_def, Option.some.injEq,
    forall_eq'] using hexact

theorem moveAssign_exact (hobjects : AllConsistent objects)
    {target source : ℕ}
    (hstep : step objects (.moveAssign target source) = some next) :
    (AllSound next ↔ Harmless objects (.moveAssign target source)) ∧
      (AllSound next → AllConsistent next) := by
  simp only [step, moveAssign, Option.bind_eq_bind, Option.pure_def,
    Option.bind_eq_some_iff, Option.some.injEq] at hstep
  obtain ⟨this, hthis, other, hother, rfl⟩ := hstep
  have hkept := hobjects.set source
    ⟨⟨this.message.mBuffer, other.message.mSize, this.message.mData⟩, true⟩
    ⟨(hobjects.at hthis).1, by simp⟩
  by_cases hself : target = source
  · -- Swapping an object with itself only marks it as moved from.
    subst hself
    rw [List.set_set]
    simp [Harmless, hkept, hkept.allSound]
  · have htarget : target < (objects.set source
        ⟨⟨this.message.mBuffer, other.message.mSize, this.message.mData⟩,
          true⟩).length := by
      simpa using (List.getElem?_eq_some_iff.mp hthis).1
    have hexact := exact_of_set hkept htarget
      ⟨other.message.mBuffer, this.message.mSize, other.message.mData⟩
    rw [List.set_comm _ _ hself]
    refine ⟨hexact.1.trans ?_, hexact.2⟩
    simp only [Harmless, hself, hthis, hother, Option.mem_def,
      Option.some.injEq, forall_eq', false_or]
    exact and_iff_left (hobjects.at hother).1

/-- From consistent objects a step leads to sound ones precisely when it is
harmless, and they are consistent again. -/
theorem step_exact {action : Action} (hobjects : AllConsistent objects)
    (hstep : step objects action = some next) :
    (AllSound next ↔ Harmless objects action) ∧
      (AllSound next → AllConsistent next) := by
  cases action with
  | construct msg =>
      obtain rfl : objects ++ [⟨construct msg, false⟩] = next := by
        simpa [step] using hstep
      have hmessage : (construct msg).WellFormed := ⟨rfl, rfl⟩
      simpa [Harmless, hmessage] using exact_of_append hobjects (construct msg)
  | copyConstruct source beyond => exact copyConstruct_exact hobjects hstep
  | moveConstruct source uninitialized =>
      exact moveConstruct_exact hobjects hstep
  | copyAssign target source beyond => exact copyAssign_exact hobjects hstep
  | moveAssign target source => exact moveAssign_exact hobjects hstep

/-- The two objects show the same payload in both views. -/
def SameViews (left right : NetworkMessage) : Prop :=
  left.mBuffer = right.mBuffer ∧ left.mData = right.mData

/-- After a harmless copy assignment both views of the target are those of the
source. -/
theorem copyAssign_sameViews (hobjects : AllConsistent objects)
    {target source : ℕ} {beyond : CString}
    (hharmless : Harmless objects (.copyAssign target source beyond))
    (hstep : step objects (.copyAssign target source beyond) = some next) :
    ∃ left right, next[target]? = some left ∧ next[source]? = some right ∧
      SameViews left.message right.message := by
  simp only [step, Option.bind_eq_bind, Option.pure_def,
    Option.bind_eq_some_iff, Option.some.injEq] at hstep
  obtain ⟨this, hthis, other, hother, message, hcopy, rfl⟩ := hstep
  have hviews := (hobjects.at hother).1
  obtain ⟨hcopies, -⟩ := hharmless this hthis other hother
  have htarget := (List.getElem?_eq_some_iff.mp hthis).1
  refine ⟨⟨message, false⟩, ?_⟩
  by_cases hself : target = source
  · subst hself
    refine ⟨⟨message, false⟩, ?_, ?_, rfl, rfl⟩ <;>
      exact List.getElem?_set_self htarget
  · refine ⟨other, List.getElem?_set_self htarget, ?_, ?_⟩
    · rwa [List.getElem?_set_ne hself]
    · have hmessage := copyAssign_eq_some hviews hcopy
      rw [(stringView_eq_iff _ _).mpr hcopies] at hmessage
      rw [SameViews, mBuffer_of_copyAssign hviews hcopy, hmessage]
      exact ⟨rfl, rfl⟩

end NetworkMessage

end KataCpp
