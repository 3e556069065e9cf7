import KataCpp.Core.ArrayHeap
import KataCpp.Core.Bytes
import KataCpp.Core.TransitionSystem

/-!
# Copies of commands

A `Command` has a name, a map of parameters and a data buffer that it owns.
Copying and moving are written by hand.  The copy constructor copies as many
bytes as the new object has, which is none, into a buffer that it does not
have, so the data are lost.  The copy assignment inserts the parameters of the
source, which neither removes the parameters of the target nor replaces their
values.

The commands of a program and the arrays they own form a `World`.  In every
world that a program can reach, a command owns an array of its length, or none
and has the length zero, and no two commands own the same array.
-/

namespace KataCpp

open ArrayHeap Bytes TransitionSystem

variable {Executor : Type}

abbrev Parameters := Std.ExtTreeMap ByteString ByteString

/-- The members, with their default initialisers. -/
structure Command (Executor : Type) where
  name : ByteString := []
  parameters : Parameters := ∅
  executor : Option Executor := none
  length : ℕ := 0
  data : Option ℕ := none

namespace Command

/-- The loop over `other.m_parameters`, which inserts each of them. -/
def insertParameters (target source : Parameters) : Parameters :=
  source.toList.foldl (fun merged kv => merged.insertIfNew kv.1 kv.2) target

/-- The commands by their addresses, and the heap with their data. -/
structure World (Executor : Type) where
  objects : ℕ → Option (Command Executor)
  heap : Heap UInt8

namespace World

def empty : World Executor := ⟨fun _ => none, Heap.empty⟩

/-- The world in which the object at an address is `command`. -/
def set (world : World Executor) (this : ℕ) (command : Command Executor) :
    World Executor :=
  { world with objects := Function.update world.objects this (some command) }

/-- `Command(name)`; `Command()` has the empty name. -/
def construct (world : World Executor) (this : ℕ) (name : ByteString) :
    Option (World Executor) :=
  match world.objects this with
  | some _ => none
  | none => some (world.set this { name })

/-- `Command(const Command& other)`. -/
def copyConstruct (world : World Executor) (this other : ℕ) :
    Option (World Executor) :=
  match world.objects this with
  | some _ => none
  | none => do
      let source ← world.objects other
      let fresh : Command Executor := {}
      let copied ← world.heap.read source.data fresh.length
      let heap ← world.heap.store fresh.data copied
      return { world with heap }.set this
        { fresh with
          name := source.name
          executor := source.executor
          parameters := insertParameters fresh.parameters source.parameters }

/-- `operator=(const Command& other)`. -/
def copyAssign (world : World Executor) (this other : ℕ) :
    Option (World Executor) := do
  let target ← world.objects this
  let source ← world.objects other
  if this = other then return world
  else
    let released ← world.heap.release target.data
    let (data, heap) := released.allocate (List.replicate source.length 0)
    let copied ← heap.read source.data source.length
    let heap ← heap.store (some data) copied
    return { world with heap }.set this
      { name := source.name
        executor := source.executor
        parameters := insertParameters target.parameters source.parameters
        length := source.length
        data := some data }

/-- What a move leaves of its source. -/
def movedFrom : Command Executor := {}

/-- `Command(Command&& other)`. -/
def moveConstruct (world : World Executor) (this other : ℕ) :
    Option (World Executor) :=
  match world.objects this with
  | some _ => none
  | none => do
      let source ← world.objects other
      return (world.set other movedFrom).set this source

/-- `operator=(Command&& other)`. -/
def moveAssign (world : World Executor) (this other : ℕ) :
    Option (World Executor) := do
  let target ← world.objects this
  let source ← world.objects other
  if this = other then return world
  else
    let heap ← world.heap.release target.data
    return ({ world with heap }.set other movedFrom).set this source

/-- `~Command()`, which does not release the data. -/
def destruct (world : World Executor) (this : ℕ) : World Executor :=
  { world with objects := Function.update world.objects this none }

def setName (world : World Executor) (this : ℕ) (name : ByteString) :
    Option (World Executor) := do
  let target ← world.objects this
  return world.set this { target with name }

def setParameter (world : World Executor) (this : ℕ)
    (name value : ByteString) : Option (World Executor) := do
  let target ← world.objects this
  return world.set this
    { target with parameters := target.parameters.insert name value }

/-- `setData`, with the bytes that `pData` points to. -/
def setData (world : World Executor) (this : ℕ) (pData : Memory)
    (length : ℕ) : Option (World Executor) := do
  let target ← world.objects this
  let released ← world.heap.release target.data
  let (data, heap) := released.allocate (List.replicate length 0)
  let heap ← heap.store (some data) (slice pData 0 length)
  return { world with heap }.set this { target with length, data := some data }

end World

inductive Action where
  | construct (this : ℕ) (name : ByteString)
  | copyConstruct (this other : ℕ)
  | copyAssign (this other : ℕ)
  | moveConstruct (this other : ℕ)
  | moveAssign (this other : ℕ)
  | destruct (this : ℕ)
  | setName (this : ℕ) (name : ByteString)
  | setParameter (this : ℕ) (name value : ByteString)
  | setData (this : ℕ) (pData : Memory) (length : ℕ)

/-- `none` is a call on an object that does not exist, a construction where an
object exists, or an access outside an array. -/
def step (world : World Executor) : Action → Option (World Executor)
  | .construct this name => world.construct this name
  | .copyConstruct this other => world.copyConstruct this other
  | .copyAssign this other => world.copyAssign this other
  | .moveConstruct this other => world.moveConstruct this other
  | .moveAssign this other => world.moveAssign this other
  | .destruct this => some (world.destruct this)
  | .setName this name => world.setName this name
  | .setParameter this name value => world.setParameter this name value
  | .setData this pData length => world.setData this pData length

theorem foldl_insertIfNew_getElem? (entries : List (ByteString × ByteString))
    (target : Parameters) (name : ByteString) :
    (entries.foldl (fun merged kv => merged.insertIfNew kv.1 kv.2)
      target)[name]? =
      target[name]?.or
        ((entries.find? (compare ·.1 name == .eq)).map Prod.snd) := by
  induction entries generalizing target with
  | nil => simp
  | cons entry entries ih =>
      rw [List.foldl_cons, ih, Std.ExtTreeMap.getElem?_insertIfNew,
        List.find?_cons]
      by_cases hentry : compare entry.1 name = .eq
      · obtain rfl := Std.LawfulEqCmp.eq_of_compare hentry
        cases hold : target[entry.1]? with
        | none => simp [Std.ExtTreeMap.mem_iff_isSome_getElem?, hold]
        | some value => simp [Std.ExtTreeMap.mem_iff_isSome_getElem?, hold]
      · have hother : (compare entry.1 name == .eq) = false := by
          simpa using hentry
        simp only [hentry, false_and, if_false, hother]

/-- Inserting keeps the values of the target and adds those of the source under
new names. -/
theorem insertParameters_getElem? (target source : Parameters)
    (name : ByteString) :
    (insertParameters target source)[name]? =
      target[name]?.or source[name]? := by
  have hfound : (source.toList.find? (compare ·.1 name == .eq)).map
      Prod.snd = source[name]? := by
    cases hfind : source.toList.find? (compare ·.1 name == .eq) with
    | none =>
        rw [Std.ExtTreeMap.find?_toList_eq_none_iff_not_mem] at hfind
        exact (Std.ExtTreeMap.getElem?_eq_none hfind).symm
    | some entry =>
        have hkey : entry.1 = name := by
          simpa using List.find?_some hfind
        have hentry := List.mem_of_find?_eq_some hfind
        rw [← hkey]
        exact (Std.ExtTreeMap.mem_toList_iff_getElem?_eq_some.mp hentry).symm
  rw [insertParameters, foldl_insertIfNew_getElem?, hfound]

theorem insertParameters_empty (source : Parameters) :
    insertParameters ∅ source = source := by
  apply Std.ExtTreeMap.ext_getElem?
  intro name
  rw [insertParameters_getElem?]
  simp

/-- The result is the source exactly when the target had no other parameters
and no other values. -/
theorem insertParameters_eq_iff (target source : Parameters) :
    insertParameters target source = source ↔
      ∀ name value : ByteString, target[name]? = some value →
        source[name]? = some value := by
  constructor
  · intro hequal name value htarget
    have hmerged := insertParameters_getElem? target source name
    rw [hequal, htarget] at hmerged
    exact hmerged
  · intro hwithin
    apply Std.ExtTreeMap.ext_getElem?
    intro name
    rw [insertParameters_getElem?]
    cases htarget : target[name]? with
    | none => rfl
    | some value => exact (hwithin name value htarget).symm

/-! ## Ownership -/

/-- Every command owns an array of its length, or none and has the length zero,
and different commands own different arrays. -/
structure World.Owned (world : World Executor) : Prop where
  backed : ∀ {this : ℕ} {command : Command Executor},
    world.objects this = some command →
      ∃ bytes, world.heap.contents command.data = some bytes ∧
        bytes.length = command.length
  separate : ∀ {this other : ℕ} {command command' : Command Executor},
    world.objects this = some command → world.objects other = some command' →
      command.data = command'.data → command.data = none ∨ this = other

section Objects

variable (world : World Executor) {this other : ℕ}
variable (command : Command Executor)

@[simp]
theorem set_objects_self :
    (world.set this command).objects this = some command :=
  Function.update_self ..

theorem set_objects_of_ne (hother : other ≠ this) :
    (world.set this command).objects other = world.objects other :=
  Function.update_of_ne hother ..

theorem destruct_objects_of_ne (hother : other ≠ this) :
    (world.destruct this).objects other = world.objects other :=
  Function.update_of_ne hother ..

/-- What is there after a destruction was there before, at another address. -/
theorem objects_of_destruct {command : Command Executor}
    (hcommand : (world.destruct this).objects other = some command) :
    other ≠ this ∧ world.objects other = some command := by
  have hother : other ≠ this := by
    rintro rfl
    simp [World.destruct] at hcommand
  exact ⟨hother, (destruct_objects_of_ne world hother).symm.trans hcommand⟩

end Objects

section Ownership

variable {world : World Executor} {this other : ℕ}

theorem owned_empty : (World.empty : World Executor).Owned where
  backed := by
    intro this command hcommand
    simp [World.empty] at hcommand
  separate := by
    intro this other command command' hcommand
    simp [World.empty] at hcommand

/-- Replacing an object, with arrays of its own, and leaving the arrays of the
others. -/
theorem World.Owned.set (howned : world.Owned) (this : ℕ)
    {command : Command Executor} {heap : Heap UInt8} {bytes : ByteString}
    (hbytes : heap.contents command.data = some bytes)
    (hlength : bytes.length = command.length)
    (hframe : ∀ other command', other ≠ this →
      world.objects other = some command' →
        heap.contents command'.data = world.heap.contents command'.data)
    (hseparate : ∀ other command', other ≠ this →
      world.objects other = some command' → command.data = command'.data →
        command.data = none) :
    (World.set { world with heap } this command).Owned where
  backed := by
    intro other found hfound
    by_cases hsame : other = this
    · subst hsame
      obtain rfl : command = found := by simpa using hfound
      exact ⟨bytes, hbytes, hlength⟩
    · rw [set_objects_of_ne _ _ hsame] at hfound
      obtain ⟨kept, hkept, hsize⟩ := howned.backed hfound
      exact ⟨kept, (hframe other found hsame hfound).trans hkept, hsize⟩
  separate := by
    intro first second left right hleft hright hshared
    by_cases hfirst : first = this
    · subst hfirst
      obtain rfl : command = left := by simpa using hleft
      by_cases hsecond : second = first
      · exact .inr hsecond.symm
      · rw [set_objects_of_ne _ _ hsecond] at hright
        exact .inl (hseparate second right hsecond hright hshared)
    · rw [set_objects_of_ne _ _ hfirst] at hleft
      by_cases hsecond : second = this
      · subst hsecond
        obtain rfl : command = right := by simpa using hright
        have hnone := hseparate first left hfirst hleft hshared.symm
        exact .inl (hshared.trans hnone)
      · rw [set_objects_of_ne _ _ hsecond] at hright
        exact howned.separate hleft hright hshared

theorem World.Owned.destruct (howned : world.Owned) (this : ℕ) :
    (world.destruct this).Owned where
  backed := by
    intro other command hcommand
    exact howned.backed (objects_of_destruct world hcommand).2
  separate := by
    intro first second left right hleft hright hshared
    exact howned.separate (objects_of_destruct world hleft).2
      (objects_of_destruct world hright).2 hshared

/-- An object that keeps its array. -/
theorem World.Owned.modify (howned : world.Owned)
    {target command : Command Executor}
    (htarget : world.objects this = some target)
    (hdata : command.data = target.data)
    (hlength : command.length = target.length) :
    (world.set this command).Owned := by
  obtain ⟨bytes, hbytes, hsize⟩ := howned.backed htarget
  refine howned.set this (hdata ▸ hbytes) (hsize.trans hlength.symm)
    (fun _ _ _ _ => rfl) ?_
  intro other command' hother hcommand' hshared
  rw [hdata] at hshared ⊢
  exact (howned.separate htarget hcommand' hshared).resolve_right
    (Ne.symm hother)

/-- An object without data. -/
theorem World.Owned.blank (howned : world.Owned) (this : ℕ)
    {command : Command Executor} (hdata : command.data = none)
    (hlength : command.length = 0) : (world.set this command).Owned := by
  have hbytes : world.heap.contents command.data = some [] := by
    rw [hdata, Heap.contents_none]
  exact howned.set this hbytes hlength.symm (fun _ _ _ _ => rfl)
    (fun _ _ _ _ _ => hdata)

/-- The array of an object is not that of another one. -/
theorem World.Owned.data_ne (howned : world.Owned)
    {target command : Command Executor}
    (htarget : world.objects this = some target)
    (hcommand : world.objects other = some command) (hother : other ≠ this) :
    command.data = none ∨ command.data ≠ target.data := by
  by_cases hshared : command.data = target.data
  · exact .inl ((howned.separate hcommand htarget hshared).resolve_right
      hother)
  · exact .inr hshared

/-- An object with a new array in place of its old one. -/
theorem World.Owned.renew (howned : world.Owned)
    {target command : Command Executor}
    (htarget : world.objects this = some target) {data : ℕ}
    {bytes : ByteString} {heap : Heap UInt8}
    (hrenewed : Heap.Renewed world.heap target.data data bytes heap)
    (hdata : command.data = some data)
    (hlength : bytes.length = command.length) :
    (World.set { world with heap } this command).Owned := by
  refine howned.set this (hdata ▸ hrenewed.holds) hlength ?_ ?_
  · intro other command' hother hcommand'
    obtain ⟨kept, hkept, -⟩ := howned.backed hcommand'
    rw [hkept]
    exact hrenewed.frame _ _ (howned.data_ne htarget hcommand' hother) hkept
  · intro other command' hother hcommand' hshared
    obtain ⟨kept, hkept, -⟩ := howned.backed hcommand'
    have hunused := hrenewed.unused
    rw [← hdata, hshared, hkept] at hunused
    exact absurd hunused (by simp)

/-- An object that takes over the array of another one. -/
theorem World.Owned.move (howned : world.Owned) {source : Command Executor}
    (hsource : world.objects other = some source) (hthis : this ≠ other)
    {heap : Heap UInt8}
    (hframe : ∀ object command, object ≠ this →
      world.objects object = some command →
        heap.contents command.data = world.heap.contents command.data) :
    ((World.set { world with heap } other World.movedFrom).set this
      source).Owned := by
  -- the target is out of the way while its source is emptied
  have hemptied : (World.set { world.destruct this with heap } other
      World.movedFrom).Owned := by
    refine (howned.destruct this).set other Heap.contents_none rfl ?_ ?_
    · intro object command _ hcommand
      obtain ⟨hobject, hcommand⟩ := objects_of_destruct world hcommand
      exact hframe object command hobject hcommand
    · exact fun _ _ _ _ _ => rfl
  obtain ⟨bytes, hbytes, hlength⟩ := howned.backed hsource
  have hdata := (hframe other source (Ne.symm hthis) hsource).trans hbytes
  have hmoved := hemptied.set this hdata hlength (fun _ _ _ _ => rfl) ?_
  · have hobjects : Function.update (Function.update
        (Function.update world.objects this none) other
          (some World.movedFrom)) this (some source) =
        Function.update (Function.update world.objects other
          (some World.movedFrom)) this (some source) := by
      funext object
      by_cases hobject : object = this
      · subst hobject
        simp
      · by_cases hobject' : object = other
        · subst hobject'
          simp [hobject]
        · simp [hobject, hobject']
    rw [World.set, World.set, World.destruct] at hmoved
    rw [World.set, World.set, ← hobjects]
    exact hmoved
  · intro object command hobject hcommand hshared
    by_cases hobject' : object = other
    · subst hobject'
      obtain rfl : World.movedFrom = command := by simpa using hcommand
      exact hshared
    · rw [set_objects_of_ne _ _ hobject'] at hcommand
      obtain ⟨-, hcommand'⟩ := objects_of_destruct world hcommand
      exact (howned.separate hsource hcommand' hshared).resolve_right
        (Ne.symm hobject')

end Ownership

section Calls

variable {world : World Executor} {this other : ℕ}
variable {target source : Command Executor} {bytes : ByteString}

/-- The copy constructor leaves the new object without data. -/
theorem copyConstruct_eq (hthis : world.objects this = none)
    (hsource : world.objects other = some source)
    (hbytes : world.heap.contents source.data = some bytes) :
    world.copyConstruct this other = some (world.set this
      { name := source.name
        executor := source.executor
        parameters := source.parameters }) := by
  simp only [World.copyConstruct, hthis, hsource, Option.bind_eq_bind,
    Option.bind_some, Heap.read_zero hbytes, Heap.store, List.length_nil,
    if_true, insertParameters_empty]
  rfl

/-- The copy assignment copies the data to a new array. -/
theorem copyAssign_spec (howned : world.Owned)
    (htarget : world.objects this = some target)
    (hsource : world.objects other = some source) (hother : this ≠ other)
    (hbytes : world.heap.contents source.data = some bytes) :
    ∃ data heap,
      world.copyAssign this other = some (World.set { world with heap } this
        { name := source.name
          executor := source.executor
          parameters := insertParameters target.parameters source.parameters
          length := source.length
          data := some data }) ∧
      Heap.Renewed world.heap target.data data bytes heap := by
  obtain ⟨old, hold, -⟩ := howned.backed htarget
  have hlength : bytes.length = source.length := by
    obtain ⟨found, hfound, hlength⟩ := howned.backed hsource
    rw [hbytes] at hfound
    rwa [Option.some.inj hfound]
  obtain ⟨released, data, allocated, hreleased, hallocated, hkept, hfill⟩ :=
    Heap.renew_spec hold (List.replicate source.length 0)
  obtain ⟨heap, hheap, hrenewed⟩ := hfill bytes (by simp [hlength])
  have hcopied : allocated.read source.data source.length = some bytes := by
    rw [← hlength]
    exact Heap.read_length (hkept _ _
      (howned.data_ne htarget hsource (Ne.symm hother)) hbytes)
  refine ⟨data, heap, ?_, hrenewed⟩
  simp only [World.copyAssign, htarget, hsource, Option.bind_eq_bind,
    Option.bind_some, if_neg hother, hreleased, hallocated, hcopied, hheap]
  rfl

theorem setData_spec (howned : world.Owned)
    (htarget : world.objects this = some target) (pData : Memory)
    (length : ℕ) :
    ∃ data heap,
      world.setData this pData length = some (World.set { world with heap }
        this { target with length, data := some data }) ∧
      Heap.Renewed world.heap target.data data (slice pData 0 length)
        heap := by
  obtain ⟨old, hold, -⟩ := howned.backed htarget
  obtain ⟨released, data, allocated, hreleased, hallocated, -, hfill⟩ :=
    Heap.renew_spec hold (List.replicate length 0)
  obtain ⟨heap, hheap, hrenewed⟩ := hfill (slice pData 0 length) (by simp)
  refine ⟨data, heap, ?_, hrenewed⟩
  simp only [World.setData, htarget, Option.bind_eq_bind, Option.bind_some,
    hreleased, hallocated, hheap]
  rfl

theorem moveAssign_spec (howned : world.Owned)
    (htarget : world.objects this = some target)
    (hsource : world.objects other = some source) (hother : this ≠ other) :
    ∃ heap,
      world.moveAssign this other =
        some ((World.set { world with heap } other World.movedFrom).set this
          source) ∧
      ∀ object command, object ≠ this →
        world.objects object = some command →
          heap.contents command.data =
            world.heap.contents command.data := by
  obtain ⟨old, hold, -⟩ := howned.backed htarget
  obtain ⟨heap, hheap, hframe⟩ := Heap.release_spec hold
  refine ⟨heap, ?_, ?_⟩
  · simp only [World.moveAssign, htarget, hsource, Option.bind_eq_bind,
      Option.bind_some, if_neg hother, hheap]
    rfl
  · intro object command hobject hcommand
    exact hframe _ (howned.data_ne htarget hcommand hobject)

end Calls

/-- Every call keeps the ownership of the arrays. -/
theorem World.Owned.step {world next : World Executor} (howned : world.Owned)
    {action : Action} (hnext : step world action = some next) :
    next.Owned := by
  cases action with
  | construct this name =>
      simp only [Command.step, World.construct] at hnext
      split at hnext
      · contradiction
      · obtain rfl := Option.some.inj hnext
        exact howned.blank this rfl rfl
  | copyConstruct this other =>
      cases hthis : world.objects this with
      | some _ => simp [Command.step, World.copyConstruct, hthis] at hnext
      | none =>
          cases hsource : world.objects other with
          | none =>
              simp [Command.step, World.copyConstruct, hthis, hsource] at hnext
          | some source =>
              obtain ⟨bytes, hbytes, -⟩ := howned.backed hsource
              rw [Command.step, copyConstruct_eq hthis hsource hbytes] at hnext
              obtain rfl := Option.some.inj hnext
              exact howned.blank this rfl rfl
  | copyAssign this other =>
      obtain ⟨target, htarget, hrest⟩ := Option.bind_eq_some_iff.mp hnext
      obtain ⟨source, hsource, hrest⟩ := Option.bind_eq_some_iff.mp hrest
      by_cases hother : this = other
      · rw [if_pos hother] at hrest
        obtain rfl := Option.some.inj hrest
        exact howned
      · obtain ⟨bytes, hbytes, hlength⟩ := howned.backed hsource
        obtain ⟨data, heap, hassigned, hrenewed⟩ :=
          copyAssign_spec howned htarget hsource hother hbytes
        rw [Command.step, hassigned] at hnext
        obtain rfl := Option.some.inj hnext
        exact howned.renew htarget hrenewed rfl hlength
  | moveConstruct this other =>
      cases hthis : world.objects this with
      | some _ => simp [Command.step, World.moveConstruct, hthis] at hnext
      | none =>
          simp only [Command.step, World.moveConstruct, hthis] at hnext
          obtain ⟨source, hsource, hmoved⟩ := Option.bind_eq_some_iff.mp hnext
          have hother : this ≠ other := by
            rintro rfl
            simp [hthis] at hsource
          obtain rfl := Option.some.inj hmoved
          exact howned.move hsource hother fun _ _ _ _ => rfl
  | moveAssign this other =>
      obtain ⟨target, htarget, hrest⟩ := Option.bind_eq_some_iff.mp hnext
      obtain ⟨source, hsource, hrest⟩ := Option.bind_eq_some_iff.mp hrest
      by_cases hother : this = other
      · rw [if_pos hother] at hrest
        obtain rfl := Option.some.inj hrest
        exact howned
      · obtain ⟨heap, hassigned, hframe⟩ :=
          moveAssign_spec howned htarget hsource hother
        rw [Command.step, hassigned] at hnext
        obtain rfl := Option.some.inj hnext
        exact howned.move hsource hother hframe
  | destruct this =>
      obtain rfl := Option.some.inj hnext
      exact howned.destruct this
  | setName this name =>
      obtain ⟨target, htarget, hset⟩ := Option.bind_eq_some_iff.mp hnext
      obtain rfl := Option.some.inj hset
      exact howned.modify htarget rfl rfl
  | setParameter this name value =>
      obtain ⟨target, htarget, hset⟩ := Option.bind_eq_some_iff.mp hnext
      obtain rfl := Option.some.inj hset
      exact howned.modify htarget rfl rfl
  | setData this pData length =>
      obtain ⟨target, htarget, -⟩ := Option.bind_eq_some_iff.mp hnext
      obtain ⟨data, heap, hset, hrenewed⟩ :=
        setData_spec howned htarget pData length
      rw [Command.step, hset] at hnext
      obtain rfl := Option.some.inj hnext
      exact howned.renew htarget hrenewed rfl (by simp)

theorem owned_of_run {world : World Executor} {actions : List Action}
    (hrun : run step World.empty actions = some world) : world.Owned :=
  run_invariant World.Owned (fun _ _ _ howned hnext => howned.step hnext)
    owned_empty hrun

/-! ## Copies -/

/-- The object at `copy` has the name, the parameters and the data that the
object at `src` had before, and that object is as it was. -/
def Copied (before : World Executor) (src : ℕ) (after : World Executor)
    (copy : ℕ) : Prop :=
  ∃ source copied bytes, before.objects src = some source ∧
    before.heap.contents source.data = some bytes ∧
    bytes.length = source.length ∧
    after.objects copy = some copied ∧ copied.name = source.name ∧
    copied.parameters = source.parameters ∧ copied.length = source.length ∧
    after.heap.contents copied.data = some bytes ∧
    after.objects src = some source ∧
    after.heap.contents source.data = some bytes

section Copies

variable {world : World Executor} {src dst this : ℕ}
variable {source target : Command Executor}

theorem copyConstruct_copied_iff (howned : world.Owned)
    (hsource : world.objects src = some source)
    (hthis : world.objects this = none) :
    ∃ after, step world (.copyConstruct this src) = some after ∧
      (Copied world src after this ↔ source.length = 0) := by
  obtain ⟨bytes, hbytes, hlength⟩ := howned.backed hsource
  refine ⟨_, copyConstruct_eq hthis hsource hbytes, ?_⟩
  constructor
  · rintro ⟨found, copied, -, hfound, -, -, hcopied, -, -, hsize, -⟩
    obtain rfl : source = found := by simpa [hsource] using hfound
    rw [set_objects_self, Option.some.injEq] at hcopied
    rw [← hsize, ← hcopied]
  · intro hzero
    have hsrc : src ≠ this := by
      rintro rfl
      simp [hthis] at hsource
    have hempty : bytes = [] := by
      rw [← List.length_eq_zero_iff, hlength, hzero]
    refine ⟨source, _, bytes, hsource, hbytes, hlength, set_objects_self _ _,
      rfl, rfl, hzero.symm, ?_, ?_, hbytes⟩
    · rw [hempty]
      rfl
    · rwa [set_objects_of_ne _ _ hsrc]

theorem copyAssign_copied_iff (howned : world.Owned)
    (hsource : world.objects src = some source)
    (htarget : world.objects dst = some target) :
    ∃ after, step world (.copyAssign dst src) = some after ∧
      (Copied world src after dst ↔
        dst = src ∨ ∀ name value : ByteString,
          target.parameters[name]? = some value →
            source.parameters[name]? = some value) := by
  obtain ⟨bytes, hbytes, hlength⟩ := howned.backed hsource
  by_cases hself : dst = src
  · subst hself
    refine ⟨world, by simp [step, World.copyAssign, hsource], ?_⟩
    exact iff_of_true ⟨source, source, bytes, hsource, hbytes, hlength,
      hsource, rfl, rfl, rfl, hbytes, hsource, hbytes⟩ (.inl rfl)
  · obtain ⟨data, heap, hassigned, hrenewed⟩ :=
      copyAssign_spec howned htarget hsource hself hbytes
    refine ⟨_, hassigned, ?_⟩
    rw [← insertParameters_eq_iff]
    constructor
    · rintro ⟨found, copied, -, hfound, -, -, hcopied, -, hparameters, -⟩
      obtain rfl : source = found := by simpa [hsource] using hfound
      rw [set_objects_self, Option.some.injEq] at hcopied
      rw [← hcopied] at hparameters
      exact .inr hparameters
    · intro hcondition
      have hparameters := hcondition.resolve_left hself
      have hkept := hrenewed.frame _ _
        (howned.data_ne htarget hsource (Ne.symm hself)) hbytes
      refine ⟨source, _, bytes, hsource, hbytes, hlength,
        set_objects_self _ _, rfl, hparameters, rfl, hrenewed.holds, ?_,
        hkept⟩
      rwa [set_objects_of_ne _ _ (Ne.symm hself)]

end Copies

/-- In every world that can be reached, the copy constructor copies a command
exactly when the command has no data, and the copy assignment exactly when the
target has no parameters and no values of its own. -/
theorem copies_iff {world : World Executor} {actions : List Action}
    (hrun : run step World.empty actions = some world) {src dst this : ℕ}
    {source target : Command Executor}
    (hsource : world.objects src = some source)
    (htarget : world.objects dst = some target)
    (hthis : world.objects this = none) :
    (∃ after, step world (.copyConstruct this src) = some after ∧
      (Copied world src after this ↔ source.length = 0)) ∧
    ∃ after, step world (.copyAssign dst src) = some after ∧
      (Copied world src after dst ↔
        dst = src ∨ ∀ name value : ByteString,
          target.parameters[name]? = some value →
            source.parameters[name]? = some value) := by
  have howned := owned_of_run hrun
  exact ⟨copyConstruct_copied_iff howned hsource hthis,
    copyAssign_copied_iff howned hsource htarget⟩

theorem copies_iff_two_commands :
    ∃ world after : World Unit,
      run step World.empty
        [.construct 0 (ascii "put"), .construct 1 (ascii "get")] =
          some world ∧
      step world (.copyConstruct 2 0) = some after ∧
      Copied world 0 after 2 := by
  obtain ⟨⟨after, hafter, hcopied⟩, -⟩ := @copies_iff Unit _
    [.construct 0 (ascii "put"), .construct 1 (ascii "get")] rfl 0 1 2
    { name := ascii "put" } { name := ascii "get" } rfl rfl rfl
  exact ⟨_, after, rfl, hafter, hcopied.mpr rfl⟩

/-- A command with a byte of data, and another one with a parameter. -/
def putAndGet : List Action :=
  [.construct 0 (ascii "put"), .setData 0 (fun _ => 65) 1,
    .construct 1 (ascii "get"), .setParameter 1 (ascii "key") (ascii "old")]

/-- The data of the first command are lost in a copy, and the parameter of the
second one survives an assignment. -/
theorem copies_wrong :
    ∃ world constructed assigned : World Unit,
      run step World.empty putAndGet = some world ∧
      step world (.copyConstruct 2 0) = some constructed ∧
      ¬ Copied world 0 constructed 2 ∧
      step world (.copyAssign 1 0) = some assigned ∧
      ¬ Copied world 0 assigned 1 := by
  have hsource := fun world : World Unit => @copyConstruct_copied_iff Unit
    world 0 2 { name := ascii "put", length := 1, data := some 0 }
  have htarget := fun world : World Unit => @copyAssign_copied_iff Unit
    world 0 1 { name := ascii "put", length := 1, data := some 0 }
    { name := ascii "get"
      parameters := (∅ : Parameters).insert (ascii "key") (ascii "old") }
  obtain ⟨constructed, hconstructed, hcopied⟩ :=
    hsource _ (@owned_of_run Unit _ putAndGet rfl) rfl rfl
  obtain ⟨assigned, hassigned, hcopied'⟩ :=
    htarget _ (@owned_of_run Unit _ putAndGet rfl) rfl rfl
  refine ⟨_, constructed, assigned, rfl, hconstructed, ?_, hassigned, ?_⟩
  · rw [hcopied]
    exact Nat.one_ne_zero
  · rw [hcopied']
    rintro (hself | hwithin)
    · simp at hself
    · have hkey := hwithin (ascii "key") (ascii "old") (by simp)
      simp at hkey

end Command

end KataCpp
