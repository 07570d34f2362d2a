import CatLa.Gc.FieldOperations
import CatLa.Gc.ReleaseThreads

namespace CatLa

/-- Where a mutator thread is. An increment that still has to set the flag or
to enter the list remembers the field it is made for, if any. -/
inductive Control
  | idle
  | allocate (cell typeInfo : Address) (isCyclicType : Bool) (fieldLength : Nat)
  | flag (object : Address) (target : Option (Address × Nat))
  | list (object : Address) (target : Option (Address × Nat))
  | store (parent : Address) (fieldIndex : Nat) (fieldObject : Address)
  | decrement (call : DropControl)

/-- The end of `increment_reference_count`: the reference becomes a handle, or
`set_clone_object_field` goes on to store it. -/
def Control.incremented (object : Address) : Option (Address × Nat) → Multiset Address × Control
  | none => ({object}, .idle)
  | some (parent, fieldIndex) => (0, .store parent fieldIndex object)

/-- `fetch_add`, and where `increment_reference_count` goes from there. -/
def fetchAddStep (m : GcState) (object : Address) (target : Option (Address × Nat)) :
    GcState × Multiset Address × Control :=
  ({ m with heap := m.heap.modify object .fetchAdd },
    if (m.heap object).count = 1 ∧ (m.heap object).isCyclicType = true then (0, .flag object target)
    else Control.incremented object target)

/-- A setter releases the old word of the field, if there is one. -/
def Control.releaseOld (oldFieldObject : Address) : Control :=
  if oldFieldObject = 0 then .idle else .decrement (.sub oldFieldObject)

/-- Where a thread is after an access of `decrement_reference_count`, which may
have returned. -/
def Control.decremented : DropControl → Control
  | .idle => .idle
  | call => .decrement call

/-- One access of a thread inside an operation: the memory after it, the
handles the thread gains, and where it is then. A thread that waits for a lock
makes no step. -/
def Control.advance (m : GcState) : Control → Option (GcState × Multiset Address × Control)
  | .idle => none
  | .allocate cell typeInfo isCyclicType fieldLength =>
    some (m.malloc cell typeInfo isCyclicType fieldLength, {cell}, .idle)
  | .flag object target =>
    if (m.heap object).asyncRelease = false then
      some ({ m with heap := m.heap.modify object fun o => { o with asyncRelease := true } }, 0, .list object target)
    else some (m, Control.incremented object target)
  | .list object target => some (m.addSuspectedObject object, Control.incremented object target)
  | .store parent fieldIndex fieldObject =>
    (exchangeField m.heap parent fieldIndex fieldObject).map fun old => ({ m with heap := old.1 }, 0, .releaseOld old.2)
  | .decrement call =>
    (call.advance m.heap).map fun (heap, call) => ({ m with heap := heap }, 0, .decremented call)

/-- A mutator thread, with the handles it holds. -/
structure Thread where
  handles : Multiset Address
  control : Control

/-- One step of a thread: an idle one begins an operation on objects it holds,
one inside an operation makes its next access. A section under the lock of an
object is one step, and is not entered while the object is locked. -/
inductive ThreadStep : GcState → Thread → GcState → Thread → Prop
  | malloc {m : GcState} {handles : Multiset Address} {cell : Address} (dead : (m.heap cell).state = .dead)
      (address : 1 < cell) (typeInfo : Address) (isCyclicType : Bool) (fieldLength : Nat) :
      ThreadStep m ⟨handles, .idle⟩ { m with heap := m.heap.modify cell (·.setState .live) }
        ⟨handles, .allocate cell typeInfo isCyclicType fieldLength⟩
  | increment {m m' : GcState} {handles gained : Multiset Address} {object : Address} {control : Control}
      (held : object ∈ handles) (run : fetchAddStep m object none = (m', gained, control)) :
      ThreadStep m ⟨handles, .idle⟩ m' ⟨gained + handles, control⟩
  | drop {m : GcState} {handles : Multiset Address} {object : Address} :
      ThreadStep m ⟨{object} + handles, .idle⟩ m ⟨handles, .decrement (.sub object)⟩
  | getClone {m m' : GcState} {handles : Multiset Address} {parent word : Address} {i : Nat} (held : parent ∈ handles)
      (bound : i < (m.heap parent).fields.length) (run : getCloneObjectField m parent i = some (m', word)) :
      ThreadStep m ⟨handles, .idle⟩ m' ⟨wordRefs word + handles, .idle⟩
  | getMove {m m' : GcState} {handles : Multiset Address} {parent word : Address} {i : Nat} (held : parent ∈ handles)
      (bound : i < (m.heap parent).fields.length) (run : getMoveObjectField m parent i = some (m', word)) :
      ThreadStep m ⟨handles, .idle⟩ m' ⟨wordRefs word + handles, .idle⟩
  | setMove {m : GcState} {handles : Multiset Address} {parent word old : Address} {heap : Heap} {i : Nat}
      (held : parent ∈ handles) (bound : i < (m.heap parent).fields.length)
      (run : exchangeField m.heap parent i word = some (heap, old)) :
      ThreadStep m ⟨wordRefs word + handles, .idle⟩ { m with heap := heap } ⟨handles, .releaseOld old⟩
  | setClone {m m' : GcState} {handles gained : Multiset Address} {parent object : Address} {i : Nat} {control : Control}
      (held : parent ∈ handles) (childHeld : object ∈ handles) (bound : i < (m.heap parent).fields.length)
      (run : fetchAddStep m object (some (parent, i)) = (m', gained, control)) :
      ThreadStep m ⟨handles, .idle⟩ m' ⟨gained + handles, control⟩
  | advance {m m' : GcState} {handles gained : Multiset Address} {control control' : Control}
      (run : control.advance m = some (m', gained, control')) :
      ThreadStep m ⟨handles, control⟩ m' ⟨gained + handles, control'⟩

end CatLa
