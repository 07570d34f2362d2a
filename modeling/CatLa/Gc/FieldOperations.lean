import Mathlib.Tactic.Abel
import CatLa.Gc.CycleCollector
import CatLa.Gc.HeapAccounting

namespace CatLa
open FuelLoop

/-- What `HeapChunk::malloc` writes into the cell it returns. -/
def HeapObject.allocate (o : HeapObject) (typeInfo : Address) (isCyclicType : Bool) (fieldLength : Nat) : HeapObject :=
  { o with fields := List.replicate fieldLength 0, typeInfo := typeInfo, asyncRelease := false, state := .live,
           isCyclicType := isCyclicType, count := 1 }

/-- `malloc`, when it returns `cell`. -/
def GcState.malloc (m : GcState) (cell typeInfo : Address) (isCyclicType : Bool) (fieldLength : Nat) : GcState :=
  { m with heap := m.heap.modify cell (·.allocate typeInfo isCyclicType fieldLength) }

theorem GcState.malloc_self (m : GcState) (cell typeInfo : Address) (isCyclicType : Bool) (fieldLength : Nat) :
    (m.malloc cell typeInfo isCyclicType fieldLength).heap cell = (m.heap cell).allocate typeInfo isCyclicType fieldLength := by
  simp [GcState.malloc]

theorem GcState.malloc_of_ne (m : GcState) {cell p : Address} (typeInfo : Address) (isCyclicType : Bool) (fieldLength : Nat)
    (different : p ≠ cell) : (m.malloc cell typeInfo isCyclicType fieldLength).heap p = m.heap p := by
  simp [GcState.malloc, Heap.modify_of_ne _ _ different]

/-- `object_lock`, which spins on a locked object. -/
def objectLock (heap : Heap) (object : Address) : Option Heap :=
  if (heap object).lockFlag then none else some (heap.modify object (·.setLock true))

/-- `object_unlock`. -/
def objectUnlock (heap : Heap) (object : Address) : Heap := heap.modify object (·.setLock false)

/-- The loop that the setters and `get_move_object_field` share: the field is
exchanged under the lock of the parent. While the field is borrowed the loop
goes round for ever. -/
def exchangeField (heap : Heap) (parent : Address) (fieldIndex : Nat) (word : Address) : Option (Heap × Address) :=
  (objectLock heap parent).bind fun heap =>
  let oldFieldObject := (heap parent).field fieldIndex
  if oldFieldObject = 1 then none
  else some (objectUnlock (heap.modify parent (·.setField fieldIndex word)) parent, oldFieldObject)

/-- The last statement of the setters. -/
def releaseOld (fuel : Nat) (m : GcState) (heap : Heap) (oldFieldObject : Address) : Option GcState :=
  if oldFieldObject ≠ 0 then
    (decrementReferenceCount fuel heap oldFieldObject).map fun heap => { m with heap := heap }
  else some { m with heap := heap }

/-- `set_clone_object_field`. -/
def setCloneObjectField (fuel : Nat) (m : GcState) (parent : Address) (fieldIndex : Nat) (fieldObject : Address) :
    Option GcState :=
  let m := incrementReferenceCount m fieldObject
  (exchangeField m.heap parent fieldIndex fieldObject).bind fun old => releaseOld fuel m old.1 old.2

/-- `set_move_object_field`. -/
def setMoveObjectField (fuel : Nat) (m : GcState) (parent : Address) (fieldIndex : Nat) (fieldObject : Address) :
    Option GcState :=
  (exchangeField m.heap parent fieldIndex fieldObject).bind fun old => releaseOld fuel m old.1 old.2

/-- `set_move_object_field_uncheck`, which does not look at the old word. -/
def setMoveObjectFieldUncheck (m : GcState) (parent : Address) (fieldIndex : Nat) (fieldObject : Address) :
    Option GcState :=
  (objectLock m.heap parent).map fun heap =>
  { m with heap := objectUnlock (heap.modify parent (·.setField fieldIndex fieldObject)) parent }

/-- `get_move_object_field`. -/
def getMoveObjectField (m : GcState) (parent : Address) (fieldIndex : Nat) : Option (GcState × Address) :=
  (exchangeField m.heap parent fieldIndex 0).map fun old => ({ m with heap := old.1 }, old.2)

/-- `get_clone_object_field`. -/
def getCloneObjectField (m : GcState) (parent : Address) (fieldIndex : Nat) : Option (GcState × Address) :=
  (objectLock m.heap parent).bind fun heap =>
  let fieldObject := (heap parent).field fieldIndex
  if fieldObject = 1 then none
  else
    let m := { m with heap := heap }
    let m := if fieldObject ≠ 0 then incrementReferenceCount m fieldObject else m
    some ({ m with heap := objectUnlock m.heap parent }, fieldObject)

/-- `decrement_reference_count` on the state of the collector. -/
def dropReference (fuel : Nat) (m : GcState) (object : Address) : Option GcState :=
  (decrementReferenceCount fuel m.heap object).map fun heap => { m with heap := heap }

/-- The references that a word stands for. -/
def wordRefs (w : Address) : Multiset Address := if w = 0 then 0 else {w}

theorem HeapObject.pointers_setField {o : HeapObject} {i : Nat} (bound : i < o.fields.length) (w : Address) :
    (o.setField i w).pointers + wordRefs (o.field i) = o.pointers + wordRefs w := by
  have refs (before after : List Address) (v : Address) : (↑((before ++ v :: after).filter (· ≠ 0)) : Multiset Address) =
      ↑(before.filter (· ≠ 0)) + (wordRefs v + ↑(after.filter (· ≠ 0))) := by
    rw [List.filter_append, ← Multiset.coe_add, wordRefs]
    by_cases null : v = 0
    · rw [List.filter_cons_of_neg (by simpa using null), if_pos null, zero_add]
    · rw [List.filter_cons_of_pos (by simpa using null), if_neg null]
      rfl
  have split : o.fields = o.fields.take i ++ o.field i :: o.fields.drop (i + 1) := by
    rw [field, List.getD_eq_getElem _ _ bound, List.getElem_cons_drop, List.take_append_drop]
  have after : (o.setField i w).fields = o.fields.take i ++ w :: o.fields.drop (i + 1) := by
    rw [setField, List.set_eq_take_append_cons_drop, if_pos bound]
  have whole : o.pointers = ↑((o.fields.take i).filter (· ≠ 0)) +
      (wordRefs (o.field i) + ↑((o.fields.drop (i + 1)).filter (· ≠ 0))) := by
    rw [pointers, ← refs, ← split]
  rw [whole, pointers, after, refs]
  abel

theorem HeapObject.mem_pointers_setField {o : HeapObject} {i : Nat} {w x : Address} (member : x ∈ (o.setField i w).pointers) :
    x = w ∨ x ∈ o.pointers := by
  obtain ⟨member, nonnull⟩ := mem_pointers.mp member
  exact (List.mem_or_eq_of_mem_set member).symm.imp_right fun old => mem_pointers.mpr ⟨old, nonnull⟩

/-- `increment_reference_count`, in one step. -/
theorem incrementReferenceCount_eq (m : GcState) (x : Address) :
    incrementReferenceCount m x =
      if (m.heap x).count = 1 ∧ (m.heap x).isCyclicType = true ∧ (m.heap x).asyncRelease = false then
        { heap := m.heap.modify x fun o => { o with count := o.count + 1, asyncRelease := true },
          suspectedObjectList := m.suspectedObjectList.insert x }
      else { m with heap := m.heap.modify x .fetchAdd } := by
  have twice (f g : HeapObject → HeapObject) : (m.heap.modify x f).modify x g = m.heap.modify x fun o => g (f o) := by
    simp only [Heap.modify, Function.update_idem, Function.update_self]
  unfold incrementReferenceCount
  simp only [Heap.modify_self, HeapObject.fetchAdd, twice, GcState.addSuspectedObject]
  by_cases one : (m.heap x).count = 1 <;> by_cases cyclic : (m.heap x).isCyclicType = true <;>
    by_cases async : (m.heap x).asyncRelease = false <;> simp [one, cyclic, async]

theorem objectUnlock_lock {h : Heap} {o : Address} (free : (h o).lockFlag = false) :
    objectUnlock (h.modify o (·.setLock true)) o = h := by
  simp only [objectUnlock, Heap.modify, Function.update_idem, Function.update_self, HeapObject.setLock, ← free]
  exact Function.update_eq_self o h

/-- The lock of an object does not take part in counting. -/
theorem incrementReferenceCount_locked (m : GcState) (parent x : Address) :
    incrementReferenceCount { m with heap := m.heap.modify parent (·.setLock true) } x =
      { incrementReferenceCount m x with heap := (incrementReferenceCount m x).heap.modify parent (·.setLock true) } := by
  have atX : (m.heap.modify parent (·.setLock true) x).count = (m.heap x).count ∧
      (m.heap.modify parent (·.setLock true) x).isCyclicType = (m.heap x).isCyclicType ∧
      (m.heap.modify parent (·.setLock true) x).asyncRelease = (m.heap x).asyncRelease := by
    rw [Heap.modify_apply]
    split <;> exact ⟨rfl, rfl, rfl⟩
  rw [incrementReferenceCount_eq, incrementReferenceCount_eq]
  simp only [atX]
  split
  · exact congrArg (GcState.mk · _) (Heap.modify_comm _ _ _ fun _ => rfl)
  · exact congrArg (GcState.mk · _) (Heap.modify_comm _ _ _ fun _ => rfl)

theorem incrementReferenceCount_fields (m : GcState) (x o : Address) :
    ((incrementReferenceCount m x).heap o).fields = (m.heap o).fields ∧
      ((incrementReferenceCount m x).heap o).lockFlag = (m.heap o).lockFlag := by
  rw [incrementReferenceCount_eq]
  split <;> simp only [Heap.modify_apply] <;> split <;> exact ⟨rfl, rfl⟩

theorem incrementReferenceCount_modify_fields (m : GcState) (x parent : Address) (i : Nat) (w o : Address) :
    ((incrementReferenceCount m x).heap.modify parent (·.setField i w) o).fields =
      (m.heap.modify parent (·.setField i w) o).fields := by
  have same := (incrementReferenceCount_fields m x o).1
  rw [Heap.modify_apply, Heap.modify_apply]
  split
  · exact congrArg (fun words => words.set i w) same
  · exact same

theorem incrementReferenceCount_isCyclicType (m : GcState) (x o : Address) :
    ((incrementReferenceCount m x).heap o).isCyclicType = (m.heap o).isCyclicType := by
  rw [incrementReferenceCount_eq]
  split <;> simp only [Heap.modify_apply] <;> split <;> rfl

/-- A word is written under the lock of the parent. -/
theorem objectUnlock_setField {h : Heap} {parent : Address} (free : (h parent).lockFlag = false) (word : Address) (i : Nat) :
    objectUnlock ((h.modify parent (·.setLock true)).modify parent (·.setField i word)) parent =
      h.modify parent (·.setField i word) := by
  simp only [objectUnlock, Heap.modify, Function.update_idem, Function.update_self]
  congr 1
  rw [HeapObject.setLock, HeapObject.setLock, HeapObject.setField, HeapObject.setField, ← free]

/-- The exchange of a field, in one step. -/
theorem exchangeField_eq (h : Heap) (parent word : Address) (i : Nat) :
    exchangeField h parent i word =
      if (h parent).lockFlag = true ∨ (h parent).field i = 1 then none
      else some (h.modify parent (·.setField i word), (h parent).field i) := by
  unfold exchangeField objectLock
  by_cases locked : (h parent).lockFlag = true
  · rw [if_pos locked, if_pos (Or.inl locked)]
    rfl
  · have free := Bool.eq_false_of_not_eq_true locked
    have atParent : (h.modify parent (·.setLock true) parent).field i = (h parent).field i := by
      rw [Heap.modify_self]
      rfl
    rw [if_neg locked, Option.bind_some]
    dsimp only
    rw [atParent, objectUnlock_setField free]
    simp only [free, Bool.false_eq_true, false_or]

/-- The unchecked setter does what the other one does, in a field that refers to
nothing. -/
theorem returns_setMoveObjectField {m m' : GcState} {parent child : Address} {i : Nat}
    (null : (m.heap parent).field i = 0) (run : setMoveObjectFieldUncheck m parent i child = some m') :
    Returns (fun fuel => setMoveObjectField fuel m parent i child) m' := by
  refine .of_eq fun fuel => Eq.trans ?_ run
  rw [setMoveObjectField, setMoveObjectFieldUncheck, exchangeField_eq, objectLock, null]
  by_cases locked : (m.heap parent).lockFlag = true
  · rw [if_pos locked, if_pos (Or.inl locked)]
    rfl
  · rw [if_neg locked, if_neg (not_or.mpr ⟨locked, Nat.zero_ne_one⟩)]
    simp only [Option.bind_some, Option.map_some, releaseOld, ne_eq, not_true_eq_false, if_false]
    rw [objectUnlock_setField (Bool.eq_false_of_not_eq_true locked)]

/-- `get_clone_object_field`, in one step. -/
theorem getCloneObjectField_eq (m : GcState) (parent : Address) (i : Nat) :
    getCloneObjectField m parent i =
      if (m.heap parent).lockFlag = true ∨ (m.heap parent).field i = 1 then none
      else if (m.heap parent).field i = 0 then some (m, 0)
      else some (incrementReferenceCount m ((m.heap parent).field i), (m.heap parent).field i) := by
  unfold getCloneObjectField objectLock
  by_cases locked : (m.heap parent).lockFlag = true
  · rw [if_pos locked, if_pos (Or.inl locked)]
    rfl
  · have free := Bool.eq_false_of_not_eq_true locked
    have atParent : (m.heap.modify parent (·.setLock true) parent).field i = (m.heap parent).field i := by
      rw [Heap.modify_self]
      rfl
    rw [if_neg locked, Option.bind_some]
    dsimp only
    rw [atParent]
    simp only [free, Bool.false_eq_true, false_or]
    by_cases null : (m.heap parent).field i = 0
    · rw [null, if_neg Nat.zero_ne_one, if_neg Nat.zero_ne_one, if_neg (not_not.mpr rfl), if_pos rfl]
      dsimp only
      rw [objectUnlock_lock free]
    · rw [if_pos null, if_neg null, incrementReferenceCount_locked]
      dsimp only
      rw [objectUnlock_lock ((incrementReferenceCount_fields m _ parent).2.trans free)]

theorem getCloneObjectField_fields {m m' : GcState} {parent word : Address} {i : Nat}
    (run : getCloneObjectField m parent i = some (m', word)) (o : Address) : (m'.heap o).fields = (m.heap o).fields := by
  rw [getCloneObjectField_eq] at run
  split_ifs at run
  · obtain ⟨rfl, rfl⟩ := Prod.mk.inj (Option.some.inj run)
    rfl
  · obtain ⟨rfl, rfl⟩ := Prod.mk.inj (Option.some.inj run)
    exact (incrementReferenceCount_fields m _ o).1

theorem getCloneObjectField_isCyclicType {m m' : GcState} {parent word : Address} {i : Nat}
    (run : getCloneObjectField m parent i = some (m', word)) (o : Address) :
    (m'.heap o).isCyclicType = (m.heap o).isCyclicType := by
  rw [getCloneObjectField_eq] at run
  split_ifs at run
  · obtain ⟨rfl, rfl⟩ := Prod.mk.inj (Option.some.inj run)
    rfl
  · obtain ⟨rfl, rfl⟩ := Prod.mk.inj (Option.some.inj run)
    exact incrementReferenceCount_isCyclicType m _ o

theorem incrementReferenceCount_of_ne (m : GcState) {x o : Address} (different : o ≠ x) :
    (incrementReferenceCount m x).heap o = m.heap o := by
  rw [incrementReferenceCount_eq]
  split <;> dsimp only <;> exact Heap.modify_of_ne _ _ different

theorem getCloneObjectField_of_ne {m m' : GcState} {parent word : Address} {i : Nat}
    (run : getCloneObjectField m parent i = some (m', word)) {o : Address} (different : o ≠ word) : m'.heap o = m.heap o := by
  rw [getCloneObjectField_eq] at run
  split_ifs at run
  · obtain ⟨rfl, rfl⟩ := Prod.mk.inj (Option.some.inj run)
    rfl
  · obtain ⟨rfl, rfl⟩ := Prod.mk.inj (Option.some.inj run)
    exact incrementReferenceCount_of_ne m different

theorem getMoveObjectField_heap {m m' : GcState} {parent word : Address} {i : Nat}
    (run : getMoveObjectField m parent i = some (m', word)) : m'.heap = m.heap.modify parent (·.setField i 0) := by
  rw [getMoveObjectField, exchangeField_eq] at run
  split_ifs at run
  · exact absurd run (by simp)
  · obtain ⟨rfl, rfl⟩ := Prod.mk.inj (Option.some.inj run)
    rfl

end CatLa
