import CatLa.Gc.DeferredRelease
import CatLa.Gc.MutatorSteps
import CatLa.Vm.OrderEvaluation

namespace CatLa
open FuelLoop

section States

variable {o : Address}

theorem waitingField_state (currentObject : Address) (s : WaitingLoop) (i : Nat) (o : Address) :
    ((waitingField currentObject s i).heap o).state = (s.heap o).state := by
  have sub (h : Heap) (a : Address) : (h.modify a .fetchSub o).state = (h o).state := by
    rw [Heap.modify_apply]
    split <;> rfl
  have clear (h : Heap) (a : Address) : (h.modify a (·.setField i 0) o).state = (h o).state := by
    rw [Heap.modify_apply]
    split <;> rfl
  unfold waitingField
  dsimp only
  split
  · rfl
  · split
    · split <;> simp only [sub, clear]
    · simp only [sub, clear]

theorem waitingObject_state (currentObject : Address) (s : WaitingLoop) (o : Address) :
    ((waitingObject currentObject s).heap o).state = if o = currentObject then .processGc else (s.heap o).state := by
  have visited : (s.heap.modify currentObject (·.setState .processGc) o).state =
      if o = currentObject then .processGc else (s.heap o).state := by
    rw [Heap.modify_apply]
    split <;> rfl
  unfold waitingObject
  refine forRange (fun _ s' => (s'.heap o).state = if o = currentObject then .processGc else (s.heap o).state)
    (fun i _ s' same => (waitingField_state currentObject s' i o).trans same) _ ?_
  exact visited

/-- The deferred release makes no object live, and leaves its own object in
another state. -/
theorem waitingInner_unlived {fuel : Nat} {current : Address} {s s' : WaitingLoop}
    (returned : whileTrue waitingInnerBody fuel (current, s) = some s') (start : o = current ∨ (s.heap o).state ≠ .live) :
    (s'.heap o).state ≠ .live := by
  have visited (current : Address) (s : WaitingLoop) (inv : o = current ∨ (s.heap o).state ≠ .live) :
      ((waitingObject current s).heap o).state ≠ .live := by
    rw [waitingObject_state]
    split
    · simp
    · rename_i other
      exact inv.resolve_left other
  refine whileTrue_post (fun loop => o = loop.1 ∨ (loop.2.heap o).state ≠ .live) (fun s => (s.heap o).state ≠ .live)
    ?_ ?_ returned start
  · rintro ⟨current, s⟩ next inv pass
    simp only [waitingInnerBody] at pass
    split at pass <;> cases pass
    exact Or.inr (visited current s inv)
  · rintro ⟨current, s⟩ next inv pass
    simp only [waitingInnerBody] at pass
    split at pass <;> cases pass
    exact visited current s inv

theorem decrementWaiting_unlived {fuel : Nat} {h h' : Heap} {object : Address}
    (returned : decrementReferenceCountWaitingGcObject fuel h object = some h')
    (start : o = object ∨ (h o).state ≠ .live) : (h' o).state ≠ .live := by
  have batch (fuel : Nat) (root : Address) (h : Heap) (roots : List Address) (s : WaitingLoop)
      (returned : whileTrue waitingInnerBody fuel (root, { heap := h, releaseObjects := [], checkRoots := roots, checkObjects := [] }) = some s)
      (inv : o = root ∨ (h o).state ≠ .live) :
      (s.releaseObjects.reverse.foldl (fun h o => h.modify o (·.setState .waitingForGc)) s.heap o).state ≠ .live := by
    rw [foldl_setState]
    split
    · simp [HeapObject.setState]
    · exact waitingInner_unlived returned inv
  refine whileTrue_post (fun loop => o = loop.1 ∨ (loop.2.1 o).state ≠ .live) (fun h => (h o).state ≠ .live)
    ?_ ?_ returned start
  · rintro ⟨root, h, roots⟩ next inv pass
    obtain ⟨s, inner, pass⟩ := Option.bind_eq_some_iff.mp pass
    dsimp only at pass
    split at pass <;> cases pass
    exact Or.inr (batch _ root h roots s inner inv)
  · rintro ⟨root, h, roots⟩ next inv pass
    obtain ⟨s, inner, pass⟩ := Option.bind_eq_some_iff.mp pass
    dsimp only at pass
    split at pass <;> cases pass
    exact batch _ root h roots s inner inv

theorem releaseField_unlived {fuel i : Nat} {current : Address} {s s' : ReleaseLoop} (inv : (s.heap o).state ≠ .live)
    (returned : releaseField fuel current s i = some s') : (s'.heap o).state ≠ .live := by
  have dropped (w : Address) : (s.heap.modify w .fetchSub o).state ≠ .live := by
    rw [Heap.modify_apply]
    split <;> exact inv
  unfold releaseField at returned
  dsimp only at returned
  split at returned
  · cases returned
    exact inv
  · split at returned
    · split at returned
      · obtain ⟨h', waiting, rfl⟩ := Option.map_eq_some_iff.mp returned
        exact decrementWaiting_unlived waiting (Or.inr (dropped _))
      · cases returned
        exact dropped _
    · cases returned
      exact dropped _

/-- The release of the last reference leaves the object in another state. -/
theorem decrement_unlived {fuel : Nat} {h h' : Heap} {object : Address} (last : (h object).count = 1)
    (returned : decrementReferenceCount fuel h object = some h') : (h' object).state ≠ .live := by
  unfold decrementReferenceCount at returned
  dsimp only at returned
  rw [if_pos last] at returned
  split at returned
  · exact decrementWaiting_unlived returned (Or.inl rfl)
  have body (current : Address) (s s' : ReleaseLoop) (inv : object = current ∨ (s.heap object).state ≠ .live)
      (fields : (List.range (s.heap current).fields.length).foldlM (releaseField fuel current) s = some s') :
      (s'.heap.modify current (·.setState .dead) object).state ≠ .live := by
    rw [Heap.modify_apply]
    split
    · simp [HeapObject.setState]
    · rename_i other
      exact forEach_post (fun s => (s.heap object).state ≠ .live) (fun _ _ _ => releaseField_unlived) fields
        (inv.resolve_left other)
  refine whileTrue_post (fun loop => object = loop.1 ∨ (loop.2.heap object).state ≠ .live)
    (fun h => (h object).state ≠ .live) ?_ ?_ returned (Or.inl rfl)
  · rintro ⟨current, s⟩ next inv pass
    obtain ⟨s', fields, pass⟩ := Option.bind_eq_some_iff.mp pass
    dsimp only at pass
    split at pass <;> cases pass
    exact Or.inr (body current s s' inv fields)
  · rintro ⟨current, s⟩ next inv pass
    obtain ⟨s', fields, pass⟩ := Option.bind_eq_some_iff.mp pass
    dsimp only at pass
    split at pass <;> cases pass
    exact body current s s' inv fields

/-- No release of a live object goes unnoticed. -/
theorem decrement_changes {fuel : Nat} {h : Heap} {object : Address} (live : (h object).state = .live) :
    decrementReferenceCount fuel h object ≠ some h := by
  intro returned
  by_cases last : (h object).count = 1
  · exact decrement_unlived last returned live
  · simp only [decrementReferenceCount, if_neg last, Option.some.injEq] at returned
    have same := congrArg (fun h => (h object).count) returned
    simp only [Heap.modify_self, HeapObject.fetchSub, HeapObject.sizePred] at same
    split at same <;> omega

end States

section Orders

variable {h : Heap} {m : GcState} {parent : Address} {i : Nat}

theorem getObjectField_move (bound : i < (h parent).fields.length) :
    getObjectField h parent i .move = exchangeField h parent i 0 := by
  rw [getObjectField, if_pos bound]
  rfl

theorem setObjectField_true (bound : i < (h parent).fields.length) (word : Address) :
    setObjectField h parent i word true = (exchangeField h parent i word).map Prod.fst := by
  rw [setObjectField, if_pos bound, exchangeField]
  cases objectLock h parent with
  | none => rfl
  | some h =>
    simp only [Option.bind_some, true_and]
    split <;> rfl

/-- The clone order, in one step. -/
theorem getObjectField_clone (bound : i < (h parent).fields.length) :
    getObjectField h parent i .clone =
      if (h parent).lockFlag = true ∨ (h parent).field i = 1 then none
      else if (h parent).field i = 0 then some (h, 0)
      else some (h.modify ((h parent).field i) .fetchAdd, (h parent).field i) := by
  rw [getObjectField, if_pos bound, objectLock]
  by_cases locked : (h parent).lockFlag = true
  · rw [if_pos locked, if_pos (Or.inl locked)]
    rfl
  · have free : (h parent).lockFlag = false := by simpa using locked
    have atParent : (h.modify parent (·.setLock true) parent).field i = (h parent).field i := by
      rw [Heap.modify_self]
      rfl
    rw [if_neg locked, Option.bind_some]
    dsimp only
    rw [atParent]
    simp only [free, Bool.false_eq_true, false_or]
    by_cases null : (h parent).field i = 0
    · rw [null, if_neg Nat.zero_ne_one, if_neg Nat.zero_ne_one, if_neg (not_not.mpr rfl), if_pos rfl,
        objectUnlock_lock free]
    · have swap : (h.modify parent (·.setLock true)).modify ((h parent).field i) .fetchAdd =
          (h.modify ((h parent).field i) .fetchAdd).modify parent (·.setLock true) := Heap.modify_comm _ _ _ fun _ => rfl
      rw [if_pos null, if_neg null, swap, objectUnlock_lock]
      rw [Heap.modify_apply]
      split <;> exact free

/-- The orders leave the list of suspected objects alone. -/
def onState (m : GcState) (got : Option (Heap × Address)) : Option (GcState × Address) :=
  got.map fun got => ({ m with heap := got.1 }, got.2)

/-- The clone order and `get_clone_object_field` do the same. -/
def CloneAgrees (m : GcState) (parent : Address) (i : Nat) : Prop :=
  onState m (getObjectField m.heap parent i .clone) = getCloneObjectField m parent i

/-- The move order and `get_move_object_field` do the same. -/
def MoveAgrees (m : GcState) (parent : Address) (i : Nat) : Prop :=
  onState m (getObjectField m.heap parent i .move) = getMoveObjectField m parent i

/-- The set order with `borrow_lock` and `set_move_object_field` do the same. -/
def SetAgrees (m : GcState) (parent : Address) (i : Nat) (word : Address) : Prop :=
  ∀ m', (∃ fuel, setMoveObjectField fuel m parent i word = some m') ↔
    (setObjectField m.heap parent i word true).map (fun heap => { m with heap := heap }) = some m'

/-- The state in which one more reference makes an object suspected. -/
def HeapObject.TurnsSuspected (o : HeapObject) : Prop :=
  o.count = 1 ∧ o.isCyclicType = true ∧ o.asyncRelease = false

theorem moveAgrees (bound : i < (m.heap parent).fields.length) : MoveAgrees m parent i := by
  rw [MoveAgrees, getObjectField_move bound]
  rfl

theorem cloneAgrees_iff (bound : i < (m.heap parent).fields.length) (unborrowed : (m.heap parent).field i ≠ 1) :
    CloneAgrees m parent i ↔ (m.heap parent).lockFlag = true ∨ (m.heap parent).field i = 0 ∨
      ¬(m.heap ((m.heap parent).field i)).TurnsSuspected := by
  rw [CloneAgrees, getObjectField_clone bound, getCloneObjectField_eq]
  by_cases locked : (m.heap parent).lockFlag = true
  · simp [locked, onState]
  by_cases null : (m.heap parent).field i = 0
  · simp [null, onState, locked]
  rw [if_neg (not_or.mpr ⟨locked, unborrowed⟩), if_neg (not_or.mpr ⟨locked, unborrowed⟩), if_neg null, if_neg null,
    incrementReferenceCount_eq]
  by_cases turns : (m.heap ((m.heap parent).field i)).TurnsSuspected
  · rw [if_pos (show _ ∧ _ from turns)]
    refine ⟨fun agrees => ?_, fun when => absurd turns ((when.resolve_left locked).resolve_left null)⟩
    have flags := congrArg (Option.map fun got => (got.1.heap got.2).asyncRelease) agrees
    simp [onState, HeapObject.fetchAdd, turns.2.2] at flags
  · rw [if_neg (show ¬(_ ∧ _) from turns)]
    exact ⟨fun _ => Or.inr (Or.inr turns), fun _ => rfl⟩

theorem setAgrees_iff (bound : i < (m.heap parent).fields.length) (unborrowed : (m.heap parent).field i ≠ 1)
    (live : (m.heap parent).field i ≠ 0 → (m.heap ((m.heap parent).field i)).state = .live) (word : Address) :
    SetAgrees m parent i word ↔ (m.heap parent).lockFlag = true ∨ (m.heap parent).field i = 0 := by
  unfold SetAgrees setMoveObjectField
  rw [setObjectField_true bound, exchangeField_eq]
  by_cases locked : (m.heap parent).lockFlag = true
  · simp [locked]
  rw [if_neg (not_or.mpr ⟨locked, unborrowed⟩)]
  simp only [Option.bind_some, Option.map_some, releaseOld]
  by_cases null : (m.heap parent).field i = 0
  · simp [null]
  · simp only [if_pos null]
    refine ⟨fun agrees => ?_, fun when => absurd (when.resolve_left locked) null⟩
    exfalso
    obtain ⟨fuel, released⟩ := (agrees _).mpr rfl
    obtain ⟨h', released, same⟩ := Option.map_eq_some_iff.mp released
    rw [GcState.mk.injEq] at same
    rw [same.1] at released
    refine decrement_changes ?_ released
    rw [Heap.modify_apply]
    split
    · exact live null
    · exact live null

end Orders

/-- What a field of a counted object holds is counted, and so it is live. -/
theorem field_live {m : GcState} {objects : Finset Address} {handles : Multiset Address} {parent : Address} {i : Nat}
    (exact : Exact objects m.heap handles) (live : ∀ o ∈ objects, (m.heap o).state = .live) (member : parent ∈ objects)
    (nonnull : (m.heap parent).field i ≠ 0) : (m.heap ((m.heap parent).field i)).state = .live :=
  live _ (exact.pointers_mem parent member _ (HeapObject.mem_pointers.mpr ⟨HeapObject.field_mem nonnull, nonnull⟩))

/-- When the orders do what the field functions of the runtime do: a move
always, a clone unless it would make the object suspected, and a set only over
an empty field. A locked parent holds all of them up. -/
theorem field_orders {m : GcState} {parent word : Address} {i : Nat} (bound : i < (m.heap parent).fields.length)
    (unborrowed : (m.heap parent).field i ≠ 1)
    (live : (m.heap parent).field i ≠ 0 → (m.heap ((m.heap parent).field i)).state = .live) :
    MoveAgrees m parent i ∧
      (CloneAgrees m parent i ↔ (m.heap parent).lockFlag = true ∨ (m.heap parent).field i = 0 ∨
        ¬(m.heap ((m.heap parent).field i)).TurnsSuspected) ∧
      (SetAgrees m parent i word ↔ (m.heap parent).lockFlag = true ∨ (m.heap parent).field i = 0) :=
  ⟨moveAgrees bound, cloneAgrees_iff bound unborrowed, setAgrees_iff bound unborrowed live word⟩

/-- An object at address 8 whose field holds a cyclic object at address 16. -/
def cyclicChild : GcState where
  heap := fun a =>
    if a = 8 then { HeapObject.zeroed with count := 1, state := .live, fields := [16] }
    else { HeapObject.zeroed with count := 1, state := .live, isCyclicType := true }
  suspectedObjectList := []

theorem cyclicChild_exact : Exact {8, 16} cyclicChild.heap {8} :=
  ⟨by decide, by decide, by decide, by decide⟩

/-- The clone makes the object suspected in the runtime only, and the set
releases the object in the runtime only. -/
theorem field_orders_differ :
    Exact {8, 16} cyclicChild.heap {8} ∧ (∀ o ∈ ({8, 16} : Finset Address), (cyclicChild.heap o).state = .live) ∧
      (cyclicChild.heap 8).field 0 = 16 ∧ ¬ CloneAgrees cyclicChild 8 0 ∧ ¬ SetAgrees cyclicChild 8 0 0 := by
  have bound : 0 < (cyclicChild.heap 8).fields.length := by decide
  have unborrowed : (cyclicChild.heap 8).field 0 ≠ 1 := by decide
  refine ⟨cyclicChild_exact, by decide, rfl, fun clone => ?_, fun set => ?_⟩
  · rcases (cloneAgrees_iff bound unborrowed).mp clone with locked | null | calm
    · cases locked
    · cases null
    · exact calm ⟨rfl, rfl, rfl⟩
  · rcases (setAgrees_iff bound unborrowed (field_live cyclicChild_exact (by decide) (by decide)) 0).mp set with locked | null
    · cases locked
    · cases null

theorem field_orders_cyclicChild :
    MoveAgrees cyclicChild 8 0 ∧
      (CloneAgrees cyclicChild 8 0 ↔ (cyclicChild.heap 8).lockFlag = true ∨ (cyclicChild.heap 8).field 0 = 0 ∨
        ¬(cyclicChild.heap ((cyclicChild.heap 8).field 0)).TurnsSuspected) ∧
      (SetAgrees cyclicChild 8 0 0 ↔ (cyclicChild.heap 8).lockFlag = true ∨ (cyclicChild.heap 8).field 0 = 0) :=
  field_orders (by decide) (by decide) (field_live cyclicChild_exact (by decide) (by decide))

end CatLa
