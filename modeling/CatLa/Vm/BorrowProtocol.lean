import CatLa.Vm.OrderEvaluation

namespace CatLa

/-- A call of one of the two orders on a field of the parent. -/
inductive FieldOrder
  | get (fieldIndex : Nat) (ownershipOrder : OwnershipOrder)
  | set (fieldIndex : Nat) (objectPtr : Address) (borrowLock : Bool)
  deriving DecidableEq, Repr

def FieldOrder.fieldIndex : FieldOrder → Nat
  | .get fieldIndex _ => fieldIndex
  | .set fieldIndex _ _ => fieldIndex

/-- Where a thread is inside an order: each constructor but `idle` and `done`
is before one access to the parent or to the object of the field. -/
inductive FieldControl
  | idle
  | lock (order : FieldOrder)
  | read (order : FieldOrder)
  | take (fieldIndex : Nat) (ownershipOrder : OwnershipOrder) (fieldObject : Address)
  | store (fieldIndex : Nat) (objectPtr : Address) (borrowLock : Bool)
  | unlock (fieldObject : Option Address)
  | unlockRetry (order : FieldOrder)
  | done (fieldObject : Option Address)
  deriving DecidableEq, Repr

/-- What a step does to the lock or to a field. -/
inductive FieldEvent
  | acquired
  | released
  | obtained (fieldIndex : Nat)
  | borrowed (fieldIndex : Nat)
  | stored (fieldIndex : Nat)
  deriving DecidableEq, Repr

namespace FieldControl

/-- The statement behind `object_lock`. -/
def afterLock : FieldOrder → FieldControl
  | .set fieldIndex objectPtr false => .store fieldIndex objectPtr false
  | order => .read order

/-- One access of `GetObjectFieldOwnership::eval` or
`SetObjectFieldOwnership::eval`. -/
def advance (parent : Address) (heap : Heap) : FieldControl → Option (Heap × FieldControl)
  | .idle => none
  | .done _ => none
  | .lock order =>
    match objectLock heap parent with
    | none => some (heap, .lock order)
    | some heap => some (heap, afterLock order)
  | .read (.get fieldIndex ownershipOrder) =>
    let fieldObject := (heap parent).field fieldIndex
    -- `continue`, without an unlock
    if fieldObject = 1 then some (heap, .lock (.get fieldIndex ownershipOrder))
    else some (heap, .take fieldIndex ownershipOrder fieldObject)
  | .take _ .clone fieldObject =>
    some (if fieldObject ≠ 0 then heap.modify fieldObject .fetchAdd else heap, .unlock (some fieldObject))
  | .take fieldIndex .borrow fieldObject =>
    some (heap.modify parent (·.setField fieldIndex 1), .unlock (some fieldObject))
  | .take fieldIndex .move fieldObject =>
    some (heap.modify parent (·.setField fieldIndex 0), .unlock (some fieldObject))
  | .read (.set fieldIndex objectPtr borrowLock) =>
    if (heap parent).field fieldIndex ≠ 1 then some (heap, .store fieldIndex objectPtr borrowLock)
    else some (heap, .unlockRetry (.set fieldIndex objectPtr borrowLock))
  | .store fieldIndex objectPtr _ => some (heap.modify parent (·.setField fieldIndex objectPtr), .unlock none)
  | .unlock fieldObject => some (objectUnlock heap parent, .done fieldObject)
  | .unlockRetry order => some (objectUnlock heap parent, .lock order)

/-- What that access does. -/
def event (parent : Address) (heap : Heap) : FieldControl → Option FieldEvent
  | .lock _ => if (heap parent).lockFlag then none else some .acquired
  | .read (.get fieldIndex _) => if (heap parent).field fieldIndex = 1 then none else some (.obtained fieldIndex)
  | .take fieldIndex .borrow _ => some (.borrowed fieldIndex)
  | .take fieldIndex .move _ => some (.stored fieldIndex)
  | .store fieldIndex _ _ => some (.stored fieldIndex)
  | .unlock _ => some .released
  | .unlockRetry _ => some .released
  | _ => none

/-- Between `object_lock` and `object_unlock`. -/
def Locked : FieldControl → Prop
  | .idle => False
  | .lock _ => False
  | .done _ => False
  | _ => True

def Between : FieldControl → Prop
  | .idle => True
  | .done _ => True
  | _ => False

/-- A get that is about to read the field does not find it borrowed. -/
def Unborrowed (parent : Address) (heap : Heap) : FieldControl → Prop
  | .read (.get fieldIndex _) => (heap parent).field fieldIndex ≠ 1
  | _ => True

end FieldControl

/-- The accesses of one thread that runs alone. -/
def FieldControl.Alone (parent : Address) : Heap × FieldControl → Heap × FieldControl → Prop :=
  Relation.ReflTransGen fun before after => before.2.advance parent before.1 = some after

section Alone

variable {heap heap' : Heap} {parent : Address} {i : Nat}

/-- One after the other the accesses of a get do what `eval` does. -/
theorem getObjectField_alone {ownershipOrder : OwnershipOrder} {fieldObject : Address}
    (run : getObjectField heap parent i ownershipOrder = some (heap', fieldObject)) :
    FieldControl.Alone parent (heap, .lock (.get i ownershipOrder)) (heap', .done (some fieldObject)) := by
  unfold getObjectField at run
  split at run
  · obtain ⟨locked, locks, run⟩ := Option.bind_eq_some_iff.mp run
    dsimp only at run
    split at run
    · cases run
    · rename_i unmarked
      refine .head (b := (locked, .read (.get i ownershipOrder))) (by simp only [FieldControl.advance, locks]; rfl) ?_
      refine .head (b := (locked, .take i ownershipOrder ((locked parent).field i)))
        (by simp only [FieldControl.advance, if_neg unmarked]) ?_
      cases ownershipOrder <;> cases run <;> exact .head rfl (.head rfl .refl)
  · cases run

/-- One after the other the accesses of a set do what `eval` does. -/
theorem setObjectField_alone {objectPtr : Address} {borrowLock : Bool}
    (run : setObjectField heap parent i objectPtr borrowLock = some heap') :
    FieldControl.Alone parent (heap, .lock (.set i objectPtr borrowLock)) (heap', .done none) := by
  unfold setObjectField at run
  split at run
  · obtain ⟨locked, locks, run⟩ := Option.bind_eq_some_iff.mp run
    split at run
    · cases run
    · rename_i unmarked
      cases run
      cases borrowLock with
      | false =>
        refine .head (b := (locked, .store i objectPtr false)) (by simp only [FieldControl.advance, locks]; rfl) ?_
        exact .head rfl (.head rfl .refl)
      | true =>
        refine .head (b := (locked, .read (.set i objectPtr true))) (by simp only [FieldControl.advance, locks]; rfl) ?_
        refine .head (b := (locked, .store i objectPtr true)) ?_ (.head rfl (.head rfl .refl))
        simp only [FieldControl.advance, if_pos fun marked => unmarked ⟨rfl, marked⟩]
  · cases run

end Alone

/-- The memory, the threads, and who holds the lock and the fields. -/
structure BorrowConfig (ι : Type) where
  heap : Heap
  threads : ι → FieldControl
  holder : Option ι
  borrower : Nat → Option ι

namespace BorrowConfig

section Model

variable {ι : Type} [DecidableEq ι]

/-- Who holds the lock and the fields after an event of a thread: a borrower
returns a field when it stores to it. -/
def record (c : BorrowConfig ι) (t : ι) : Option FieldEvent → BorrowConfig ι
  | some .acquired => { c with holder := some t }
  | some .released => { c with holder := none }
  | some (.borrowed fieldIndex) => { c with borrower := Function.update c.borrower fieldIndex (some t) }
  | some (.stored fieldIndex) =>
    if c.borrower fieldIndex = some t then { c with borrower := Function.update c.borrower fieldIndex none } else c
  | _ => c

def set (c : BorrowConfig ι) (t : ι) (heap : Heap) (control : FieldControl) : BorrowConfig ι :=
  { c with heap := heap, threads := Function.update c.threads t control }

/-- One step of one thread. The marker is not the argument of a set, and a set
without `borrow_lock` on a borrowed field is run by its borrower. -/
inductive Step (parent : Address) (c : BorrowConfig ι) (t : ι) : Option FieldEvent → BorrowConfig ι → Prop
  | call (order : FieldOrder) (between : (c.threads t).Between)
      (bound : order.fieldIndex < (c.heap parent).fields.length)
      (unmarked : ∀ fieldIndex borrowLock, order ≠ .set fieldIndex 1 borrowLock) :
      Step parent c t none (c.set t c.heap (.lock order))
  | advance {next : Heap × FieldControl} (advanced : (c.threads t).advance parent c.heap = some next)
      (returns : ∀ fieldIndex objectPtr, c.threads t = .store fieldIndex objectPtr false →
        ∀ u, c.borrower fieldIndex = some u → u = t) :
      Step parent c t ((c.threads t).event parent c.heap)
        ((c.record t ((c.threads t).event parent c.heap)).set t next.1 next.2)

/-- A step that was taken, with the state before it. -/
structure Taken (ι : Type) where
  before : BorrowConfig ι
  thread : ι
  event : Option FieldEvent

/-- A run, with its steps in their order. -/
inductive Run (parent : Address) (start : BorrowConfig ι) : List (Taken ι) → BorrowConfig ι → Prop
  | start : Run parent start [] start
  | step {steps : List (Taken ι)} {c c' : BorrowConfig ι} {t : ι} {event : Option FieldEvent}
      (run : Run parent start steps c) (step : Step parent c t event c') :
      Run parent start (steps ++ [⟨c, t, event⟩]) c'

end Model

section Property

variable {ι : Type}

/-- No thread is inside an order, the lock is free, and no field is borrowed. -/
structure Initial (parent : Address) (c : BorrowConfig ι) : Prop where
  idle : ∀ t, c.threads t = .idle
  unlocked : (c.heap parent).lockFlag = false
  holder : c.holder = none
  borrower : ∀ fieldIndex, c.borrower fieldIndex = none
  unmarked : ∀ fieldIndex, (c.heap parent).field fieldIndex ≠ 1

/-- What a state promises: nobody waits for a lock of its own, the marker of a
borrowed field is there, and the lock is held exactly by a thread between its
lock and its unlock. -/
structure Protected (parent : Address) (c : BorrowConfig ι) : Prop where
  waiting : ∀ t order, c.threads t = .lock order → c.holder ≠ some t
  marker : ∀ fieldIndex t, c.borrower fieldIndex = some t → (c.heap parent).field fieldIndex = 1
  held : (c.heap parent).lockFlag = true ↔ c.holder ≠ none
  holder : ∀ t, c.holder = some t ↔ (c.threads t).Locked

/-- What a step promises: the object of a field is obtained, and the field is
written, by no other thread than the borrower. -/
def Taken.Protected (step : Taken ι) : Prop :=
  ∀ fieldIndex u, step.before.borrower fieldIndex = some u → step.thread ≠ u →
    step.event ≠ some (.obtained fieldIndex) ∧ step.event ≠ some (.borrowed fieldIndex) ∧
      step.event ≠ some (.stored fieldIndex)

/-- The step is not a get that finds its field borrowed. -/
def Taken.Unborrowed (parent : Address) (step : Taken ι) : Prop :=
  (step.before.threads step.thread).Unborrowed parent step.before.heap

end Property

end BorrowConfig

/-- What a thread knows about its field. While it holds the lock, the word that
it tested is still there. -/
structure FieldControl.Sound (parent : Address) (heap : Heap) (control : FieldControl) : Prop where
  lock : ∀ order, control = .lock order → order.fieldIndex < (heap parent).fields.length
  read : ∀ order, control = .read order → order.fieldIndex < (heap parent).fields.length
  retry : ∀ order, control = .unlockRetry order → order.fieldIndex < (heap parent).fields.length
  take : ∀ i ownershipOrder fieldObject, control = .take i ownershipOrder fieldObject →
    i < (heap parent).fields.length ∧ (heap parent).field i ≠ 1
  store : ∀ i objectPtr borrowLock, control = .store i objectPtr borrowLock →
    i < (heap parent).fields.length ∧ (borrowLock = true → (heap parent).field i ≠ 1)

section Frames

variable {parent : Address} {heap heap' : Heap} {control : FieldControl}

theorem objectLock_some (run : objectLock heap parent = some heap') :
    (heap parent).lockFlag = false ∧ heap' = heap.modify parent (·.setLock true) := by
  unfold objectLock at run
  split at run
  · cases run
  · rename_i unlocked
    exact ⟨by simpa using unlocked, (Option.some.inj run).symm⟩

theorem HeapObject.field_setField_self {o : HeapObject} {i : Nat} (bound : i < o.fields.length) (w : Address) :
    (o.setField i w).field i = w := by
  simp [setField, field, bound]

theorem HeapObject.field_setField_of_ne (o : HeapObject) {i j : Nat} (w : Address) (different : j ≠ i) :
    (o.setField i w).field j = o.field j := by
  simp [setField, field, List.getElem?_set_ne (Ne.symm different)]

/-- A clone changes no field and no lock, not even of the object itself. -/
theorem clone_fields (heap : Heap) (parent fieldObject : Address) :
    ((if fieldObject ≠ 0 then heap.modify fieldObject .fetchAdd else heap) parent).fields = (heap parent).fields ∧
      ((if fieldObject ≠ 0 then heap.modify fieldObject .fetchAdd else heap) parent).lockFlag =
        (heap parent).lockFlag := by
  by_cases null : fieldObject = 0
  · simp [null]
  · rw [if_pos null, Heap.modify_apply]
    split <;> exact ⟨rfl, rfl⟩

theorem FieldControl.afterLock_cases (order : FieldOrder) :
    (∃ i objectPtr, order = .set i objectPtr false ∧ afterLock order = .store i objectPtr false) ∨
      afterLock order = .read order := by
  rcases order with ⟨i, ownershipOrder⟩ | ⟨i, objectPtr, _ | _⟩
  · exact Or.inr rfl
  · exact Or.inl ⟨i, objectPtr, rfl, rfl⟩
  · exact Or.inr rfl

theorem FieldControl.Sound.congr (sound : control.Sound parent heap)
    (length : (heap' parent).fields.length = (heap parent).fields.length)
    (fields : control.Locked → ∀ i, (heap' parent).field i = (heap parent).field i) : control.Sound parent heap' where
  lock order here := length ▸ sound.lock order here
  read order here := length ▸ sound.read order here
  retry order here := length ▸ sound.retry order here
  take i ownershipOrder fieldObject here := by
    rw [length, fields (by rw [here]; trivial)]
    exact sound.take i ownershipOrder fieldObject here
  store i objectPtr borrowLock here := by
    rw [length, fields (by rw [here]; trivial)]
    exact sound.store i objectPtr borrowLock here

end Frames

namespace BorrowConfig

/-- The invariant of the runs that meet no borrowed field in a get. -/
structure Inv {ι : Type} (parent : Address) (c : BorrowConfig ι) : Prop where
  marker : ∀ fieldIndex t, c.borrower fieldIndex = some t → (c.heap parent).field fieldIndex = 1
  held : (c.heap parent).lockFlag = true ↔ c.holder ≠ none
  holder : ∀ t, c.holder = some t ↔ (c.threads t).Locked
  sound : ∀ t, (c.threads t).Sound parent c.heap

section Steps

theorem Initial.inv {ι : Type} {parent : Address} {c : BorrowConfig ι} (initial : c.Initial parent) : Inv parent c where
  marker i u mine := by simp [initial.borrower i] at mine
  held := by simp [initial.unlocked, initial.holder]
  holder u := by simp [initial.holder, initial.idle u, FieldControl.Locked]
  sound u := by
    rw [initial.idle u]
    exact ⟨by simp, by simp, by simp, by simp, by simp⟩

theorem Inv.protected {ι : Type} {parent : Address} {c : BorrowConfig ι} (inv : Inv parent c) : c.Protected parent where
  waiting t order waits mine := by
    have locked := (inv.holder t).mp mine
    rw [waits] at locked
    exact locked
  marker := inv.marker
  held := inv.held
  holder := inv.holder

/-- A field whose word is no marker is not borrowed. -/
theorem Inv.unborrowed {ι : Type} {parent : Address} {c : BorrowConfig ι} (inv : Inv parent c) {i : Nat} (unmarked : (c.heap parent).field i ≠ 1) : c.borrower i = none :=
  Option.eq_none_iff_forall_ne_some.mpr fun u mine => unmarked (inv.marker i u mine)

theorem Inv.alone {ι : Type} {parent : Address} {c : BorrowConfig ι} (inv : Inv parent c) {t u : ι} (lockedT : (c.threads t).Locked) (lockedU : (c.threads u).Locked) : u = t :=
  Option.some.inj (((inv.holder u).mpr lockedU).symm.trans ((inv.holder t).mpr lockedT))


variable {ι : Type} [DecidableEq ι] {parent : Address} {c c' : BorrowConfig ι} {t : ι} {heap' : Heap}
  {control' : FieldControl} {event : Option FieldEvent}

@[simp] theorem record_heap (c : BorrowConfig ι) (t : ι) (event : Option FieldEvent) : (c.record t event).heap = c.heap := by
  unfold record
  split <;> first | rfl | (split <;> rfl)

@[simp] theorem record_threads (c : BorrowConfig ι) (t : ι) (event : Option FieldEvent) :
    (c.record t event).threads = c.threads := by
  unfold record
  split <;> first | rfl | (split <;> rfl)

@[simp] theorem set_heap (c : BorrowConfig ι) (t : ι) (heap : Heap) (control : FieldControl) :
    (c.set t heap control).heap = heap := rfl

@[simp] theorem set_threads (c : BorrowConfig ι) (t : ι) (heap : Heap) (control : FieldControl) :
    (c.set t heap control).threads = Function.update c.threads t control := rfl

/-- The other threads keep what they know when one thread makes a step. -/
theorem Inv.others (inv : Inv parent c) (length : (heap' parent).fields.length = (c.heap parent).fields.length)
    (fields : (c.threads t).Locked ∨ ∀ i, (heap' parent).field i = (c.heap parent).field i)
    (own : control'.Sound parent heap') (u : ι) : (Function.update c.threads t control' u).Sound parent heap' := by
  by_cases same : u = t
  · subst same
    rwa [Function.update_self]
  · rw [Function.update_of_ne same]
    exact (inv.sound u).congr length fun locked =>
      fields.resolve_left fun lockedT => same (inv.alone lockedT locked)

/-- A step inside the lock, or outside it. -/
theorem Inv.keep (inv : Inv parent c) (length : (heap' parent).fields.length = (c.heap parent).fields.length)
    (fields : (c.threads t).Locked ∨ ∀ i, (heap' parent).field i = (c.heap parent).field i)
    (flag : (heap' parent).lockFlag = (c.heap parent).lockFlag) (locked : control'.Locked ↔ (c.threads t).Locked)
    (holder : (c.record t event).holder = c.holder) (own : control'.Sound parent heap')
    (marker : ∀ i u, (c.record t event).borrower i = some u → (heap' parent).field i = 1) :
    Inv parent ((c.record t event).set t heap' control') where
  marker := marker
  held := by
    simp only [set, flag, holder]
    exact inv.held
  holder u := by
    simp only [set, holder, record_threads]
    by_cases same : u = t
    · subst same
      rw [Function.update_self, locked]
      exact inv.holder u
    · rw [Function.update_of_ne same]
      exact inv.holder u
  sound u := by
    simp only [set, record_threads]
    exact inv.others length fields own u

theorem Inv.acquire (inv : Inv parent c) {order : FieldOrder} (atT : c.threads t = .lock order)
    (unlocked : (c.heap parent).lockFlag = false) :
    Inv parent ((c.record t (some .acquired)).set t (c.heap.modify parent (·.setLock true)) (.afterLock order)) := by
  have bound := (inv.sound t).lock order atT
  have free : c.holder = none := by
    by_contra held
    rw [inv.held.mpr held] at unlocked
    cases unlocked
  refine ⟨fun i u mine => ?_, ?_, fun u => ?_, fun u => ?_⟩
  · simpa [set, HeapObject.setLock, HeapObject.field] using inv.marker i u mine
  · simp [set, record, HeapObject.setLock]
  · simp only [set, record]
    by_cases same : u = t
    · subst same
      simp only [Function.update_self, true_iff]
      rcases FieldControl.afterLock_cases order with ⟨i, objectPtr, -, after⟩ | after <;> rw [after] <;> trivial
    · rw [Function.update_of_ne same]
      refine ⟨fun mine => absurd (Option.some.inj mine).symm same, fun locked => ?_⟩
      have mine := (inv.holder u).mpr locked
      rw [free] at mine
      cases mine
  · rw [set_heap, set_threads, record_threads]
    refine inv.others (by simp [HeapObject.setLock]) (Or.inr fun i => by simp [HeapObject.setLock, HeapObject.field]) ?_ u
    rcases FieldControl.afterLock_cases order with ⟨i, objectPtr, rfl, after⟩ | after <;> rw [after] <;>
      refine ⟨fun _ here => ?_, fun _ here => ?_, fun _ here => ?_, fun _ _ _ here => ?_, fun _ _ _ here => ?_⟩ <;> cases here
    · exact ⟨by simpa [HeapObject.setLock, FieldOrder.fieldIndex] using bound, by simp⟩
    · simpa [HeapObject.setLock] using bound

theorem Inv.release (inv : Inv parent c) (locked : (c.threads t).Locked) (unlocked : ¬ control'.Locked)
    (own : control'.Sound parent (objectUnlock c.heap parent)) :
    Inv parent ((c.record t (some .released)).set t (objectUnlock c.heap parent) control') := by
  refine ⟨fun i u mine => ?_, ?_, fun u => ?_, fun u => ?_⟩
  · simpa [set, objectUnlock, HeapObject.setLock, HeapObject.field] using inv.marker i u mine
  · simp [set, record, objectUnlock, HeapObject.setLock]
  · simp only [set, record]
    by_cases same : u = t
    · subst same
      simp [unlocked]
    · rw [Function.update_of_ne same]
      exact ⟨by simp, fun lockedU => absurd (inv.alone locked lockedU) same⟩
  · rw [set_heap, set_threads, record_threads]
    exact inv.others (by simp [objectUnlock, HeapObject.setLock]) (Or.inl locked) own u

/-- A thread inside the lock writes to its field, and knows nothing more. -/
theorem Inv.write (inv : Inv parent c) (locked : (c.threads t).Locked) {i : Nat} {w : Address}
    {fieldObject : Option Address} (holder : (c.record t event).holder = c.holder)
    (marker : ∀ j u, (c.record t event).borrower j = some u → (c.heap parent).field j = 1 ∧ j ≠ i ∨
      j = i ∧ i < (c.heap parent).fields.length ∧ w = 1) :
    Inv parent ((c.record t event).set t (c.heap.modify parent (·.setField i w)) (.unlock fieldObject)) := by
  refine inv.keep (by simp [HeapObject.setField]) (Or.inl locked) (by simp [HeapObject.setField]) ⟨fun _ => locked, fun _ => trivial⟩ holder
    ⟨by simp, by simp, by simp, by simp, by simp⟩ fun j u mine => ?_
  rw [Heap.modify_self]
  rcases marker j u mine with ⟨marked, different⟩ | ⟨rfl, bound, rfl⟩
  · rw [HeapObject.field_setField_of_ne _ _ different, marked]
  · exact HeapObject.field_setField_self bound 1

/-- After a store by a thread that may store, the field is not borrowed. -/
theorem Inv.store (inv : Inv parent c) (locked : (c.threads t).Locked) {i : Nat} {w : Address}
    {fieldObject : Option Address} (returns : ∀ u, c.borrower i = some u → u = t) :
    Inv parent ((c.record t (some (.stored i))).set t (c.heap.modify parent (·.setField i w)) (.unlock fieldObject)) := by
  refine inv.write locked ?_ fun j u mine => Or.inl ?_
  · unfold record
    dsimp only
    split <;> rfl
  · unfold record at mine
    dsimp only at mine
    split at mine
    · by_cases same : j = i
      · subst same
        simp at mine
      · simp only [Function.update_of_ne same] at mine
        exact ⟨inv.marker j u mine, same⟩
    · rename_i other
      refine ⟨inv.marker j u mine, ?_⟩
      rintro rfl
      exact other (mine.trans (congrArg some (returns u mine)))

theorem Inv.borrow (inv : Inv parent c) (locked : (c.threads t).Locked) {i : Nat} {fieldObject : Option Address}
    (bound : i < (c.heap parent).fields.length) :
    Inv parent ((c.record t (some (.borrowed i))).set t (c.heap.modify parent (·.setField i 1)) (.unlock fieldObject)) := by
  refine inv.write locked rfl fun j u mine => ?_
  by_cases same : j = i
  · exact Or.inr ⟨same, bound, rfl⟩
  · simp only [record, Function.update_of_ne same] at mine
    exact Or.inl ⟨inv.marker j u mine, same⟩

/-- One step keeps the invariant, when it is not a get that finds its field
borrowed. -/
theorem Inv.step (inv : Inv parent c) (step : Step parent c t event c')
    (unborrowed : (c.threads t).Unborrowed parent c.heap) : Inv parent c' := by
  cases step with
  | call order between bound unmarked =>
    show Inv parent ((c.record t none).set t c.heap (.lock order))
    refine inv.keep rfl (Or.inr fun _ => rfl) rfl ?_ rfl ⟨?_, by simp, by simp, by simp, by simp⟩ inv.marker
    · revert between
      cases c.threads t <;> simp [FieldControl.Between, FieldControl.Locked]
    · rintro _ ⟨⟩
      exact bound
  | @advance next advanced returns =>
    have own := inv.sound t
    rw [FieldControl.advance.eq_def] at advanced
    cases atT : c.threads t with
    | idle => simp [atT] at advanced
    | done fieldObject => simp [atT] at advanced
    | lock order =>
      simp only [atT] at advanced ⊢
      split at advanced <;> cases advanced
      · rename_i spins
        have flag : (c.heap parent).lockFlag = true := by
          by_contra unlocked
          simp [objectLock, unlocked] at spins
        rw [FieldControl.event, if_pos flag]
        exact inv.keep rfl (Or.inr fun _ => rfl) rfl (by rw [atT]) rfl (atT ▸ own) inv.marker
      · rename_i locks
        obtain ⟨unlocked, rfl⟩ := objectLock_some locks
        rw [FieldControl.event, if_neg (by simp [unlocked])]
        exact inv.acquire atT unlocked
    | read order =>
      have locked : (c.threads t).Locked := by rw [atT]; trivial
      have bound := own.read order atT
      cases order with
      | get i ownershipOrder =>
        have unmarked : (c.heap parent).field i ≠ 1 := by
          rw [atT] at unborrowed
          exact unborrowed
        simp only [atT, if_neg unmarked, Option.some.injEq] at advanced ⊢
        subst advanced
        rw [FieldControl.event, if_neg unmarked]
        refine inv.keep rfl (Or.inr fun _ => rfl) rfl ⟨fun _ => locked, fun _ => trivial⟩ rfl
          ⟨by simp, by simp, by simp, ?_, by simp⟩ inv.marker
        rintro _ _ _ ⟨⟩
        exact ⟨bound, unmarked⟩
      | set i objectPtr borrowLock =>
        simp only [atT] at advanced ⊢
        split at advanced <;> cases advanced
        · rename_i unmarked
          refine inv.keep rfl (Or.inr fun _ => rfl) rfl ⟨fun _ => locked, fun _ => trivial⟩ rfl
            ⟨by simp, by simp, by simp, by simp, ?_⟩ inv.marker
          rintro _ _ _ ⟨⟩
          exact ⟨bound, fun _ => unmarked⟩
        · refine inv.keep rfl (Or.inr fun _ => rfl) rfl ⟨fun _ => locked, fun _ => trivial⟩ rfl
            ⟨by simp, by simp, ?_, by simp, by simp⟩ inv.marker
          rintro _ ⟨⟩
          exact bound
    | take i ownershipOrder fieldObject =>
      have locked : (c.threads t).Locked := by rw [atT]; trivial
      obtain ⟨bound, unmarked⟩ := own.take i ownershipOrder fieldObject atT
      cases ownershipOrder with
      | clone =>
        simp only [atT, Option.some.injEq] at advanced ⊢
        subst advanced
        have same := clone_fields c.heap parent fieldObject
        refine inv.keep (congrArg List.length same.1) (Or.inl locked) same.2 ⟨fun _ => locked, fun _ => trivial⟩ rfl
          ⟨by simp, by simp, by simp, by simp, by simp⟩ fun j u mine => ?_
        rw [HeapObject.field, same.1]
        exact inv.marker j u mine
      | borrow =>
        simp only [atT, Option.some.injEq] at advanced ⊢
        subst advanced
        exact inv.borrow locked bound
      | move =>
        simp only [atT, Option.some.injEq] at advanced ⊢
        subst advanced
        exact inv.store locked fun u mine => absurd ((inv.unborrowed unmarked).symm.trans mine) (by simp)
    | store i objectPtr borrowLock =>
      have locked : (c.threads t).Locked := by rw [atT]; trivial
      simp only [atT, Option.some.injEq] at advanced ⊢
      subst advanced
      refine inv.store locked fun u mine => ?_
      cases borrowLock with
      | false => exact returns i objectPtr atT u mine
      | true => exact absurd ((inv.unborrowed ((own.store i objectPtr true atT).2 rfl)).symm.trans mine) (by simp)
    | unlock fieldObject =>
      simp only [atT, Option.some.injEq] at advanced ⊢
      subst advanced
      exact inv.release (by rw [atT]; trivial) id ⟨by simp, by simp, by simp, by simp, by simp⟩
    | unlockRetry order =>
      have bound := own.retry order atT
      simp only [atT, Option.some.injEq] at advanced ⊢
      subst advanced
      refine inv.release (by rw [atT]; trivial) id ⟨?_, by simp, by simp, by simp, by simp⟩
      rintro _ ⟨⟩
      simpa [objectUnlock, HeapObject.setLock] using bound

/-- No other thread than the borrower obtains or writes a borrowed field. -/
theorem Inv.taken (inv : Inv parent c) (step : Step parent c t event c') : Taken.Protected ⟨c, t, event⟩ := by
  intro i u mine other
  cases step with
  | call => exact ⟨by simp, by simp, by simp⟩
  | @advance next advanced returns =>
    have own := inv.sound t
    have marked := inv.marker i u mine
    rw [FieldControl.event.eq_def]
    cases atT : c.threads t with
    | lock order => dsimp only; split <;> exact ⟨by simp, by simp, by simp⟩
    | read order =>
      cases order with
      | get j ownershipOrder =>
        dsimp only
        split
        · exact ⟨by simp, by simp, by simp⟩
        · rename_i unmarked
          refine ⟨?_, by simp, by simp⟩
          rintro ⟨⟩
          exact unmarked marked
      | set => exact ⟨by simp, by simp, by simp⟩
    | take j ownershipOrder fieldObject =>
      have unmarked := (own.take j ownershipOrder fieldObject atT).2
      cases ownershipOrder with
      | clone => exact ⟨by simp, by simp, by simp⟩
      | borrow =>
        refine ⟨by simp, ?_, by simp⟩
        rintro ⟨⟩
        exact unmarked marked
      | move =>
        refine ⟨by simp, by simp, ?_⟩
        rintro ⟨⟩
        exact unmarked marked
    | store j objectPtr borrowLock =>
      refine ⟨by simp, by simp, ?_⟩
      rintro ⟨⟩
      cases borrowLock with
      | false => exact other (returns i objectPtr atT u mine).symm
      | true => exact (own.store i objectPtr true atT).2 rfl marked
    | _ => exact ⟨by simp, by simp, by simp⟩

/-- The invariant holds along a run without a get that finds its field
borrowed, and so do the promises of its states and steps. -/
theorem Run.inv {start : BorrowConfig ι} {steps : List (Taken ι)} (initial : start.Initial parent)
    (run : Run parent start steps c) (unborrowed : ∀ step ∈ steps, step.Unborrowed parent) :
    Inv parent c ∧ ∀ step ∈ steps, step.before.Protected parent ∧ step.Protected := by
  induction run with
  | start => exact ⟨initial.inv, by simp⟩
  | @step steps c c' t event run step ih =>
    obtain ⟨inv, earlier⟩ := ih fun step member => unborrowed step (List.mem_append_left _ member)
    have last : (c.threads t).Unborrowed parent c.heap := unborrowed ⟨c, t, event⟩ (by simp)
    refine ⟨inv.step step last, fun taken member => ?_⟩
    rcases List.mem_append.mp member with member | member
    · exact earlier taken member
    · rw [List.mem_singleton.mp member]
      exact ⟨inv.protected, inv.taken step⟩

/-- A get that finds its field borrowed waits for the lock that it holds. -/
theorem Protected.unborrowed (before : c.Protected parent) (step : Step parent c t event c')
    (after : c'.Protected parent) : (c.threads t).Unborrowed parent c.heap := by
  unfold FieldControl.Unborrowed
  split
  · rename_i i ownershipOrder atT
    intro marked
    have mine : c.holder = some t := (before.holder t).mpr (by rw [atT]; trivial)
    cases step with
    | call order between =>
      rw [atT] at between
      exact between
    | @advance next advanced returns =>
      simp only [atT, FieldControl.advance, if_pos marked, Option.some.injEq] at advanced
      subst advanced
      refine after.waiting t (.get i ownershipOrder) ?_ ?_
      · simp [set]
      · simpa [set, atT, FieldControl.event, marked, record] using mine
  · trivial

/-- A schedule of threads that are inside an order, and do not return a field. -/
def advances (parent : Address) (c : BorrowConfig ι) : List ι → Option (BorrowConfig ι)
  | [] => some c
  | t :: schedule =>
    match c.threads t, (c.threads t).advance parent c.heap with
    | .store _ _ false, _ => none
    | _, none => none
    | control, some next => advances parent ((c.record t (control.event parent c.heap)).set t next.1 next.2) schedule

theorem Run.advances {start : BorrowConfig ι} {steps : List (Taken ι)} {schedule : List ι} (run : Run parent start steps c)
    (atEnd : c.advances parent schedule = some c') : ∃ steps', Run parent start steps' c' := by
  induction schedule generalizing c steps with
  | nil => exact ⟨steps, Option.some.inj atEnd ▸ run⟩
  | cons t schedule ih =>
    unfold BorrowConfig.advances at atEnd
    split at atEnd
    · cases atEnd
    · cases atEnd
    · rename_i next advanced other
      refine ih (run.step (.advance advanced fun i objectPtr atT => ?_)) atEnd
      exact absurd atT (other i objectPtr)

end Steps

end BorrowConfig

/-- The protocol holds in every state and at every step of a run exactly when
no get of the run finds its field borrowed. -/
theorem borrow_protocol {ι : Type} [DecidableEq ι] {parent : Address} {start c : BorrowConfig ι}
    {steps : List (BorrowConfig.Taken ι)} (initial : start.Initial parent) (run : BorrowConfig.Run parent start steps c) :
    (∀ step ∈ steps, step.Unborrowed parent) ↔
      (∀ step ∈ steps, step.before.Protected parent ∧ step.Protected) ∧ c.Protected parent := by
  refine ⟨fun unborrowed => ?_, fun kept => ?_⟩
  · obtain ⟨inv, earlier⟩ := run.inv initial unborrowed
    exact ⟨earlier, inv.protected⟩
  · induction run with
    | start => simp
    | @step steps c c' t event run step ih =>
      obtain ⟨earlier, last⟩ := kept
      have before : c.Protected parent := (earlier ⟨c, t, event⟩ (by simp)).1
      intro taken member
      rcases List.mem_append.mp member with member | member
      · exact ih ⟨fun step member => earlier step (List.mem_append_left _ member), before⟩ taken member
      · rw [List.mem_singleton.mp member]
        exact before.unborrowed step last

/-- A parent at address 8 with one field, and two threads. -/
def borrowTwoThreads : BorrowConfig (Fin 2) where
  heap := fun a => if a = 8 then { HeapObject.zeroed with count := 1, state := .live, fields := [16] }
    else { HeapObject.zeroed with count := 1, state := .live }
  threads := fun _ => .idle
  holder := none
  borrower := fun _ => none

theorem borrowTwoThreads_initial : borrowTwoThreads.Initial 8 :=
  ⟨fun _ => rfl, rfl, rfl, fun _ => rfl, fun i => by
    rcases i with _ | i
    · decide
    · simp [borrowTwoThreads, HeapObject.field, HeapObject.zeroed]⟩

/-- A thread that borrows the field, before anything else happens. -/
theorem borrow_protocol_twoThreads :
    ∃ (steps : List (BorrowConfig.Taken (Fin 2))) (c : BorrowConfig (Fin 2)), c.borrower 0 = some 0 ∧
      ((∀ step ∈ steps, step.Unborrowed 8) ↔
        (∀ step ∈ steps, step.before.Protected 8 ∧ step.Protected) ∧ c.Protected 8) := by
  have initially : BorrowConfig.Run 8 borrowTwoThreads [] borrowTwoThreads := .start
  have run := initially.step (.call (t := 0) (.get 0 .borrow) trivial (by decide) (by simp))
  have atEnd : ((borrowTwoThreads.set 0 borrowTwoThreads.heap (.lock (.get 0 .borrow))).advances 8 [0, 0, 0, 0]).map
      (fun c => c.borrower 0) = some (some 0) := by decide
  obtain ⟨c, reached, borrowed⟩ := Option.map_eq_some_iff.mp atEnd
  obtain ⟨steps, run⟩ := run.advances reached
  exact ⟨steps, c, borrowed, borrow_protocol borrowTwoThreads_initial run⟩

/-- One thread borrows the field, and the other one clones it: it waits for the
lock that it holds itself. -/
theorem borrow_protocol_fails :
    ¬ ∀ steps c, BorrowConfig.Run 8 borrowTwoThreads steps c → c.Protected 8 := by
  intro claim
  have initially : BorrowConfig.Run 8 borrowTwoThreads [] borrowTwoThreads := .start
  have run := (initially.step (.call (t := 0) (.get 0 .borrow) trivial (by decide) (by simp))).step
    (.call (t := 1) (.get 0 .clone) trivial (by decide) (by simp))
  have atEnd : (((borrowTwoThreads.set 0 borrowTwoThreads.heap (.lock (.get 0 .borrow))).set 1 borrowTwoThreads.heap
      (.lock (.get 0 .clone))).advances 8 [0, 0, 0, 0, 1, 1]).map (fun c => (c.threads 1, c.holder)) =
        some (.lock (.get 0 .clone), some 1) := by decide
  obtain ⟨c, reached, ends⟩ := Option.map_eq_some_iff.mp atEnd
  obtain ⟨waits, mine⟩ := Prod.mk.inj ends
  obtain ⟨steps, run⟩ := run.advances reached
  exact (claim steps c run).waiting 1 _ waits mine

end CatLa
