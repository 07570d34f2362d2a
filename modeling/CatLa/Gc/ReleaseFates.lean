import CatLa.Gc.ReleaseSteps

namespace CatLa
open CountedGraph

/-- What one access does to the objects of a release: `deferred` are those it
will leave to the collector, `freed` those it will free. -/
structure FateStep (event : Option ReleaseEvent) (h h' : Heap) (deferred freed deferred' freed' : List Address) :
    Prop where
  waits : ∀ o ∈ deferred, o ∈ deferred' ∨ o ∉ deferred' ∧ o ∉ freed' ∧ (h' o).state = .waitingForGc
  dies : ∀ o ∈ freed, o ∈ freed' ∨ o ∉ deferred' ∧ o ∉ freed' ∧ (h' o).state = .dead
  takes : ∀ source object, event = some (.fetchSub source object 1) →
    (∃ p i, source = some (p, i) ∧ p ∈ deferred) ∧ object ∈ deferred' ∨
      (∀ p i, source = some (p, i) → p ∈ freed) ∧
        ((h object).Suspected ∧ object ∈ deferred' ∨ ¬(h object).Suspected ∧ object ∈ freed')

theorem FateStep.same {event : Option ReleaseEvent} {h h' : Heap} {deferred freed deferred' freed' : List Address}
    (kept : ∀ o ∈ deferred, o ∈ deferred') (keptFreed : ∀ o ∈ freed, o ∈ freed')
    (silent : ∀ source object, event ≠ some (.fetchSub source object 1)) :
    FateStep event h h' deferred freed deferred' freed' where
  waits o member := Or.inl (kept o member)
  dies o member := Or.inl (keptFreed o member)
  takes source object happened := absurd happened (silent source object)

variable {holders : Finset Address} {h h' : Heap} {o current w : Address} {i : Nat} {outer : List Address}
  {rest : Multiset Address}

theorem HeapObject.suspected_fetchSub (x : HeapObject) : x.fetchSub.Suspected ↔ x.Suspected := Iff.rfl

namespace WaitingCall

/-- An object leaves a deferred release at the end of its batch. -/
theorem leaving {f : WaitingCall} (sound : f.Sound h) (member : o ∈ f.objects)
    (gone : o ∉ objectsLeft objects (f.advance h).2) : f.access = .mark [] ∧ o ∈ f.releaseObjects := by
  obtain ⟨access, released, stack, roots⟩ := f
  cases access with
  | visit current =>
    refine absurd ?_ gone
    simp only [objects, advance, objectsLeft, Option.elim, List.mem_cons, List.mem_append] at member ⊢
    tauto
  | read current i =>
    refine absurd ?_ gone
    simp only [advance]
    split
    · split <;> exact member
    · cases stack <;> exact member
  | sub current i w =>
    refine absurd ?_ gone
    simp only [advance]
    split
    · exact List.mem_cons_of_mem _ member
    · exact member
  | test current i w =>
    refine absurd ?_ gone
    simp only [advance]
    split <;> exact member
  | clear current i root =>
    refine absurd ?_ gone
    simp only [objects, advance, objectsLeft, Option.elim, List.mem_append] at member ⊢
    tauto
  | mark marks =>
    have empty : stack = [] := sound.access.1
    subst empty
    cases marks with
    | cons object marks => exact absurd member gone
    | nil =>
      have inside : o ∈ roots ∨ o ∈ released := List.mem_append.mp member
      cases roots with
      | nil => exact ⟨rfl, inside.resolve_left List.not_mem_nil⟩
      | cons next below =>
        have left : o ∉ next :: below := by simpa [advance, objectsLeft, objects, make] using gone
        exact ⟨rfl, inside.resolve_left left⟩

/-- It is left to the collector. -/
theorem left_state {f : WaitingCall} (sound : f.Sound h) (member : o ∈ f.objects)
    (gone : o ∉ objectsLeft objects (f.advance h).2) : ((f.advance h).1 o).state = .waitingForGc := by
  obtain ⟨access, released⟩ := leaving sound member gone
  obtain ⟨_, _, stack, roots⟩ := f
  dsimp only at access
  subst access
  have waiting := sound.access.2.2 o released List.not_mem_nil
  cases roots <;> exact waiting

/-- A reference that is the last one is dropped from a visited object. -/
theorem taken {f : WaitingCall} (sound : f.Sound h) (source : Option (Address × Nat)) (object : Address)
    (event : f.event h = some (.fetchSub source object 1)) :
    (∃ p j, source = some (p, j) ∧ p ∈ f.objects) ∧ object ∈ objectsLeft objects (f.advance h).2 := by
  obtain ⟨count, -, current, i, rfl, access⟩ := event_fetchSub event
  obtain ⟨_, released, stack, roots⟩ := f
  dsimp only at access
  subst access
  refine ⟨⟨current, i, rfl, by simp [objects, sound.access.1]⟩, ?_⟩
  simp only [advance, if_pos count.symm]
  exact List.mem_cons_self

theorem fate {f : WaitingCall} (sound : f.Sound h) : FateStep (f.event h) h (f.advance h).1 f.objects []
    (objectsLeft objects (f.advance h).2) [] where
  waits o member := by
    by_cases kept : o ∈ objectsLeft objects (f.advance h).2
    · exact Or.inl kept
    · exact Or.inr ⟨kept, List.not_mem_nil, left_state sound member kept⟩
  dies o member := absurd member List.not_mem_nil
  takes source object event := Or.inl (taken sound source object event)

end WaitingCall

namespace ReleaseCall

def deferred (h : Heap) (f : ReleaseCall) : List Address :=
  match f.access with
  | .test _ fieldObject => if (h fieldObject).Suspected then [fieldObject] else []
  | .waiting _ call => call.objects
  | _ => []

def freed (h : Heap) (f : ReleaseCall) : List Address :=
  match f.access with
  | .test _ fieldObject =>
    if (h fieldObject).Suspected then f.currentObject :: f.checkObjects
    else fieldObject :: f.currentObject :: f.checkObjects
  | _ => f.currentObject :: f.checkObjects

theorem mem_objects {f : ReleaseCall} : o ∈ f.objects ↔ o ∈ f.deferred h ∨ o ∈ f.freed h := by
  obtain ⟨access, current, stack⟩ := f
  cases access with
  | test i w =>
    simp only [objects, deferred, freed]
    split <;> simp
  | waiting i call => exact List.mem_append
  | _ => simp [objects, deferred, freed]

theorem fate {f : ReleaseCall} (sound : f.Sound h)
    (cascade : Cascade holders h (f.objects ++ outer) (f.refs h) rest) :
    FateStep (f.event h) h (f.advance h).1 (f.deferred h) (f.freed h)
      ((f.advance h).2.elim [] (deferred (f.advance h).1)) ((f.advance h).2.elim [] (freed (f.advance h).1)) := by
  obtain ⟨access, current, stack⟩ := f
  cases access with
  | read i =>
    simp only [advance]
    split
    · split <;> exact .same (fun o => id) (fun o => id) (by simp [event])
    · exact .same (fun o => id) (fun o => id) (by simp [event])
  | sub i w =>
    by_cases last : (h w).count = 1
    · simp only [advance, if_pos last, event, Option.elim, deferred, freed, Heap.modify_self,
        HeapObject.suspected_fetchSub]
      refine ⟨fun o member => absurd member List.not_mem_nil, fun o member => Or.inl ?_, fun source object happened => ?_⟩
      · split
        · exact member
        · exact List.mem_cons_of_mem _ member
      · simp only [Option.some.injEq, ReleaseEvent.fetchSub.injEq] at happened
        obtain ⟨rfl, rfl, _⟩ := happened
        refine Or.inr ⟨fun p j here => ?_, ?_⟩
        · cases here
          exact List.mem_cons_self
        · by_cases suspected : (h w).Suspected
          · exact Or.inl ⟨suspected, by rw [if_pos suspected]; exact List.mem_cons_self⟩
          · exact Or.inr ⟨suspected, by rw [if_neg suspected]; exact List.mem_cons_self⟩
    · simp only [advance, if_neg last]
      refine .same (fun o => id) (fun o => id) fun source object happened => last ?_
      simp only [event, Option.some.injEq, ReleaseEvent.fetchSub.injEq] at happened
      exact happened.2.2
  | test i w =>
    by_cases suspected : (h w).Suspected
    · simp only [advance, deferred, freed, if_pos suspected, Option.elim]
      exact .same (fun o => id) (fun o => id) (by simp [event])
    · simp only [advance, deferred, freed, if_neg suspected, Option.elim]
      refine .same (fun o => id) (fun o member => ?_) (by simp [event])
      simp only [List.mem_cons] at member ⊢
      tauto
  | waiting i call =>
    have leaves (o : Address) := WaitingCall.left_state (o := o) (f := call) sound
    have takes := WaitingCall.taken (f := call) sound
    have nodup := cascade.nodup
    simp only [objects, List.append_assoc, List.nodup_append] at nodup
    have apart (o : Address) (member : o ∈ call.objects) : o ∉ current :: stack := fun below =>
      nodup.2.2 o member o (List.mem_append_left _ below) rfl
    simp only [advance, event, deferred, freed]
    generalize call.advance h = result at leaves takes ⊢
    obtain ⟨h', left⟩ := result
    cases left with
    | none =>
      refine ⟨fun o member => Or.inr ⟨List.not_mem_nil, apart o member, leaves o member List.not_mem_nil⟩,
        fun o => Or.inl, fun source object happened => ?_⟩
      exact absurd (takes source object happened).2 List.not_mem_nil
    | some next =>
      refine ⟨fun o member => ?_, fun o => Or.inl, fun source object happened => Or.inl (takes source object happened)⟩
      by_cases kept : o ∈ next.objects
      · exact Or.inl kept
      · exact Or.inr ⟨kept, apart o member, leaves o member kept⟩
  | free =>
    have setState : h.modify current (·.setState .dead) current = (h current).setState .dead := Heap.modify_self ..
    simp only [advance, deferred, freed]
    cases stack with
    | nil =>
      refine ⟨fun o member => absurd member List.not_mem_nil, fun o member => Or.inr ?_, by simp [event]⟩
      rw [List.mem_singleton.mp member]
      exact ⟨List.not_mem_nil, List.not_mem_nil, congrArg HeapObject.state setState⟩
    | cons next below =>
      refine ⟨fun o member => absurd member List.not_mem_nil, fun o member => ?_, by simp [event]⟩
      by_cases kept : o ∈ next :: below
      · exact Or.inl kept
      · obtain rfl := (List.mem_cons.mp member).resolve_right kept
        exact Or.inr ⟨List.not_mem_nil, kept, congrArg HeapObject.state setState⟩

end ReleaseCall

namespace DropControl

/-- The objects that a thread will leave to the collector. -/
def deferred (h : Heap) : DropControl → List Address
  | .test object => if (h object).Suspected then [object] else []
  | .release call => call.deferred h
  | .waiting call => call.objects
  | _ => []

/-- The objects that it will free. -/
def freed (h : Heap) : DropControl → List Address
  | .test object => if (h object).Suspected then [] else [object]
  | .release call => call.freed h
  | _ => []

variable {control control' : DropControl}

theorem mem_objects : o ∈ control.objects ↔ o ∈ control.deferred h ∨ o ∈ control.freed h := by
  cases control with
  | test object =>
    simp only [objects, deferred, freed]
    split <;> simp
  | release call => exact ReleaseCall.mem_objects
  | waiting call => exact (or_iff_left List.not_mem_nil).symm
  | _ => simp [objects, deferred, freed]

/-- One access of a thread, and the objects that it is releasing. -/
theorem fate (sound : control.Sound h) (cascade : Cascade holders h (control.objects ++ outer) (control.refs h) rest)
    (advanced : control.advance h = some (h', control')) :
    FateStep (control.event h) h h' (control.deferred h) (control.freed h) (control'.deferred h') (control'.freed h') := by
  cases control with
  | idle => cases advanced
  | sub object =>
    simp only [advance, Option.some.injEq, Prod.mk.injEq] at advanced
    obtain ⟨rfl, rfl⟩ := advanced
    refine ⟨fun o member => absurd member List.not_mem_nil, fun o member => absurd member List.not_mem_nil,
      fun source w happened => ?_⟩
    simp only [event, Option.some.injEq, ReleaseEvent.fetchSub.injEq] at happened
    obtain ⟨rfl, rfl, last⟩ := happened
    simp only [if_pos last, deferred, freed, Heap.modify_self, HeapObject.suspected_fetchSub]
    refine Or.inr ⟨by simp, ?_⟩
    by_cases suspected : (h object).Suspected
    · exact Or.inl ⟨suspected, by rw [if_pos suspected]; exact List.mem_cons_self⟩
    · exact Or.inr ⟨suspected, by rw [if_neg suspected]; exact List.mem_cons_self⟩
  | test object =>
    simp only [advance, Option.some.injEq, Prod.mk.injEq] at advanced
    obtain ⟨rfl, rfl⟩ := advanced
    by_cases suspected : (h object).Suspected
    · simp only [if_pos suspected, deferred, freed]
      exact .same (fun o => id) (fun o => id) (by simp [event])
    · simp only [if_neg suspected, deferred, freed]
      exact .same (fun o => id) (fun o => id) (by simp [event])
  | release call =>
    have stepped := ReleaseCall.fate sound cascade
    simp only [advance, Option.some.injEq, Prod.mk.injEq] at advanced
    obtain ⟨rfl, rfl⟩ := advanced
    generalize atCall : (call.advance h).2 = left at stepped ⊢
    cases left <;> exact stepped
  | waiting call =>
    have stepped := WaitingCall.fate sound
    simp only [advance, Option.some.injEq, Prod.mk.injEq] at advanced
    obtain ⟨rfl, rfl⟩ := advanced
    generalize atCall : (call.advance h).2 = left at stepped ⊢
    cases left <;> exact stepped

/-- An object whose last reference a thread drops is its own to release. -/
theorem takes (sound : control.Sound h) (cascade : Cascade holders h (control.objects ++ outer) (control.refs h) rest)
    (advanced : control.advance h = some (h', control')) {source : Option (Address × Nat)}
    (happened : control.event h = some (.fetchSub source o 1)) : o ∈ control'.objects := by
  have own : o ∈ control'.deferred h' ∨ o ∈ control'.freed h' := by
    rcases (fate sound cascade advanced).takes source o happened with ⟨-, waits⟩ | ⟨-, ⟨-, waits⟩ | ⟨-, dies⟩⟩
    · exact Or.inl waits
    · exact Or.inl waits
    · exact Or.inr dies
  exact mem_objects.mpr own

/-- An object that a thread is done with is freed or left to the collector. -/
theorem left_state (sound : control.Sound h) (cascade : Cascade holders h (control.objects ++ outer) (control.refs h) rest)
    (advanced : control.advance h = some (h', control')) (member : o ∈ control.objects) (gone : o ∉ control'.objects) :
    (h' o).state = .dead ∨ (h' o).state = .waitingForGc := by
  obtain ⟨notDeferred, notFreed⟩ := not_or.mp (mem_objects.not.mp gone)
  have step := fate sound cascade advanced
  rcases mem_objects.mp member with waits | dies
  · exact Or.inr ((step.waits o waits).resolve_left notDeferred).2.2
  · exact Or.inl ((step.dies o dies).resolve_left notFreed).2.2

end DropControl

end CatLa
