import CatLa.Foundations.Lockstep
import CatLa.Gc.CycleCollector
import CatLa.Gc.ReleaseTraces
import CatLa.Vm.BitSet

namespace CatLa
open FuelLoop

/-- Field `i` of an object is an object field, by `Type::reference_fields`. -/
def IsReference (referenceFields : Address → List (BitVec 8)) (x : HeapObject) (i : Nat) : Prop :=
  getFlag (referenceFields x.typeInfo) i = true

/-- The words of the objects are as the bitsets of their types say: an object
field holds null, the borrow marker or the address of an object, any other
field whatever it likes. -/
structure Laid (referenceFields : Address → List (BitVec 8)) (objects : Finset Address) (h : Heap) : Prop where
  proper : ∀ o ∈ objects, 1 < o
  fields : ∀ o ∈ objects, ∀ i, IsReference referenceFields (h o) i →
    (h o).field i = 0 ∨ (h o).field i = 1 ∨ (h o).field i ∈ objects

/-- The field is null, or it is an object field that is not borrowed. -/
def PlainField (referenceFields : Address → List (BitVec 8)) (x : HeapObject) (i : Nat) : Prop :=
  x.field i ≠ 0 → IsReference referenceFields x i ∧ x.field i ≠ 1

instance (referenceFields : Address → List (BitVec 8)) (x : HeapObject) (i : Nat) :
    Decidable (IsReference referenceFields x i) := inferInstanceAs (Decidable (_ = true))

instance (referenceFields : Address → List (BitVec 8)) (x : HeapObject) (i : Nat) :
    Decidable (PlainField referenceFields x i) := inferInstanceAs (Decidable (_ → _))

/-- Every word that is not null is a reference to an object, in an object
field. -/
def OnlyReferences (referenceFields : Address → List (BitVec 8)) (objects : Finset Address) (h : Heap) : Prop :=
  ∀ o ∈ objects, ∀ i, (h o).field i ≠ 0 → IsReference referenceFields (h o) i ∧ (h o).field i ∈ objects

/-- What a heap looks like to someone who follows references only. -/
def HeapObject.references (referenceFields : Address → List (BitVec 8)) (x : HeapObject) : HeapObject :=
  { x with fields := x.fields.mapIdx fun i w => if getFlag (referenceFields x.typeInfo) i ∧ w ≠ 1 then w else 0 }

def Heap.references (referenceFields : Address → List (BitVec 8)) (h : Heap) : Heap := fun o => (h o).references referenceFields

/-- The objects keep their types, and of their words some are cleared. -/
def Cleared (h h' : Heap) : Prop :=
  ∀ o, (h' o).typeInfo = (h o).typeInfo ∧ ∀ i, (h' o).field i ≠ 0 → (h' o).field i = (h o).field i

/-- Two heaps that agree on the objects, and on nothing else. -/
structure Twin (referenceFields : Address → List (BitVec 8)) (objects : Finset Address) (b b' h h' : Heap) : Prop where
  same : ∀ o ∈ objects, h' o = h o
  apart : ∀ o, o ∉ objects → h o = b o ∧ h' o = b' o
  words : OnlyReferences referenceFields objects h

variable {referenceFields : Address → List (BitVec 8)} {objects : Finset Address} {b b' h h' : Heap} {o : Address}

namespace Cleared

theorem refl (h : Heap) : Cleared h h := fun _ => ⟨rfl, fun _ _ => rfl⟩

theorem trans {g : Heap} (first : Cleared h h') (second : Cleared h' g) : Cleared h g := fun o =>
  ⟨(second o).1.trans (first o).1, fun i nonnull => by
    have same := (second o).2 i nonnull
    rw [same] at nonnull ⊢
    exact (first o).2 i nonnull⟩

theorem modify {f : HeapObject → HeapObject} (type : (f (h o)).typeInfo = (h o).typeInfo)
    (fields : ∀ i, (f (h o)).field i ≠ 0 → (f (h o)).field i = (h o).field i) : Cleared h (h.modify o f) := by
  intro p
  by_cases here : p = o
  · rw [here, Heap.modify_self]
    exact ⟨type, fields⟩
  · rw [Heap.modify_of_ne _ _ here]
    exact ⟨rfl, fun _ _ => rfl⟩

theorem only (cleared : Cleared h h') (words : OnlyReferences referenceFields objects h) :
    OnlyReferences referenceFields objects h' := by
  intro p member i nonnull
  obtain ⟨type, fields⟩ := cleared p
  have same := fields i nonnull
  rw [same] at nonnull
  rw [IsReference, type, same]
  exact words p member i nonnull

theorem laid (cleared : Cleared h h') (laid : Laid referenceFields objects h) : Laid referenceFields objects h' where
  proper := laid.proper
  fields p member i reference := by
    obtain ⟨type, fields⟩ := cleared p
    rw [IsReference, type] at reference
    by_cases null : (h' p).field i = 0
    · exact Or.inl null
    · rw [fields i null]
      exact laid.fields p member i reference

end Cleared

theorem OnlyReferences.modify (words : OnlyReferences referenceFields objects h) {f : HeapObject → HeapObject}
    (type : (f (h o)).typeInfo = (h o).typeInfo)
    (fields : ∀ i, (f (h o)).field i ≠ 0 → (f (h o)).field i = (h o).field i) :
    OnlyReferences referenceFields objects (h.modify o f) := (Cleared.modify type fields).only words

theorem OnlyReferences.plain (words : OnlyReferences referenceFields objects h) (proper : ∀ o ∈ objects, 1 < o)
    (member : o ∈ objects) (i : Nat) : PlainField referenceFields (h o) i := fun nonnull =>
  have followed := words o member i nonnull
  ⟨followed.1, (proper _ followed.2).ne'⟩

theorem OnlyReferences.laid (words : OnlyReferences referenceFields objects h) (proper : ∀ o ∈ objects, 1 < o) :
    Laid referenceFields objects h where
  proper := proper
  fields o member i _ := by
    by_cases null : (h o).field i = 0
    · exact Or.inl null
    · exact Or.inr (Or.inr (words o member i null).2)

theorem Laid.target (laid : Laid referenceFields objects h) (member : o ∈ objects) {i : Nat}
    (plain : PlainField referenceFields (h o) i) (nonnull : (h o).field i ≠ 0) :
    IsReference referenceFields (h o) i ∧ (h o).field i ∈ objects := by
  obtain ⟨reference, unmarked⟩ := plain nonnull
  exact ⟨reference, ((laid.fields o member i reference).resolve_left nonnull).resolve_left unmarked⟩

namespace HeapObject
variable {x : HeapObject} {i : Nat}

theorem references_length : (x.references referenceFields).fields.length = x.fields.length := List.length_mapIdx

theorem references_field : (x.references referenceFields).field i =
    if getFlag (referenceFields x.typeInfo) i ∧ x.field i ≠ 1 then x.field i else 0 := by
  by_cases bound : i < x.fields.length
  · have atI : x.field i = x.fields[i] := List.getD_eq_getElem _ _ bound
    rw [atI, field, List.getD_eq_getElem _ _ (references_length.symm ▸ bound)]
    exact List.getElem_mapIdx ..
  · have beyond := Nat.le_of_not_lt bound
    have null : x.field i = 0 := List.getD_eq_default _ _ beyond
    rw [null, ite_self]
    exact List.getD_eq_default _ _ (references_length.symm ▸ beyond)

theorem references_plain (plain : PlainField referenceFields x i) : (x.references referenceFields).field i = x.field i := by
  rw [references_field]
  by_cases null : x.field i = 0
  · rw [null, ite_self]
  · exact if_pos (plain null)

theorem references_setField : (x.setField i 0).references referenceFields = (x.references referenceFields).setField i 0 := by
  have fields : ((x.setField i 0).references referenceFields).fields = (x.references referenceFields).fields.set i 0 :=
    List.mapIdx_set.trans (congrArg _ (ite_self 0))
  exact congrArg (fun words => { x with fields := words }) fields

/-- An object all of whose words are references looks as it is. -/
theorem references_eq (plain : ∀ i, PlainField referenceFields x i) : x.references referenceFields = x := by
  have fields : (x.references referenceFields).fields = x.fields := by
    refine List.ext_getElem references_length fun i bound bound' => ?_
    have same := references_plain (plain i)
    rwa [field, field, List.getD_eq_getElem _ _ bound, List.getD_eq_getElem _ _ bound'] at same
  exact congrArg (fun words => { x with fields := words }) fields

end HeapObject

namespace Twin

theorem modify (twin : Twin referenceFields objects b b' h h') (inside : o ∈ objects) {f : HeapObject → HeapObject}
    (type : (f (h o)).typeInfo = (h o).typeInfo)
    (fields : ∀ i, (f (h o)).field i ≠ 0 → (f (h o)).field i = (h o).field i) :
    Twin referenceFields objects b b' (h.modify o f) (h'.modify o f) where
  same p member := by
    rw [Heap.modify_apply, Heap.modify_apply, twin.same p member]
  apart p outside := by
    have different : p ≠ o := fun here => outside (here ▸ inside)
    rw [Heap.modify_of_ne _ _ different, Heap.modify_of_ne _ _ different]
    exact twin.apart p outside
  words := twin.words.modify type fields

theorem setState (twin : Twin referenceFields objects b b' h h') (inside : o ∈ objects) (s : ObjectState) :
    Twin referenceFields objects b b' (h.modify o (·.setState s)) (h'.modify o (·.setState s)) :=
  twin.modify inside rfl fun _ _ => rfl

theorem fetchSub (twin : Twin referenceFields objects b b' h h') (inside : o ∈ objects) :
    Twin referenceFields objects b b' (h.modify o .fetchSub) (h'.modify o .fetchSub) :=
  twin.modify inside rfl fun _ _ => rfl

theorem clear (twin : Twin referenceFields objects b b' h h') (inside : o ∈ objects) (i : Nat) :
    Twin referenceFields objects b b' (h.modify o (·.setField i 0)) (h'.modify o (·.setField i 0)) :=
  twin.modify inside rfl fun _ nonnull => (HeapObject.field_setField _ nonnull).2

theorem word (twin : Twin referenceFields objects b b' h h') (inside : o ∈ objects) {w : Address}
    (member : w ∈ (h o).fields) (nonnull : w ≠ 0) : w ∈ objects := by
  obtain ⟨i, rfl⟩ := HeapObject.exists_field member
  exact (twin.words o inside i nonnull).2

end Twin

/-- Two deferred releases that agree on the objects. -/
structure WaitingTwin (referenceFields : Address → List (BitVec 8)) (objects : Finset Address) (b b' : Heap)
    (s t : WaitingLoop) : Prop where
  heap : Twin referenceFields objects b b' s.heap t.heap
  same : t = { s with heap := t.heap }
  inside : ∀ o, o ∈ s.releaseObjects ∨ o ∈ s.checkRoots ∨ o ∈ s.checkObjects → o ∈ objects

namespace WaitingTwin
variable {s t : WaitingLoop} {current : Address}

theorem field (twin : WaitingTwin referenceFields objects b b' s t) (member : current ∈ objects) (i : Nat) :
    WaitingTwin referenceFields objects b b' (waitingField current s i) (waitingField current t i) := by
  obtain ⟨heap, same, inside⟩ := twin
  generalize t.heap = h' at heap same
  subst same
  simp only [waitingField, heap.same current member]
  by_cases null : (s.heap current).field i = 0
  · rw [if_pos null, if_pos null]
    exact ⟨heap, rfl, inside⟩
  have target := (heap.words current member i null).2
  have dropped := heap.fetchSub target
  rw [if_neg null, if_neg null, heap.same _ target, dropped.same _ target]
  split
  · split
    · refine ⟨dropped.clear member i, rfl, fun o listed => ?_⟩
      simp only [List.mem_cons] at listed
      rcases listed with released | (rfl | root) | pending
      · exact inside o (Or.inl released)
      · exact target
      · exact inside o (Or.inr (Or.inl root))
      · exact inside o (Or.inr (Or.inr pending))
    · refine ⟨dropped, rfl, fun o listed => ?_⟩
      simp only [List.mem_cons] at listed
      rcases listed with released | root | rfl | pending
      · exact inside o (Or.inl released)
      · exact inside o (Or.inr (Or.inl root))
      · exact target
      · exact inside o (Or.inr (Or.inr pending))
  · exact ⟨dropped.clear member i, rfl, inside⟩

theorem object (twin : WaitingTwin referenceFields objects b b' s t) (member : current ∈ objects) :
    WaitingTwin referenceFields objects b b' (waitingObject current s) (waitingObject current t) := by
  obtain ⟨heap, same, inside⟩ := twin
  generalize t.heap = h' at heap same
  subst same
  have visited := heap.setState member .processGc
  simp only [waitingObject, visited.same current member]
  refine foldl_rel (fun i _ s t twin => twin.field member i) ⟨visited, rfl, fun o listed => ?_⟩
  simp only [List.mem_cons] at listed
  rcases listed with (rfl | released) | listed
  · exact member
  · exact inside o (Or.inl released)
  · exact inside o (Or.inr listed)

theorem inner (twin : WaitingTwin referenceFields objects b b' s t) (member : current ∈ objects) (fuel : Nat) :
    Option.Rel (WaitingTwin referenceFields objects b b') (whileTrue waitingInnerBody fuel (current, s))
      (whileTrue waitingInnerBody fuel (current, t)) := by
  refine whileTrue_rel (R := fun p q => p.1 = q.1 ∧ p.1 ∈ objects ∧ WaitingTwin referenceFields objects b b' p.2 q.2) ?_
    ⟨rfl, member, twin⟩ fuel
  rintro ⟨current, s⟩ ⟨_, t⟩ ⟨rfl, member, twin⟩
  have visited := twin.object member
  simp only [waitingInnerBody]
  generalize waitingObject current s = s' at visited ⊢
  generalize waitingObject current t = t' at visited ⊢
  obtain ⟨heap, same, inside⟩ := visited
  generalize t'.heap = h' at heap same
  subst same
  cases stack : s'.checkObjects with
  | nil => exact .done ⟨heap, by simp only [stack], inside⟩
  | cons next rest =>
    rw [stack] at inside
    refine .again ⟨rfl, inside next (Or.inr (Or.inr List.mem_cons_self)), heap, rfl, fun o listed => inside o ?_⟩
    exact listed.imp_right (Or.imp_right (List.mem_cons_of_mem next))

end WaitingTwin

namespace Twin

theorem setStates {released : List Address} (twin : Twin referenceFields objects b b' h h') (s : ObjectState)
    (inside : ∀ o ∈ released, o ∈ objects) :
    Twin referenceFields objects b b' (released.foldl (fun h o => h.modify o (·.setState s)) h)
      (released.foldl (fun h o => h.modify o (·.setState s)) h') :=
  foldl_rel (fun o member _ _ twin => twin.setState (inside o member) s) twin

theorem waiting (twin : Twin referenceFields objects b b' h h') (member : o ∈ objects) (fuel : Nat) :
    Option.Rel (Twin referenceFields objects b b') (decrementReferenceCountWaitingGcObject fuel h o)
      (decrementReferenceCountWaitingGcObject fuel h' o) := by
  have only : ∀ p ∈ [o], p ∈ objects := fun p here => List.mem_singleton.mp here ▸ member
  refine whileTrue_rel (s := (o, h, [])) (t := (o, h', [])) (R := fun (p q : Address × Heap × List Address) =>
    p.1 = q.1 ∧ p.2.2 = q.2.2 ∧ (∀ o ∈ p.1 :: p.2.2, o ∈ objects) ∧ Twin referenceFields objects b b' p.2.1 q.2.1) ?_
    ⟨rfl, rfl, only, twin⟩ fuel
  rintro ⟨root, h, roots⟩ ⟨_, h', _⟩ ⟨rfl, rfl, inside, twin⟩
  have start : WaitingTwin referenceFields objects b b'
      { heap := h, releaseObjects := [], checkRoots := roots, checkObjects := [] }
      { heap := h', releaseObjects := [], checkRoots := roots, checkObjects := [] } := by
    refine ⟨twin, rfl, fun o listed => ?_⟩
    exact inside o (List.mem_cons_of_mem _ ((listed.resolve_left List.not_mem_nil).resolve_right List.not_mem_nil))
  have batch := start.inner (inside root List.mem_cons_self) fuel
  simp only [waitingOuterBody]
  generalize whileTrue waitingInnerBody fuel (root, (⟨h, [], roots, []⟩ : WaitingLoop)) = left at batch ⊢
  generalize whileTrue waitingInnerBody fuel (root, (⟨h', [], roots, []⟩ : WaitingLoop)) = right at batch ⊢
  cases batch with
  | none => exact .stuck
  | @some s t related =>
    obtain ⟨heap, same, inside⟩ := related
    generalize t.heap = g' at heap same
    subst same
    have marked := heap.setStates .waitingForGc fun o (member : o ∈ s.releaseObjects.reverse) =>
      inside o (Or.inl (List.mem_reverse.mp member))
    simp only [Option.bind_some]
    cases stack : s.checkRoots with
    | nil => exact .done marked
    | cons next rest =>
      refine .again ⟨rfl, rfl, fun o member => inside o (Or.inr (Or.inl ?_)), marked⟩
      rw [stack]
      exact member

/-- One field of the release loop. -/
theorem releaseField {stack : List Address} (twin : Twin referenceFields objects b b' h h') {current : Address}
    (member : current ∈ objects) (inside : ∀ o ∈ stack, o ∈ objects) (i fuel : Nat) :
    Option.Rel (fun s t : ReleaseLoop => Twin referenceFields objects b b' s.heap t.heap ∧ t.checkObjects = s.checkObjects ∧
      ∀ o ∈ s.checkObjects, o ∈ objects) (CatLa.releaseField fuel current ⟨h, stack⟩ i)
      (CatLa.releaseField fuel current ⟨h', stack⟩ i) := by
  simp only [CatLa.releaseField, twin.same current member]
  by_cases null : (h current).field i = 0
  · rw [if_pos null, if_pos null]
    exact .some ⟨twin, rfl, inside⟩
  have target := (twin.words current member i null).2
  have dropped := twin.fetchSub target
  rw [if_neg null, if_neg null, twin.same _ target, dropped.same _ target]
  split
  · split
    · exact map_rel (dropped.waiting target fuel) fun g g' twin => ⟨twin, rfl, inside⟩
    · refine .some ⟨dropped, rfl, fun o listed => ?_⟩
      rcases List.mem_cons.mp listed with rfl | old
      · exact target
      · exact inside o old
  · exact .some ⟨dropped, rfl, inside⟩

theorem decrement (twin : Twin referenceFields objects b b' h h') (member : o ∈ objects) (fuel : Nat) :
    Option.Rel (Twin referenceFields objects b b') (decrementReferenceCount fuel h o) (decrementReferenceCount fuel h' o) := by
  have dropped := twin.fetchSub member
  simp only [decrementReferenceCount, twin.same o member, dropped.same o member]
  split
  · split
    · exact dropped.waiting member fuel
    · have none : ∀ p ∈ ([] : List Address), p ∈ objects := fun p here => absurd here List.not_mem_nil
      refine whileTrue_rel (s := (o, ⟨h.modify o .fetchSub, []⟩)) (t := (o, ⟨h'.modify o .fetchSub, []⟩))
        (R := fun (p q : Address × ReleaseLoop) => p.1 = q.1 ∧ p.1 ∈ objects ∧
        Twin referenceFields objects b b' p.2.heap q.2.heap ∧ q.2.checkObjects = p.2.checkObjects ∧
        ∀ o ∈ p.2.checkObjects, o ∈ objects) ?_ ⟨rfl, member, dropped, rfl, none⟩ fuel
      rintro ⟨current, h, stack⟩ ⟨current', h', stack'⟩ ⟨here, member, twin, same, inside⟩
      dsimp only at here member twin same inside
      subst here stack'
      have fields : Option.Rel (fun s t : ReleaseLoop => Twin referenceFields objects b b' s.heap t.heap ∧
          t.checkObjects = s.checkObjects ∧ ∀ o ∈ s.checkObjects, o ∈ objects)
          ((List.range (h current).fields.length).foldlM (CatLa.releaseField fuel current) ⟨h, stack⟩)
          ((List.range (h current).fields.length).foldlM (CatLa.releaseField fuel current) ⟨h', stack⟩) := by
        refine foldlM_rel (fun i _ s t related => ?_) ⟨twin, rfl, inside⟩
        obtain ⟨h, stack⟩ := s
        obtain ⟨h', stack'⟩ := t
        obtain ⟨twin, same, inside⟩ := related
        dsimp only at same
        subst stack'
        exact twin.releaseField member inside i fuel
      simp only [releaseBody, twin.same current member]
      generalize (List.range (h current).fields.length).foldlM (CatLa.releaseField fuel current) ⟨h, stack⟩ = left at fields ⊢
      generalize (List.range (h current).fields.length).foldlM (CatLa.releaseField fuel current) ⟨h', stack⟩ = right at fields ⊢
      cases fields with
      | none => exact .stuck
      | @some s t related =>
        obtain ⟨h, stack⟩ := s
        obtain ⟨h', stack'⟩ := t
        obtain ⟨twin, same, inside⟩ := related
        dsimp only at same
        subst stack'
        have freed := twin.setState member .dead
        cases stack with
        | nil => exact .done freed
        | cons next rest =>
          exact .again ⟨rfl, inside next List.mem_cons_self, freed, rfl, fun o member => inside o (List.mem_cons_of_mem _ member)⟩
  · exact .some dropped

end Twin

end CatLa
