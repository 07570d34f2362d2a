import CatLa.Gc.FieldWords

namespace CatLa
open FuelLoop Relation

variable {referenceFields : Address → List (BitVec 8)} {objects region : Finset Address} {b b' h h' : Heap}
  {o current : Address} {i : Nat}

/-- What the memories of two calls have in common when `h'` shows the
references of `h` and nothing else; `b` and `b'` are the memories before the
calls. -/
structure SameReferences (referenceFields : Address → List (BitVec 8)) (objects : Finset Address) (b b' h h' : Heap) :
    Prop where
  same : ∀ o ∈ objects, h' o = h.references referenceFields o
  apart : ∀ o, o ∉ objects → h o = b o ∧ h' o = b' o

theorem SameReferences.start (same : ∀ o ∈ objects, h' o = h.references referenceFields o) :
    SameReferences referenceFields objects h h' h h' := ⟨same, fun _ _ => ⟨rfl, rfl⟩⟩

theorem SameReferences.modify (same : SameReferences referenceFields objects b b' h h') (inside : o ∈ objects)
    {f : HeapObject → HeapObject} (shows : ∀ x : HeapObject, f (x.references referenceFields) = (f x).references referenceFields) :
    SameReferences referenceFields objects b b' (h.modify o f) (h'.modify o f) where
  same p member := by
    rw [Heap.references, Heap.modify_apply, Heap.modify_apply, same.same p member, Heap.references]
    split
    · exact shows (h p)
    · rfl
  apart p outside := by
    have different : p ≠ o := fun here => outside (here ▸ inside)
    rw [Heap.modify_of_ne _ _ different, Heap.modify_of_ne _ _ different]
    exact same.apart p outside

theorem SameReferences.setState (same : SameReferences referenceFields objects b b' h h') (inside : o ∈ objects)
    (state : ObjectState) :
    SameReferences referenceFields objects b b' (h.modify o (·.setState state)) (h'.modify o (·.setState state)) :=
  same.modify inside fun _ => rfl

theorem SameReferences.fetchSub (same : SameReferences referenceFields objects b b' h h') (inside : o ∈ objects) :
    SameReferences referenceFields objects b b' (h.modify o .fetchSub) (h'.modify o .fetchSub) :=
  same.modify inside fun _ => rfl

theorem SameReferences.clear (same : SameReferences referenceFields objects b b' h h') (inside : o ∈ objects) (i : Nat) :
    SameReferences referenceFields objects b b' (h.modify o (·.setField i 0)) (h'.modify o (·.setField i 0)) :=
  same.modify inside fun _ => HeapObject.references_setField.symm

theorem SameReferences.header (same : SameReferences referenceFields objects b b' h h') (inside : o ∈ objects) :
    (h' o).count = (h o).count ∧ ((h' o).Suspected ↔ (h o).Suspected) ∧ (h' o).fields.length = (h o).fields.length := by
  rw [same.same o inside]
  exact ⟨rfl, Iff.rfl, HeapObject.references_length⟩

theorem SameReferences.field (same : SameReferences referenceFields objects b b' h h') (inside : o ∈ objects)
    (plain : PlainField referenceFields (h o) i) : (h' o).field i = (h o).field i := by
  rw [same.same o inside]
  exact HeapObject.references_plain plain

namespace WaitingCall

/-- The field that the next access of a deferred release reads. -/
def reads (f : WaitingCall) : Option (Address × Nat) :=
  match f.access with
  | .read currentObject i => some (currentObject, i)
  | _ => none

/-- The next access of a deferred release is to an object, and a count that it
lowers is that of the object which an object field refers to. -/
def Follows (referenceFields : Address → List (BitVec 8)) (objects : Finset Address) (h : Heap) (f : WaitingCall) : Prop :=
  match f.access with
  | .visit currentObject => currentObject ∈ objects
  | .read currentObject _ => currentObject ∈ objects
  | .sub currentObject i fieldObject => fieldObject ∈ objects ∧ IsReference referenceFields (h currentObject) i
  | .test _ _ fieldObject => fieldObject ∈ objects
  | .clear currentObject _ _ => currentObject ∈ objects
  | .mark list => ∀ o ∈ list, o ∈ objects

/-- Its variables hold objects only. -/
structure Within (referenceFields : Address → List (BitVec 8)) (objects : Finset Address) (h : Heap) (f : WaitingCall) :
    Prop where
  follows : f.Follows referenceFields objects h
  lists : ∀ o, o ∈ f.checkObjects ∨ o ∈ f.checkRoots ∨ o ∈ f.releaseObjects → o ∈ objects
  visiting : match f.access with
    | .sub currentObject _ _ => currentObject ∈ objects
    | .test currentObject _ _ => currentObject ∈ objects
    | .clear _ _ root => ∀ o ∈ root, o ∈ objects
    | _ => True

theorem within_make (member : o ∈ objects) : (make o []).Within referenceFields objects h := by
  refine ⟨member, fun o listed => ?_, trivial⟩
  simp [make] at listed

theorem advance_cleared (h : Heap) (f : WaitingCall) : Cleared h (f.advance h).1 := by
  obtain ⟨access, released, stack, roots⟩ := f
  cases access with
  | visit current => exact .modify rfl fun _ _ => rfl
  | read current i =>
    simp only [advance]
    split
    · split <;> exact .refl h
    · cases stack <;> exact .refl h
  | sub current i w =>
    simp only [advance]
    split <;> exact .modify rfl fun _ _ => rfl
  | test current i w =>
    simp only [advance]
    split <;> exact .refl h
  | clear current i root => exact .modify rfl fun _ nonnull => (HeapObject.field_setField _ nonnull).2
  | mark marks =>
    cases marks with
    | cons object marks => exact .modify rfl fun _ _ => rfl
    | nil => cases roots <;> exact .refl h

theorem Follows.mono {f : WaitingCall} (follows : f.Follows referenceFields region h) (sub : region ⊆ objects) :
    f.Follows referenceFields objects h := by
  obtain ⟨access, released, stack, roots⟩ := f
  cases access with
  | sub current i w => exact ⟨sub follows.1, follows.2⟩
  | mark marks => exact fun o listed => sub (follows o listed)
  | _ => exact sub follows

theorem Follows.owner {f : WaitingCall} (follows : f.Follows referenceFields objects h) (read : f.reads = some (current, i)) :
    current ∈ objects := by
  obtain ⟨access, released, stack, roots⟩ := f
  cases access with
  | read _ _ =>
    cases read
    exact follows
  | _ => cases read

/-- The word that is read is followed. -/
theorem advance_reads {f : WaitingCall} (read : f.reads = some (current, i)) (nonnull : (h current).field i ≠ 0) :
    f.advance h = (h, some { f with access := .sub current i ((h current).field i) }) := by
  obtain ⟨access, released, stack, roots⟩ := f
  cases access with
  | read _ _ =>
    cases read
    simp only [advance, if_pos (HeapObject.field_bound nonnull), if_neg nonnull]
  | _ => cases read

/-- A plain word leads to an object. -/
theorem within_step {f g : WaitingCall} (within : f.Within referenceFields objects h) (laid : Laid referenceFields objects h)
    (plain : ∀ o i, f.reads = some (o, i) → PlainField referenceFields (h o) i) (left : (f.advance h).2 = some g) :
    g.Within referenceFields objects (f.advance h).1 := by
  obtain ⟨access, released, stack, roots⟩ := f
  obtain ⟨follows, lists, visiting⟩ := within
  cases access with
  | visit current =>
    cases left
    refine ⟨follows, fun o listed => ?_, trivial⟩
    simp only [List.mem_cons] at listed
    rcases listed with pending | root | (rfl | old)
    · exact lists o (Or.inl pending)
    · exact lists o (Or.inr (Or.inl root))
    · exact follows
    · exact lists o (Or.inr (Or.inr old))
  | read current i =>
    by_cases bound : i < (h current).fields.length
    · by_cases null : (h current).field i = 0
      · simp only [advance, if_pos bound, if_pos null] at left ⊢
        cases left
        exact ⟨follows, lists, trivial⟩
      · simp only [advance, if_pos bound, if_neg null] at left ⊢
        cases left
        obtain ⟨reference, target⟩ := laid.target follows (plain current i rfl) null
        exact ⟨⟨target, reference⟩, lists, follows⟩
    · cases stack with
      | nil =>
        simp only [advance, if_neg bound] at left ⊢
        cases left
        exact ⟨fun o listed => lists o (Or.inr (Or.inr (List.mem_reverse.mp listed))), lists, trivial⟩
      | cons next below =>
        simp only [advance, if_neg bound] at left ⊢
        cases left
        exact ⟨lists next (Or.inl List.mem_cons_self), fun o listed => lists o (listed.imp_left (List.mem_cons_of_mem _)), trivial⟩
  | sub current i w =>
    by_cases last : (h w).count = 1
    · simp only [advance, if_pos last] at left ⊢
      cases left
      exact ⟨follows.1, lists, visiting⟩
    · simp only [advance, if_neg last] at left ⊢
      cases left
      exact ⟨visiting, lists, fun o none => by cases none⟩
  | test current i w =>
    by_cases suspected : (h w).Suspected
    · simp only [advance, if_pos suspected] at left ⊢
      cases left
      exact ⟨visiting, lists, fun o here => Option.mem_some_iff.mp here ▸ follows⟩
    · simp only [advance, if_neg suspected] at left ⊢
      cases left
      refine ⟨visiting, fun o listed => ?_, trivial⟩
      simp only [List.mem_cons] at listed
      rcases listed with (rfl | pending) | old
      · exact follows
      · exact lists o (Or.inl pending)
      · exact lists o (Or.inr old)
  | clear current i root =>
    cases left
    refine ⟨follows, fun o listed => ?_, trivial⟩
    simp only [List.mem_append, Option.mem_toList] at listed
    rcases listed with pending | (here | old) | released
    · exact lists o (Or.inl pending)
    · exact visiting o here
    · exact lists o (Or.inr (Or.inl old))
    · exact lists o (Or.inr (Or.inr released))
  | mark marks =>
    cases marks with
    | cons object marks =>
      cases left
      exact ⟨fun o listed => follows o (List.mem_cons_of_mem _ listed), lists, trivial⟩
    | nil =>
      cases roots with
      | nil => cases left
      | cons next below =>
        cases left
        refine ⟨lists next (Or.inr (Or.inl List.mem_cons_self)), fun o listed => lists o (Or.inr (Or.inl ?_)), trivial⟩
        have inside : o ∈ below := (listed.resolve_left List.not_mem_nil).resolve_right List.not_mem_nil
        exact List.mem_cons_of_mem _ inside

/-- With nulls in place of all other words the access is the same one. -/
theorem advance_alike {f : WaitingCall} (within : f.Within referenceFields objects h)
    (plain : ∀ o i, f.reads = some (o, i) → PlainField referenceFields (h o) i)
    (same : SameReferences referenceFields objects b b' h h') :
    (f.advance h').2 = (f.advance h).2 ∧ f.event h' = f.event h ∧
      SameReferences referenceFields objects b b' (f.advance h).1 (f.advance h').1 := by
  obtain ⟨access, released, stack, roots⟩ := f
  obtain ⟨follows, -, -⟩ := within
  cases access with
  | visit current => exact ⟨rfl, rfl, same.setState follows .processGc⟩
  | read current i =>
    have field := same.field follows (plain current i rfl)
    have length := (same.header follows).2.2
    simp only [advance, field, length]
    split
    · split <;> exact ⟨rfl, rfl, same⟩
    · cases stack <;> exact ⟨rfl, rfl, same⟩
  | sub current i w =>
    have count := (same.header follows.1).1
    have dropped := same.fetchSub follows.1
    simp only [advance, event, count, true_and]
    split <;> exact ⟨rfl, dropped⟩
  | test current i w =>
    have suspected := (same.header follows).2.1
    simp only [advance, suspected]
    split <;> exact ⟨rfl, rfl, same⟩
  | clear current i root => exact ⟨rfl, rfl, same.clear follows i⟩
  | mark marks =>
    cases marks with
    | cons object marks => exact ⟨rfl, rfl, same.setState (follows object List.mem_cons_self) .waitingForGc⟩
    | nil => cases roots <;> exact ⟨rfl, rfl, same⟩

end WaitingCall

namespace ReleaseCall

def reads (f : ReleaseCall) : Option (Address × Nat) :=
  match f.access with
  | .read i => some (f.currentObject, i)
  | .waiting _ call => call.reads
  | _ => none

def Follows (referenceFields : Address → List (BitVec 8)) (objects : Finset Address) (h : Heap) (f : ReleaseCall) : Prop :=
  match f.access with
  | .read _ => f.currentObject ∈ objects
  | .sub i fieldObject => fieldObject ∈ objects ∧ IsReference referenceFields (h f.currentObject) i
  | .test _ fieldObject => fieldObject ∈ objects
  | .waiting _ call => call.Follows referenceFields objects h
  | .free => f.currentObject ∈ objects

structure Within (referenceFields : Address → List (BitVec 8)) (objects : Finset Address) (h : Heap) (f : ReleaseCall) :
    Prop where
  lists : ∀ o ∈ f.currentObject :: f.checkObjects, o ∈ objects
  access : match f.access with
    | .sub i fieldObject => fieldObject ∈ objects ∧ IsReference referenceFields (h f.currentObject) i
    | .test _ fieldObject => fieldObject ∈ objects
    | .waiting _ call => call.Within referenceFields objects h
    | _ => True

theorem Within.follows {f : ReleaseCall} (within : f.Within referenceFields objects h) : f.Follows referenceFields objects h := by
  obtain ⟨access, current, stack⟩ := f
  obtain ⟨lists, inside⟩ := within
  cases access with
  | read i => exact lists current List.mem_cons_self
  | free => exact lists current List.mem_cons_self
  | waiting i call => exact WaitingCall.Within.follows inside
  | _ => exact inside

theorem advance_cleared (h : Heap) (f : ReleaseCall) : Cleared h (f.advance h).1 := by
  obtain ⟨access, current, stack⟩ := f
  cases access with
  | read i =>
    simp only [advance]
    split
    · split <;> exact .refl h
    · exact .refl h
  | sub i w =>
    simp only [advance]
    split <;> exact .modify rfl fun _ _ => rfl
  | test i w =>
    simp only [advance]
    split <;> exact .refl h
  | waiting i call =>
    have inner := call.advance_cleared h
    simp only [advance]
    generalize call.advance h = result at inner ⊢
    obtain ⟨h', left⟩ := result
    cases left <;> exact inner
  | free => cases stack <;> exact .modify rfl fun _ _ => rfl

theorem Follows.mono {f : ReleaseCall} (follows : f.Follows referenceFields region h) (sub : region ⊆ objects) :
    f.Follows referenceFields objects h := by
  obtain ⟨access, current, stack⟩ := f
  cases access with
  | sub i w => exact ⟨sub follows.1, follows.2⟩
  | waiting i call => exact WaitingCall.Follows.mono follows sub
  | _ => exact sub follows

theorem Follows.owner {f : ReleaseCall} (follows : f.Follows referenceFields objects h) (read : f.reads = some (current, i)) :
    current ∈ objects := by
  obtain ⟨access, owner, stack⟩ := f
  cases access with
  | read j =>
    cases read
    exact follows
  | waiting j call => exact WaitingCall.Follows.owner follows read
  | _ => cases read

/-- The word that is read is followed. -/
theorem advance_reads (referenceFields : Address → List (BitVec 8)) {f : ReleaseCall} (read : f.reads = some (current, i)) (nonnull : (h current).field i ≠ 0) :
    ∃ g, f.advance h = (h, some g) ∧ ∀ objects, g.Follows referenceFields objects h →
      (h current).field i ∈ objects ∧ IsReference referenceFields (h current) i := by
  obtain ⟨access, owner, stack⟩ := f
  cases access with
  | read j =>
    obtain ⟨rfl, rfl⟩ := Prod.mk.inj (Option.some.inj read)
    refine ⟨⟨.sub j ((h owner).field j), owner, stack⟩, ?_, fun objects follows => follows⟩
    simp only [advance, if_pos (HeapObject.field_bound nonnull), if_neg nonnull]
  | waiting j call =>
    have inner := WaitingCall.advance_reads (f := call) read nonnull
    refine ⟨⟨.waiting j { call with access := .sub current i ((h current).field i) }, owner, stack⟩, ?_,
      fun objects follows => follows⟩
    simp only [advance, inner]
  | _ => cases read

theorem within_step {f g : ReleaseCall} (within : f.Within referenceFields objects h) (laid : Laid referenceFields objects h)
    (plain : ∀ o i, f.reads = some (o, i) → PlainField referenceFields (h o) i) (left : (f.advance h).2 = some g) :
    g.Within referenceFields objects (f.advance h).1 := by
  obtain ⟨access, current, stack⟩ := f
  obtain ⟨lists, inside⟩ := within
  have owner : current ∈ objects := lists current List.mem_cons_self
  cases access with
  | read i =>
    by_cases bound : i < (h current).fields.length
    · by_cases null : (h current).field i = 0
      · simp only [advance, if_pos bound, if_pos null] at left ⊢
        cases left
        exact ⟨lists, trivial⟩
      · simp only [advance, if_pos bound, if_neg null] at left ⊢
        cases left
        exact ⟨lists, (laid.target owner (plain current i rfl) null).symm⟩
    · simp only [advance, if_neg bound] at left ⊢
      cases left
      exact ⟨lists, trivial⟩
  | sub i w =>
    by_cases last : (h w).count = 1
    · simp only [advance, if_pos last] at left ⊢
      cases left
      exact ⟨lists, inside.1⟩
    · simp only [advance, if_neg last] at left ⊢
      cases left
      exact ⟨lists, trivial⟩
  | test i w =>
    by_cases suspected : (h w).Suspected
    · simp only [advance, if_pos suspected] at left ⊢
      cases left
      exact ⟨lists, WaitingCall.within_make inside⟩
    · simp only [advance, if_neg suspected] at left ⊢
      cases left
      refine ⟨fun o listed => ?_, trivial⟩
      simp only [List.mem_cons] at listed
      rcases listed with rfl | rfl | old
      · exact owner
      · exact inside
      · exact lists o (List.mem_cons_of_mem _ old)
  | waiting i call =>
    have inner (g : WaitingCall) := WaitingCall.within_step (f := call) (g := g) inside laid plain
    simp only [advance] at left ⊢
    generalize call.advance h = result at inner left ⊢
    obtain ⟨h', more⟩ := result
    cases more with
    | none =>
      cases left
      exact ⟨lists, trivial⟩
    | some next =>
      cases left
      exact ⟨lists, inner next rfl⟩
  | free =>
    cases stack with
    | nil => cases left
    | cons next below =>
      cases left
      exact ⟨fun o listed => lists o (List.mem_cons_of_mem _ listed), trivial⟩

theorem advance_alike {f : ReleaseCall} (within : f.Within referenceFields objects h)
    (plain : ∀ o i, f.reads = some (o, i) → PlainField referenceFields (h o) i)
    (same : SameReferences referenceFields objects b b' h h') :
    (f.advance h').2 = (f.advance h).2 ∧ f.event h' = f.event h ∧
      SameReferences referenceFields objects b b' (f.advance h).1 (f.advance h').1 := by
  have follows := within.follows
  obtain ⟨access, current, stack⟩ := f
  cases access with
  | read i =>
    have field := same.field follows (plain current i rfl)
    have length := (same.header follows).2.2
    simp only [advance, field, length]
    split
    · split <;> exact ⟨rfl, rfl, same⟩
    · exact ⟨rfl, rfl, same⟩
  | sub i w =>
    have count := (same.header follows.1).1
    have dropped := same.fetchSub follows.1
    simp only [advance, event, count, true_and]
    split <;> exact ⟨rfl, dropped⟩
  | test i w =>
    have suspected := (same.header follows).2.1
    simp only [advance, suspected]
    split <;> exact ⟨rfl, rfl, same⟩
  | waiting i call =>
    have inner := WaitingCall.advance_alike within.access plain same
    simp only [advance, event]
    generalize call.advance h = result at inner ⊢
    generalize call.advance h' = result' at inner ⊢
    obtain ⟨g, left⟩ := result
    obtain ⟨g', left'⟩ := result'
    obtain ⟨here, event, same⟩ := inner
    dsimp only at here same
    subst here
    cases left' <;> exact ⟨rfl, event, same⟩
  | free =>
    have freed := same.setState follows .dead
    cases stack <;> exact ⟨rfl, rfl, freed⟩

end ReleaseCall

namespace DropControl
variable {control control' : DropControl}

def reads : DropControl → Option (Address × Nat)
  | .release call => call.reads
  | .waiting call => call.reads
  | _ => none

def Follows (referenceFields : Address → List (BitVec 8)) (objects : Finset Address) (h : Heap) : DropControl → Prop
  | .idle => True
  | .sub object => object ∈ objects
  | .test object => object ∈ objects
  | .release call => call.Follows referenceFields objects h
  | .waiting call => call.Follows referenceFields objects h

def Within (referenceFields : Address → List (BitVec 8)) (objects : Finset Address) (h : Heap) : DropControl → Prop
  | .release call => call.Within referenceFields objects h
  | .waiting call => call.Within referenceFields objects h
  | control => control.Follows referenceFields objects h

theorem Within.follows (within : control.Within referenceFields objects h) : control.Follows referenceFields objects h := by
  cases control with
  | release call => exact ReleaseCall.Within.follows within
  | waiting call => exact WaitingCall.Within.follows within
  | _ => exact within

theorem advance_cleared (advanced : control.advance h = some (h', control')) : Cleared h h' := by
  cases control with
  | idle => cases advanced
  | sub object =>
    obtain ⟨rfl, -⟩ := Prod.mk.inj (Option.some.inj advanced)
    exact .modify rfl fun _ _ => rfl
  | test object =>
    obtain ⟨rfl, -⟩ := Prod.mk.inj (Option.some.inj advanced)
    exact .refl h
  | release call =>
    obtain ⟨rfl, -⟩ := Prod.mk.inj (Option.some.inj advanced)
    exact call.advance_cleared h
  | waiting call =>
    obtain ⟨rfl, -⟩ := Prod.mk.inj (Option.some.inj advanced)
    exact call.advance_cleared h

theorem Follows.mono (follows : control.Follows referenceFields region h) (sub : region ⊆ objects) :
    control.Follows referenceFields objects h := by
  cases control with
  | idle => trivial
  | release call => exact ReleaseCall.Follows.mono follows sub
  | waiting call => exact WaitingCall.Follows.mono follows sub
  | _ => exact sub follows

theorem Follows.owner (follows : control.Follows referenceFields objects h) (read : control.reads = some (current, i)) :
    current ∈ objects := by
  cases control with
  | release call => exact ReleaseCall.Follows.owner follows read
  | waiting call => exact WaitingCall.Follows.owner follows read
  | _ => cases read

/-- The word that is read is followed. -/
theorem advance_reads (referenceFields : Address → List (BitVec 8)) (read : control.reads = some (current, i)) (nonnull : (h current).field i ≠ 0) :
    ∃ next, control.advance h = some (h, next) ∧ ∀ objects, next.Follows referenceFields objects h →
      (h current).field i ∈ objects ∧ IsReference referenceFields (h current) i := by
  cases control with
  | release call =>
    obtain ⟨g, advanced, follows⟩ := ReleaseCall.advance_reads referenceFields read nonnull
    exact ⟨.release g, by rw [advance, advanced]; rfl, follows⟩
  | waiting call =>
    refine ⟨.waiting { call with access := .sub current i ((h current).field i) }, ?_, fun objects follows => follows⟩
    rw [advance, WaitingCall.advance_reads read nonnull]
    rfl
  | _ => cases read

theorem within_step (within : control.Within referenceFields objects h) (laid : Laid referenceFields objects h)
    (plain : ∀ o i, control.reads = some (o, i) → PlainField referenceFields (h o) i)
    (advanced : control.advance h = some (h', control')) : control'.Within referenceFields objects h' := by
  cases control with
  | idle => cases advanced
  | sub object =>
    obtain ⟨-, rfl⟩ := Prod.mk.inj (Option.some.inj advanced)
    split
    · exact within
    · trivial
  | test object =>
    obtain ⟨rfl, rfl⟩ := Prod.mk.inj (Option.some.inj advanced)
    split
    · exact WaitingCall.within_make within
    · exact ⟨fun o listed => List.mem_singleton.mp listed ▸ within, trivial⟩
  | release call =>
    have inner (g : ReleaseCall) := ReleaseCall.within_step (g := g) within laid plain
    obtain ⟨rfl, rfl⟩ := Prod.mk.inj (Option.some.inj advanced)
    generalize (call.advance h).2 = left at inner ⊢
    cases left with
    | none => trivial
    | some next => exact inner next rfl
  | waiting call =>
    have inner (g : WaitingCall) := WaitingCall.within_step (g := g) within laid plain
    obtain ⟨rfl, rfl⟩ := Prod.mk.inj (Option.some.inj advanced)
    generalize (call.advance h).2 = left at inner ⊢
    cases left with
    | none => trivial
    | some next => exact inner next rfl

theorem advance_alike {g : Heap} (within : control.Within referenceFields objects h)
    (plain : ∀ o i, control.reads = some (o, i) → PlainField referenceFields (h o) i)
    (same : SameReferences referenceFields objects b b' h h') (advanced : control.advance h = some (g, control')) :
    ∃ g', control.advance h' = some (g', control') ∧ control.event h' = control.event h ∧
      SameReferences referenceFields objects b b' g g' := by
  cases control with
  | idle => cases advanced
  | sub object =>
    obtain ⟨rfl, rfl⟩ := Prod.mk.inj (Option.some.inj advanced)
    have count := (same.header within).1
    exact ⟨_, by simp only [advance, count], by simp only [event, count], same.fetchSub within⟩
  | test object =>
    obtain ⟨rfl, rfl⟩ := Prod.mk.inj (Option.some.inj advanced)
    have suspected := (same.header within).2.1
    exact ⟨_, by simp only [advance, suspected], rfl, same⟩
  | release call =>
    obtain ⟨rfl, rfl⟩ := Prod.mk.inj (Option.some.inj advanced)
    obtain ⟨left, event, same⟩ := ReleaseCall.advance_alike within plain same
    exact ⟨_, by rw [advance, left], event, same⟩
  | waiting call =>
    obtain ⟨rfl, rfl⟩ := Prod.mk.inj (Option.some.inj advanced)
    obtain ⟨left, event, same⟩ := WaitingCall.advance_alike within plain same
    exact ⟨_, by rw [advance, left], event, same⟩

end DropControl

namespace DropTrace
variable {start control : DropControl} {events : List ReleaseEvent}

theorem cleared (trace : DropTrace h start events h' control) : Cleared h h' := by
  induction trace with
  | start => exact .refl h
  | step _ advanced ih => exact ih.trans (DropControl.advance_cleared advanced)

/-- The first access of a call, and the rest of them. -/
theorem cases_head (trace : DropTrace h start events h' control) : (h' = h ∧ control = start) ∨
    ∃ g next rest, start.advance h = some (g, next) ∧ DropTrace g next rest h' control := by
  induction trace with
  | start => exact Or.inl ⟨rfl, rfl⟩
  | @step events h' h'' control' control'' _ advanced ih =>
    refine Or.inr ?_
    rcases ih with ⟨rfl, rfl⟩ | ⟨g, next, rest, first, more⟩
    · exact ⟨h'', control'', [], advanced, .start⟩
    · exact ⟨g, next, _, first, .step more advanced⟩

/-- What a call does is determined, up to its return. -/
theorem unique {g g' : Heap} {events' : List ReleaseEvent} (left : DropTrace h start events g .idle)
    (right : DropTrace h start events' g' .idle) : g = g' := by
  -- what is left of the one call, wherever the other one is
  suffices key : ∀ h' control, DropTrace h start events' h' control → ∃ rest, DropTrace h' control rest g .idle by
    obtain ⟨rest, trace⟩ := key g' .idle right
    rcases trace.cases_head with ⟨same, -⟩ | ⟨_, _, _, advanced, -⟩
    · exact same
    · cases advanced
  clear right
  intro h' control trace
  induction trace with
  | start => exact ⟨events, left⟩
  | step _ advanced ih =>
    obtain ⟨rest, trace⟩ := ih
    rcases trace.cases_head with ⟨-, rfl⟩ | ⟨h₁, next, more, first, trace⟩
    · cases advanced
    · rw [advanced] at first
      obtain ⟨rfl, rfl⟩ := Prod.mk.inj (Option.some.inj first)
      exact ⟨more, trace⟩

end DropTrace

/-- Every field that a call reads is null by then, or it is an object field
that is not borrowed. -/
def ReadsPlain (referenceFields : Address → List (BitVec 8)) (h : Heap) (start : DropControl) : Prop :=
  ∀ events h' control, DropTrace h start events h' control → ∀ o i, control.reads = some (o, i) →
    PlainField referenceFields (h' o) i

/-- A call follows the references of a heap and nothing else: each access is to
an object, through an object field, and with nulls in place of all other words,
and any memory outside the objects, the call makes the same accesses and leaves
the same references. -/
structure CallFollows (referenceFields : Address → List (BitVec 8)) (objects : Finset Address) (h : Heap) (start : DropControl)
    (run : Nat → Heap → Option Heap) : Prop where
  accesses : ∀ events h' control, DropTrace h start events h' control → control.Follows referenceFields objects h'
  alike : ∀ b, (∀ o ∈ objects, b o = h.references referenceFields o) → ∀ events h' control,
    DropTrace h start events h' control →
      ∃ g, DropTrace b start events g control ∧ SameReferences referenceFields objects h b h' g
  results : ∀ b, (∀ o ∈ objects, b o = h.references referenceFields o) → ∀ fuel fuel' h' g, run fuel h = some h' →
    run fuel' b = some g → SameReferences referenceFields objects h b h' g

namespace ReadsPlain
variable {start control : DropControl} {events : List ReleaseEvent}

theorem idle : ReadsPlain referenceFields h .idle := by
  intro events h' control trace o i read
  rcases trace.cases_head with ⟨-, rfl⟩ | ⟨_, _, _, advanced, -⟩
  · cases read
  · cases advanced

theorem step (plain : ∀ o i, start.reads = some (o, i) → PlainField referenceFields (h o) i)
    (advanced : start.advance h = some (h', control)) (rest : ReadsPlain referenceFields h' control) :
    ReadsPlain referenceFields h start := by
  intro events g next trace
  rcases trace.cases_head with ⟨rfl, rfl⟩ | ⟨g', next', more, first, trace⟩
  · exact plain
  · rw [advanced] at first
    obtain ⟨rfl, rfl⟩ := Prod.mk.inj (Option.some.inj first)
    exact rest more g next trace

theorem within (plain : ReadsPlain referenceFields h start) (laid : Laid referenceFields objects h)
    (within : start.Within referenceFields objects h) (trace : DropTrace h start events h' control) :
    control.Within referenceFields objects h' := by
  induction trace with
  | start => exact within
  | step trace advanced ih => exact DropControl.within_step ih (trace.cleared.laid laid) (plain _ _ _ trace) advanced

theorem alike (plain : ReadsPlain referenceFields h start) (laid : Laid referenceFields objects h)
    (within : start.Within referenceFields objects h) (same : ∀ o ∈ objects, b o = h.references referenceFields o)
    (trace : DropTrace h start events h' control) :
    ∃ g, DropTrace b start events g control ∧ SameReferences referenceFields objects h b h' g := by
  induction trace with
  | start => exact ⟨b, .start, .start same⟩
  | step trace advanced ih =>
    obtain ⟨g, shown, related⟩ := ih
    obtain ⟨g', advanced', event, related'⟩ :=
      DropControl.advance_alike (plain.within laid within trace) (plain _ _ _ trace) related advanced
    exact ⟨g', event ▸ .step shown advanced', related'⟩

/-- Where all words that a call could meet are references, it stays among
the objects that they lead to. -/
theorem region_within (words : OnlyReferences referenceFields region h) (proper : ∀ o ∈ region, 1 < o)
    (within : start.Within referenceFields region h) (trace : DropTrace h start events h' control) :
    control.Within referenceFields region h' := by
  induction trace with
  | start => exact within
  | step trace advanced ih =>
    have kept := trace.cleared.only words
    exact DropControl.within_step ih (kept.laid proper) (fun o i read => kept.plain proper (ih.follows.owner read) i) advanced

theorem of_region (words : OnlyReferences referenceFields region h) (proper : ∀ o ∈ region, 1 < o)
    (within : start.Within referenceFields region h) : ReadsPlain referenceFields h start :=
  fun _ _ _ trace _ i read =>
    (trace.cleared.only words).plain proper ((region_within words proper within trace).follows.owner read) i

end ReadsPlain

/-- A call follows references only if and only if every word that it reads is
one. -/
theorem callFollows_iff {start : DropControl} {run : Nat → Heap → Option Heap} (laid : Laid referenceFields objects h)
    (within : start.Within referenceFields objects h)
    (makes : ∀ fuel h h', run fuel h = some h' → ∃ events, DropTrace h start events h' .idle) :
    CallFollows referenceFields objects h start run ↔ ReadsPlain referenceFields h start := by
  constructor
  · intro follows events h' control trace o i read nonnull
    obtain ⟨next, advanced, sub⟩ := DropControl.advance_reads referenceFields read nonnull
    obtain ⟨target, reference⟩ := sub objects (follows.accesses _ _ _ (trace.step advanced))
    exact ⟨reference, (laid.proper _ target).ne'⟩
  · intro plain
    refine ⟨fun events h' control trace => (plain.within laid within trace).follows,
      fun b same events h' control trace => plain.alike laid within same trace, fun b same fuel fuel' h' g left right => ?_⟩
    obtain ⟨events, trace⟩ := makes fuel h h' left
    obtain ⟨events', trace'⟩ := makes fuel' b g right
    obtain ⟨g', shown, related⟩ := plain.alike laid within same trace
    rwa [trace'.unique shown]

end CatLa
