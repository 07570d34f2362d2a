import CatLa.Gc.CascadeSteps
import CatLa.Gc.ReleaseThreads

namespace CatLa
open CountedGraph

/-- The counted objects after an event: a `fetch_sub` that returns 1 takes its
object out of them. -/
def ReleaseEvent.leave (holders : Finset Address) : Option ReleaseEvent → Finset Address
  | some (.fetchSub _ object 1) => holders.erase object
  | _ => holders

/-- The state of an object after an event. -/
def ReleaseEvent.stateAfter (h : Heap) (o : Address) : Option ReleaseEvent → ObjectState
  | some (.stateStore object state) => if o = object then state else (h o).state
  | _ => (h o).state

theorem ReleaseEvent.leave_last {holders : Finset Address} {source : Option (Address × Nat)} {object : Address}
    {previous : Nat} (last : previous = 1) : leave holders (some (.fetchSub source object previous)) = holders.erase object := by
  subst last
  rfl

theorem ReleaseEvent.leave_shared {holders : Finset Address} {source : Option (Address × Nat)} {object : Address}
    {previous : Nat} (shared : previous ≠ 1) : leave holders (some (.fetchSub source object previous)) = holders := by
  unfold leave
  split
  · rename_i same
    cases same
    exact absurd rfl shared
  · rfl

namespace WaitingCall

/-- The references that a deferred release still has to drop. -/
def refs (h : Heap) (f : WaitingCall) : Multiset Address :=
  let pending := pendingPointers h f.checkObjects + pendingPointers h f.checkRoots
  match f.access with
  | .visit currentObject => (h currentObject).pointers + pending
  | .read currentObject i => (h currentObject).remaining i + pending
  | .sub currentObject i fieldObject => {fieldObject} + ((h currentObject).remaining (i + 1) + pending)
  | .test currentObject i fieldObject => (h fieldObject).pointers + ((h currentObject).remaining (i + 1) + pending)
  | .clear currentObject i root => pendingPointers h root.toList + ((h currentObject).remaining (i + 1) + pending)
  | .mark _ => pending

/-- The objects that a deferred release has taken out of the counted ones and
not yet left to the collector. -/
def objects (f : WaitingCall) : List Address :=
  let lists := f.checkObjects ++ (f.checkRoots ++ f.releaseObjects)
  match f.access with
  | .visit currentObject => currentObject :: lists
  | .test _ _ fieldObject => fieldObject :: lists
  | .clear _ _ root => root.toList ++ lists
  | _ => lists

/-- What holds at every point of the function. -/
structure Sound (h : Heap) (f : WaitingCall) : Prop where
  visited : ∀ o ∈ f.releaseObjects, (h o).state ≠ .live
  access : match f.access with
    | .visit _ => True
    | .read currentObject _ => currentObject ∈ f.releaseObjects
    | .sub currentObject i fieldObject => currentObject ∈ f.releaseObjects ∧ (h currentObject).field i = fieldObject
    | .test currentObject i fieldObject => currentObject ∈ f.releaseObjects ∧ (h currentObject).field i = fieldObject
    | .clear currentObject _ _ => currentObject ∈ f.releaseObjects
    | .mark objects => f.checkObjects = [] ∧ (∀ o ∈ objects, o ∈ f.releaseObjects) ∧
      ∀ o ∈ f.releaseObjects, o ∉ objects → (h o).state = .waitingForGc

variable {holders : Finset Address} {h h' : Heap} {current w : Address} {i : Nat} {released stack roots outer : List Address}
  {rest : Multiset Address}

theorem refs_congr {f : WaitingCall} (sound : f.Sound h) (same : ∀ o ∈ f.objects, h' o = h o) : f.refs h' = f.refs h := by
  obtain ⟨access, released, stack, roots⟩ := f
  have pending (list : List Address) (inside : ∀ o ∈ list, o ∈ objects ⟨access, released, stack, roots⟩) :
      pendingPointers h' list = pendingPointers h list :=
    pendingPointers_congr fun o member => by rw [same o (inside o member)]
  have lists : ∀ o ∈ stack ++ (roots ++ released), o ∈ objects ⟨access, released, stack, roots⟩ := fun o member => by
    unfold objects
    split <;> first | exact member | exact List.mem_cons_of_mem _ member | exact List.mem_append_right _ member
  have inStack := pending stack fun o member => lists o (by simp [member])
  have inRoots := pending roots fun o member => lists o (by simp [member])
  have visiting (o : Address) (member : o ∈ released) : h' o = h o := same o (lists o (by simp [member]))
  obtain ⟨-, sound⟩ := sound
  cases access with
  | visit current => simp only [refs, inStack, inRoots, same current (by simp [objects])]
  | read current i => simp only [refs, inStack, inRoots, visiting current sound]
  | sub current i w => simp only [refs, inStack, inRoots, visiting current sound.1]
  | test current i w => simp only [refs, inStack, inRoots, visiting current sound.1, same w (by simp [objects])]
  | clear current i root =>
    have inRoot := pending root.toList fun o member => List.mem_append_left _ member
    simp only [refs, inStack, inRoots, inRoot, visiting current sound]
  | mark marks => simp only [refs, inStack, inRoots]

theorem Sound.congr {f : WaitingCall} (sound : f.Sound h) (same : ∀ o ∈ f.objects, h' o = h o) : f.Sound h' := by
  obtain ⟨access, released, stack, roots⟩ := f
  have visiting (o : Address) (member : o ∈ released) : h' o = h o := same o (by
    unfold objects
    split <;> simp [member])
  obtain ⟨visited, sound⟩ := sound
  refine ⟨fun o member => by rw [visiting o member]; exact visited o member, ?_⟩
  cases access with
  | sub current i w => exact ⟨sound.1, by rw [visiting current sound.1]; exact sound.2⟩
  | test current i w => exact ⟨sound.1, by rw [visiting current sound.1]; exact sound.2⟩
  | mark marks =>
    exact ⟨sound.1, sound.2.1, fun o member unmarked => by rw [visiting o member]; exact sound.2.2 o member unmarked⟩
  | _ => exact sound

theorem step_visit (cascade : Cascade holders h (objects ⟨.visit current, released, stack, roots⟩ ++ outer)
      (refs h ⟨.visit current, released, stack, roots⟩) rest) :
    CascadeStep holders h (objects ⟨.visit current, released, stack, roots⟩) outer
      (refs h ⟨.visit current, released, stack, roots⟩) rest holders (h.modify current (·.setState .processGc))
      (objects ⟨.read current 0, current :: released, stack, roots⟩)
      (refs (h.modify current (·.setState .processGc)) ⟨.read current 0, current :: released, stack, roots⟩) := by
  have nodup := cascade.nodup
  have outside : current ∉ holders := (cascade.apart current List.mem_cons_self).1
  have perm : (objects ⟨.read current 0, current :: released, stack, roots⟩).Perm
      (objects ⟨.visit current, released, stack, roots⟩) := by
    simp only [objects, ← List.append_assoc]
    exact List.perm_middle
  have apart : current ∉ stack ∧ current ∉ roots := by
    simp only [objects, List.cons_append, List.nodup_cons, List.mem_append] at nodup
    tauto
  refine .own (cascade.modify outside _ fun _ => by simp [HeapObject.setState])
    ((Evolves.setState outside .processGc).weaken fun o member => ?_) ((perm.append_right outer).nodup_iff.mpr nodup)
    (fun o => perm.mem_iff.mp) (fun o member _ => perm.mem_iff.mpr member) ?_
  · rw [List.mem_singleton.mp member]
    exact List.mem_cons_self
  · simp only [refs, pendingPointers_modify _ apart.1, pendingPointers_modify _ apart.2, Heap.modify_self]
    rfl

/-- The `fetch_sub` on the last reference to `w`. -/
theorem step_last (last : (h w).count = 1) (visiting : current ∈ released) (cascade : Cascade holders h
      (objects ⟨.sub current i w, released, stack, roots⟩ ++ outer)
      (refs h ⟨.sub current i w, released, stack, roots⟩) rest) :
    CascadeStep holders h (objects ⟨.sub current i w, released, stack, roots⟩) outer
      (refs h ⟨.sub current i w, released, stack, roots⟩) rest (holders.erase w) (h.modify w .fetchSub)
      (objects ⟨.test current i w, released, stack, roots⟩)
      (refs (h.modify w .fetchSub) ⟨.test current i w, released, stack, roots⟩) := by
  have apart (o : Address) (member : o ∈ stack ++ (roots ++ released)) : o ≠ w := by
    rintro rfl
    exact Cascade.fresh cascade (List.mem_append_left _ member)
  have different : current ≠ w := apart current (by simp [visiting])
  have inStack : w ∉ stack := fun member => apart w (by simp [member]) rfl
  have inRoots : w ∉ roots := fun member => apart w (by simp [member]) rfl
  refine .last cascade last (List.Perm.refl _) ?_
  simp only [refs, pendingPointers_modify _ inStack, pendingPointers_modify _ inRoots, Heap.modify_of_ne _ _ different,
    Heap.modify_self]
  rfl

/-- The `fetch_sub` on another reference to `w`. -/
theorem step_shared (shared : (h w).count ≠ 1) (visiting : current ∈ released) (cascade : Cascade holders h
      (objects ⟨.sub current i w, released, stack, roots⟩ ++ outer)
      (refs h ⟨.sub current i w, released, stack, roots⟩) rest) :
    CascadeStep holders h (objects ⟨.sub current i w, released, stack, roots⟩) outer
      (refs h ⟨.sub current i w, released, stack, roots⟩) rest holders (h.modify w .fetchSub)
      (objects ⟨.clear current i none, released, stack, roots⟩)
      (refs (h.modify w .fetchSub) ⟨.clear current i none, released, stack, roots⟩) := by
  have apart (o : Address) (member : o ∈ stack ++ (roots ++ released)) : o ≠ w := by
    rintro rfl
    exact Cascade.fresh cascade (List.mem_append_left _ member)
  have different : current ≠ w := apart current (by simp [visiting])
  have inStack : w ∉ stack := fun member => apart w (by simp [member]) rfl
  have inRoots : w ∉ roots := fun member => apart w (by simp [member]) rfl
  refine .shared cascade (Cascade.shared cascade shared) (.refl ..) ?_
  simp only [refs, pendingPointers_modify _ inStack, pendingPointers_modify _ inRoots, Heap.modify_of_ne _ _ different,
    Option.toList_none, pendingPointers_nil, zero_add]

/-- A field is cleared, and a suspected object becomes a root of its own. -/
theorem step_clear {root : Option Address} (visiting : current ∈ released) (cascade : Cascade holders h
      (objects ⟨.clear current i root, released, stack, roots⟩ ++ outer)
      (refs h ⟨.clear current i root, released, stack, roots⟩) rest) :
    CascadeStep holders h (objects ⟨.clear current i root, released, stack, roots⟩) outer
      (refs h ⟨.clear current i root, released, stack, roots⟩) rest holders (h.modify current (·.setField i 0))
      (objects ⟨.read current (i + 1), released, stack, root.toList ++ roots⟩)
      (refs (h.modify current (·.setField i 0)) ⟨.read current (i + 1), released, stack, root.toList ++ roots⟩) := by
  have nodup := cascade.nodup
  have owned : current ∈ objects ⟨.clear current i root, released, stack, roots⟩ := by simp [objects, visiting]
  have outside : current ∉ holders := (cascade.apart current (List.mem_append_left _ owned)).1
  have perm : (objects ⟨.read current (i + 1), released, stack, root.toList ++ roots⟩).Perm
      (objects ⟨.clear current i root, released, stack, roots⟩) := by
    simp only [objects, List.append_assoc]
    exact (List.perm_append_comm_assoc ..)
  have apart : current ∉ root.toList ∧ current ∉ stack ∧ current ∉ roots := by
    simp only [objects, List.nodup_append, List.mem_append] at nodup
    refine ⟨fun member => ?_, fun member => ?_, fun member => ?_⟩
    · exact nodup.1.2.2 current member current (by simp [visiting]) rfl
    · exact nodup.1.2.1.2.2 current member current (Or.inr visiting) rfl
    · exact nodup.1.2.1.2.1.2.2 current member current visiting rfl
  refine .own (cascade.modify outside _ fun member => (cascade.apart current (List.mem_append_left _ owned)).2)
    ((Evolves.clearField outside i).weaken fun o member => ?_)
    ((perm.append_right outer).nodup_iff.mpr cascade.nodup) (fun o => perm.mem_iff.mp)
    (fun o member _ => perm.mem_iff.mpr member) ?_
  · rw [List.mem_singleton.mp member]
    exact owned
  · simp only [refs, pendingPointers_append, pendingPointers_modify _ apart.1, pendingPointers_modify _ apart.2.1,
      pendingPointers_modify _ apart.2.2, Heap.modify_self, HeapObject.remaining_setField]
    rw [add_left_comm (pendingPointers h root.toList), add_left_comm (pendingPointers h stack)]

/-- An object that the release visited is left to the collector. -/
theorem step_mark {object : Address} {marks : List Address} (marked : object ∈ released) (cascade : Cascade holders h
      (objects ⟨.mark (object :: marks), released, [], roots⟩ ++ outer)
      (refs h ⟨.mark (object :: marks), released, [], roots⟩) rest) :
    CascadeStep holders h (objects ⟨.mark (object :: marks), released, [], roots⟩) outer
      (refs h ⟨.mark (object :: marks), released, [], roots⟩) rest holders
      (h.modify object (·.setState .waitingForGc)) (objects ⟨.mark marks, released, [], roots⟩)
      (refs (h.modify object (·.setState .waitingForGc)) ⟨.mark marks, released, [], roots⟩) := by
  have nodup := cascade.nodup
  simp only [objects, List.nil_append, List.nodup_append] at nodup
  have owned : object ∈ objects ⟨.mark (object :: marks), released, [], roots⟩ := by simp [objects, marked]
  have outside : object ∉ holders := (cascade.apart object (List.mem_append_left _ owned)).1
  have inRoots : object ∉ roots := fun member => nodup.1.2.2 object member object marked rfl
  refine .own (cascade.modify outside _ fun _ => by simp [HeapObject.setState])
    ((Evolves.setState outside .waitingForGc).weaken fun o member => ?_) cascade.nodup (fun o => id) (fun o member _ => member) ?_
  · rw [List.mem_singleton.mp member]
    exact owned
  · simp only [refs, pendingPointers_nil, pendingPointers_modify _ inRoots]

/-- One access of a deferred release, as a step of the accounting. -/
theorem step {f : WaitingCall} (sound : f.Sound h) (cascade : Cascade holders h (f.objects ++ outer) (f.refs h) rest) :
    CascadeStep holders h f.objects outer (f.refs h) rest (ReleaseEvent.leave holders (f.event h)) (f.advance h).1
      (objectsLeft objects (f.advance h).2) (refsLeft refs (f.advance h).1 (f.advance h).2) := by
  obtain ⟨access, released, stack, roots⟩ := f
  obtain ⟨visited, sound⟩ := sound
  dsimp only at visited sound
  cases access with
  | visit current => exact step_visit cascade
  | read current i =>
    by_cases bound : i < (h current).fields.length
    · by_cases null : (h current).field i = 0
      · simp only [advance, if_pos bound, if_pos null]
        refine .own cascade (.refl ..) cascade.nodup (fun o => id) (fun o member _ => member) ?_
        simp only [refsLeft, Option.elim, refs, HeapObject.remaining_null null]
      · simp only [advance, if_pos bound, if_neg null]
        refine .own cascade (.refl ..) cascade.nodup (fun o => id) (fun o member _ => member) ?_
        simp only [refsLeft, Option.elim, refs]
        exact (HeapObject.reads rfl null _).symm
    · have none := HeapObject.remaining_of_le (Nat.le_of_not_lt bound)
      simp only [advance, if_neg bound]
      cases stack with
      | nil =>
        refine .own cascade (.refl ..) cascade.nodup (fun o => id) (fun o member _ => member) ?_
        simp only [refsLeft, Option.elim, refs, none, zero_add]
      | cons next below =>
        refine .own cascade (.refl ..) cascade.nodup (fun o => id) (fun o member _ => member) ?_
        simp only [refsLeft, Option.elim, refs, none, zero_add, pendingPointers_cons, add_assoc]
  | sub current i w =>
    by_cases last : (h w).count = 1
    · simp only [advance, if_pos last, event, ReleaseEvent.leave_last last]
      exact step_last last sound.1 cascade
    · simp only [advance, if_neg last, event, ReleaseEvent.leave_shared last]
      exact step_shared last sound.1 cascade
  | test current i w =>
    by_cases suspected : (h w).Suspected
    · simp only [advance, if_pos suspected]
      refine .own cascade (.refl ..) cascade.nodup (fun o => id) (fun o member _ => member) ?_
      simp only [refsLeft, Option.elim, refs, Option.toList_some, pendingPointers_cons, pendingPointers_nil, add_zero]
    · simp only [advance, if_neg suspected]
      refine .own cascade (.refl ..) cascade.nodup (fun o => id) (fun o member _ => member) ?_
      simp only [refsLeft, Option.elim, refs, pendingPointers_cons, add_assoc]
      exact add_left_comm _ _ _
  | clear current i root => exact step_clear sound cascade
  | mark marks =>
    obtain ⟨empty, marked, waiting⟩ := sound
    subst empty
    cases marks with
    | cons object marks => exact step_mark (marked object List.mem_cons_self) cascade
    | nil =>
      have nodup := cascade.nodup
      cases roots with
      | nil =>
        refine .own cascade (.refl ..) (List.Nodup.of_append_right nodup) (fun o member => absurd member List.not_mem_nil)
          (fun o member live => absurd live (visited o member)) ?_
        simp [refsLeft, refs, advance]
      | cons next below =>
        have sub : (objects (.make next below)).Sublist (objects ⟨.mark [], released, [], next :: below⟩) := by
          simp [objects, make]
        refine .own cascade (.refl ..) (nodup.sublist (sub.append_right outer)) (fun o member => sub.subset member)
          (fun o member live => ?_) ?_
        · have inside : o ∈ next :: below ∨ o ∈ released := List.mem_append.mp member
          have kept := inside.resolve_right fun old => visited o old live
          simpa [objectsLeft, objects, advance, make] using kept
        · simp [refsLeft, refs, advance, make]

/-- What holds at every point holds at the next one. -/
theorem sound_step {f g : WaitingCall} (sound : f.Sound h) (cascade : Cascade holders h (f.objects ++ outer) (f.refs h) rest)
    (left : (f.advance h).2 = some g) : g.Sound (f.advance h).1 := by
  obtain ⟨access, released, stack, roots⟩ := f
  obtain ⟨visited, sound⟩ := sound
  dsimp only at visited sound
  cases access with
  | visit current =>
    cases left
    refine ⟨fun o member => ?_, List.mem_cons_self⟩
    rcases List.mem_cons.mp member with rfl | old
    · simp [advance, HeapObject.setState]
    · exact visited_modify visited (Or.inr (by simp [HeapObject.setState])) o old
  | read current i =>
    by_cases bound : i < (h current).fields.length
    · by_cases null : (h current).field i = 0
      · simp only [advance, if_pos bound, if_pos null] at left ⊢
        cases left
        exact ⟨visited, sound⟩
      · simp only [advance, if_pos bound, if_neg null] at left ⊢
        cases left
        exact ⟨visited, sound, rfl⟩
    · cases stack with
      | nil =>
        simp only [advance, if_neg bound] at left ⊢
        cases left
        exact ⟨visited, rfl, fun o => List.mem_reverse.mp, fun o member unmarked => absurd (List.mem_reverse.mpr member) unmarked⟩
      | cons next below =>
        simp only [advance, if_neg bound] at left ⊢
        cases left
        exact ⟨visited, trivial⟩
  | sub current i w =>
    have different : current ≠ w := by
      rintro rfl
      exact Cascade.fresh cascade (by simp [objects, sound.1])
    have visited' := visited_modify (c := w) (f := .fetchSub) visited (Or.inl rfl)
    by_cases last : (h w).count = 1
    · simp only [advance, if_pos last] at left ⊢
      cases left
      exact ⟨visited', sound.1, by rw [Heap.modify_of_ne _ _ different]; exact sound.2⟩
    · simp only [advance, if_neg last] at left ⊢
      cases left
      exact ⟨visited', sound.1⟩
  | test current i w =>
    by_cases suspected : (h w).Suspected
    · simp only [advance, if_pos suspected] at left ⊢
      cases left
      exact ⟨visited, sound.1⟩
    · simp only [advance, if_neg suspected] at left ⊢
      cases left
      exact ⟨visited, sound.1⟩
  | clear current i root =>
    cases left
    exact ⟨visited_modify visited (Or.inl rfl), sound⟩
  | mark marks =>
    obtain ⟨empty, marked, waiting⟩ := sound
    subst empty
    cases marks with
    | cons object marks =>
      cases left
      refine ⟨visited_modify visited (Or.inr (by simp [HeapObject.setState])), rfl,
        fun o member => marked o (List.mem_cons_of_mem _ member), fun o member unmarked => ?_⟩
      by_cases here : o = object
      · subst here
        simp [advance, HeapObject.setState]
      · simp only [advance]
        rw [Heap.modify_of_ne _ _ here]
        exact waiting o member fun again => (List.mem_cons.mp again).elim here unmarked
    | nil =>
      cases roots with
      | nil => cases left
      | cons next below =>
        cases left
        exact ⟨fun o member => absurd member List.not_mem_nil, trivial⟩

/-- A `fetch_sub` drops a reference that is still to be dropped. -/
theorem event_fetchSub {f : WaitingCall} {source : Option (Address × Nat)} {object : Address} {previous : Nat}
    (event : f.event h = some (.fetchSub source object previous)) :
    previous = (h object).count ∧ object ∈ f.refs h ∧ ∃ current i, source = some (current, i) ∧
      f.access = .sub current i object := by
  obtain ⟨access, released, stack, roots⟩ := f
  cases access with
  | sub current i w =>
    cases event
    exact ⟨rfl, Multiset.mem_add.mpr (Or.inl (Multiset.mem_singleton_self _)), current, i, rfl, rfl⟩
  | mark marks => cases marks <;> cases event
  | _ => cases event

/-- A state is stored into an object that has been released. -/
theorem event_stateStore {f : WaitingCall} (sound : f.Sound h) {object : Address} {state : ObjectState}
    (event : f.event h = some (.stateStore object state)) : object ∈ f.objects ∧ state ≠ .live := by
  obtain ⟨access, released, stack, roots⟩ := f
  cases access with
  | visit current =>
    cases event
    exact ⟨List.mem_cons_self, by simp⟩
  | mark marks =>
    cases marks with
    | nil => cases event
    | cons next marks =>
      cases event
      exact ⟨by simp [objects, sound.access.2.1 object List.mem_cons_self], by simp⟩
  | _ => cases event

theorem advance_state (f : WaitingCall) (h : Heap) (o : Address) :
    ((f.advance h).1 o).state = ReleaseEvent.stateAfter h o (f.event h) := by
  have setState (a : Address) (s : ObjectState) :
      (h.modify a (·.setState s) o).state = if o = a then s else (h o).state := by
    rw [Heap.modify_apply]
    split <;> rfl
  obtain ⟨access, released, stack, roots⟩ := f
  cases access with
  | visit current => exact setState current .processGc
  | read current i =>
    simp only [advance]
    split
    · split <;> rfl
    · cases stack <;> rfl
  | sub current i w =>
    simp only [advance]
    split <;> (dsimp only; rw [Heap.modify_apply]; split <;> rfl)
  | test current i w =>
    simp only [advance]
    split <;> rfl
  | clear current i root =>
    simp only [advance]
    rw [Heap.modify_apply]
    split <;> rfl
  | mark marks =>
    cases marks with
    | cons object marks => exact setState object .waitingForGc
    | nil => cases roots <;> rfl

end WaitingCall

namespace CascadeStep
variable {holders holders' : Finset Address} {h h' : Heap} {owned owned' below outer : List Address}
  {refs refs' belowRefs rest : Multiset Address}

theorem congr (step : CascadeStep holders h owned outer refs rest holders' h' owned' refs') {left : Multiset Address}
    (same : left = refs') : CascadeStep holders h owned outer refs rest holders' h' owned' left := same ▸ step

/-- A step of a function that another one waits for, which holds references
and objects of its own. -/
theorem under (inner : CascadeStep holders h owned (below ++ outer) refs (belowRefs + rest) holders' h' owned' refs') :
    CascadeStep holders h (owned ++ below) outer (refs + belowRefs) rest holders' h' (owned' ++ below)
      (refs' + belowRefs) := by
  have after := inner.after
  refine ⟨⟨?_, after.alive, ?_, ?_⟩, inner.evolves.weaken fun o => List.mem_append_left _, fun o member => ?_,
    fun o member gone => ?_, fun o member gone live => ?_⟩
  · rw [add_assoc]
    exact after.exact
  · rw [List.append_assoc]
    exact after.nodup
  · rw [List.append_assoc]
    exact after.apart
  · rcases List.mem_append.mp member with inside | below
    · exact (inner.origin o inside).imp_left (List.mem_append_left _)
    · exact Or.inl (List.mem_append_right _ below)
  · obtain ⟨last, referred⟩ := inner.leaves o member gone
    exact ⟨last, Multiset.mem_add.mpr (Or.inl referred)⟩
  · rcases member with owned | holder
    · rcases List.mem_append.mp owned with inside | below
      · exact List.mem_append_left _ (inner.keeps o (Or.inl inside) gone live)
      · exact List.mem_append_right _ below
    · exact List.mem_append_left _ (inner.keeps o (Or.inr holder) gone live)

end CascadeStep

namespace ReleaseCall

/-- The references that a release still has to drop. -/
def refs (h : Heap) (f : ReleaseCall) : Multiset Address :=
  match f.access with
  | .read i => (h f.currentObject).remaining i + pendingPointers h f.checkObjects
  | .sub i fieldObject => {fieldObject} + ((h f.currentObject).remaining (i + 1) + pendingPointers h f.checkObjects)
  | .test i fieldObject =>
    (h fieldObject).pointers + ((h f.currentObject).remaining (i + 1) + pendingPointers h f.checkObjects)
  | .waiting i call => call.refs h + ((h f.currentObject).remaining (i + 1) + pendingPointers h f.checkObjects)
  | .free => pendingPointers h f.checkObjects

/-- The objects that a release has taken out of the counted ones and not yet
freed. -/
def objects (f : ReleaseCall) : List Address :=
  match f.access with
  | .test _ fieldObject => fieldObject :: f.currentObject :: f.checkObjects
  | .waiting _ call => call.objects ++ f.currentObject :: f.checkObjects
  | _ => f.currentObject :: f.checkObjects

def Sound (h : Heap) (f : ReleaseCall) : Prop :=
  match f.access with
  | .waiting _ call => call.Sound h
  | _ => True

variable {holders : Finset Address} {h h' : Heap} {current w : Address} {i : Nat} {stack outer : List Address}
  {rest : Multiset Address}

theorem refs_congr {f : ReleaseCall} (sound : f.Sound h) (same : ∀ o ∈ f.objects, h' o = h o) : f.refs h' = f.refs h := by
  obtain ⟨access, current, stack⟩ := f
  have below (inside : ∀ o ∈ current :: stack, h' o = h o) :
      h' current = h current ∧ pendingPointers h' stack = pendingPointers h stack :=
    ⟨inside current List.mem_cons_self,
      pendingPointers_congr fun o member => by rw [inside o (List.mem_cons_of_mem _ member)]⟩
  cases access with
  | read i =>
    obtain ⟨here, lists⟩ := below same
    simp only [refs, here, lists]
  | sub i w =>
    obtain ⟨here, lists⟩ := below same
    simp only [refs, here, lists]
  | test i w =>
    obtain ⟨here, lists⟩ := below fun o member => same o (List.mem_cons_of_mem _ member)
    simp only [refs, here, lists, same w List.mem_cons_self]
  | waiting i call =>
    obtain ⟨here, lists⟩ := below fun o member => same o (List.mem_append_right _ member)
    simp only [refs, here, lists, WaitingCall.refs_congr sound fun o member => same o (List.mem_append_left _ member)]
  | free => simp only [refs, (below same).2]

theorem Sound.congr {f : ReleaseCall} (sound : f.Sound h) (same : ∀ o ∈ f.objects, h' o = h o) : f.Sound h' := by
  obtain ⟨access, current, stack⟩ := f
  cases access with
  | waiting i call => exact WaitingCall.Sound.congr sound fun o member => same o (List.mem_append_left _ member)
  | _ => trivial

theorem step_last (last : (h w).count = 1) (cascade : Cascade holders h (objects ⟨.sub i w, current, stack⟩ ++ outer)
      (refs h ⟨.sub i w, current, stack⟩) rest) :
    CascadeStep holders h (objects ⟨.sub i w, current, stack⟩) outer (refs h ⟨.sub i w, current, stack⟩) rest
      (holders.erase w) (h.modify w .fetchSub) (objects ⟨.test i w, current, stack⟩)
      (refs (h.modify w .fetchSub) ⟨.test i w, current, stack⟩) := by
  have fresh := Cascade.fresh cascade
  simp only [objects, List.cons_append, List.mem_cons, List.mem_append, not_or] at fresh
  refine .last cascade last (List.Perm.refl _) ?_
  simp only [refs, pendingPointers_modify _ fresh.2.1, Heap.modify_of_ne _ _ (Ne.symm fresh.1), Heap.modify_self]
  rfl

theorem step_shared (shared : (h w).count ≠ 1) (cascade : Cascade holders h
      (objects ⟨.sub i w, current, stack⟩ ++ outer) (refs h ⟨.sub i w, current, stack⟩) rest) :
    CascadeStep holders h (objects ⟨.sub i w, current, stack⟩) outer (refs h ⟨.sub i w, current, stack⟩) rest
      holders (h.modify w .fetchSub) (objects ⟨.read (i + 1), current, stack⟩)
      (refs (h.modify w .fetchSub) ⟨.read (i + 1), current, stack⟩) := by
  have fresh := Cascade.fresh cascade
  simp only [objects, List.cons_append, List.mem_cons, List.mem_append, not_or] at fresh
  refine .shared cascade (Cascade.shared cascade shared) (.refl ..) ?_
  simp only [refs, pendingPointers_modify _ fresh.2.1, Heap.modify_of_ne _ _ (Ne.symm fresh.1)]

/-- All fields of the current object are released, and its cell is freed. -/
theorem step_free (cascade : Cascade holders h (objects ⟨.free, current, stack⟩ ++ outer)
      (refs h ⟨.free, current, stack⟩) rest) :
    CascadeStep holders h (objects ⟨.free, current, stack⟩) outer (refs h ⟨.free, current, stack⟩) rest
      holders (h.modify current (·.setState .dead)) stack
      (pendingPointers (h.modify current (·.setState .dead)) stack) := by
  have nodup := cascade.nodup
  have outside : current ∉ holders := (cascade.apart current List.mem_cons_self).1
  simp only [objects, List.cons_append, List.nodup_cons, List.mem_append, not_or] at nodup
  rw [pendingPointers_modify _ nodup.1.1]
  have kept := cascade.own nodup.2 fun o member => List.mem_cons_of_mem _ member
  refine ⟨kept.modify outside _ fun member => ?_, ?_, fun o member => Or.inl (List.mem_cons_of_mem _ member),
    fun o member gone => absurd member gone, fun o member gone live => ?_⟩
  · exact absurd (List.mem_append.mp member) (not_or.mpr nodup.1)
  · refine (Evolves.setState outside .dead).weaken fun o member => ?_
    rw [List.mem_singleton.mp member]
    exact List.mem_cons_self
  · refine (List.mem_cons.mp (member.resolve_right gone)).resolve_left fun here : o = current => ?_
    rw [here, Heap.modify_self] at live
    exact absurd live (by simp [HeapObject.setState])

/-- One access of a release, as a step of the accounting. -/
theorem step {f : ReleaseCall} (sound : f.Sound h) (cascade : Cascade holders h (f.objects ++ outer) (f.refs h) rest) :
    CascadeStep holders h f.objects outer (f.refs h) rest (ReleaseEvent.leave holders (f.event h)) (f.advance h).1
      (objectsLeft objects (f.advance h).2) (refsLeft refs (f.advance h).1 (f.advance h).2) := by
  obtain ⟨access, current, stack⟩ := f
  cases access with
  | read i =>
    by_cases bound : i < (h current).fields.length
    · by_cases null : (h current).field i = 0
      · simp only [advance, if_pos bound, if_pos null]
        refine .own cascade (.refl ..) cascade.nodup (fun o => id) (fun o member _ => member) ?_
        simp only [refsLeft, Option.elim, refs, HeapObject.remaining_null null]
      · simp only [advance, if_pos bound, if_neg null]
        refine .own cascade (.refl ..) cascade.nodup (fun o => id) (fun o member _ => member) ?_
        simp only [refsLeft, Option.elim, refs]
        exact (HeapObject.reads rfl null _).symm
    · simp only [advance, if_neg bound]
      refine .own cascade (.refl ..) cascade.nodup (fun o => id) (fun o member _ => member) ?_
      simp only [refsLeft, Option.elim, refs, HeapObject.remaining_of_le (Nat.le_of_not_lt bound), zero_add]
  | sub i w =>
    by_cases last : (h w).count = 1
    · simp only [advance, if_pos last, event, ReleaseEvent.leave_last last]
      exact step_last last cascade
    · simp only [advance, if_neg last, event, ReleaseEvent.leave_shared last]
      exact step_shared last cascade
  | test i w =>
    by_cases suspected : (h w).Suspected
    · simp only [advance, if_pos suspected]
      refine .own cascade (.refl ..) cascade.nodup (fun o => id) (fun o member _ => member) ?_
      simp [refsLeft, refs, WaitingCall.refs, WaitingCall.make]
    · simp only [advance, if_neg suspected]
      have perm : (objects ⟨.read (i + 1), current, w :: stack⟩).Perm (objects ⟨.test i w, current, stack⟩) :=
        List.Perm.swap ..
      refine .own cascade (.refl ..) ((perm.append_right outer).nodup_iff.mpr cascade.nodup)
        (fun o => perm.mem_iff.mp) (fun o member _ => perm.mem_iff.mpr member) ?_
      exact add_left_comm _ _ _
  | waiting i call =>
    have nested : Cascade holders h (call.objects ++ (current :: stack ++ outer)) (call.refs h)
        ((h current).remaining (i + 1) + pendingPointers h stack + rest) := by
      refine ⟨?_, cascade.alive, ?_, ?_⟩
      · rw [← add_assoc]
        exact cascade.exact
      · rw [← List.append_assoc]
        exact cascade.nodup
      · rw [← List.append_assoc]
        exact cascade.apart
    have inner := WaitingCall.step sound nested
    have outerStep := inner.under
    -- the call touches neither the current object nor the stack
    have nodup := cascade.nodup
    simp only [objects, List.append_assoc, List.nodup_append] at nodup
    have settled (o : Address) (member : o ∈ current :: stack) : (call.advance h).1 o = h o := by
      refine inner.evolves.settled o (cascade.apart o ?_).1 fun inside => ?_
      · exact List.mem_append_left _ (List.mem_append_right _ member)
      · exact nodup.2.2 o inside o (List.mem_append_left _ member) rfl
    have kept : ((call.advance h).1 current).remaining (i + 1) + pendingPointers (call.advance h).1 stack =
        (h current).remaining (i + 1) + pendingPointers h stack := by
      rw [settled current List.mem_cons_self]
      exact congrArg _ (pendingPointers_congr fun o member => by rw [settled o (List.mem_cons_of_mem _ member)])
    simp only [advance, event]
    generalize call.advance h = result at outerStep kept ⊢
    obtain ⟨h', left⟩ := result
    cases left with
    | some call =>
      refine outerStep.congr ?_
      simp only [refsLeft, Option.elim, refs]
      exact congrArg _ kept
    | none =>
      refine outerStep.congr ?_
      simp only [refsLeft, Option.elim, refs, zero_add]
      exact kept
  | free =>
    have freed := step_free cascade
    cases stack with
    | nil => exact freed
    | cons next below => exact freed

theorem sound_step {f g : ReleaseCall} (sound : f.Sound h)
    (cascade : Cascade holders h (f.objects ++ outer) (f.refs h) rest) (left : (f.advance h).2 = some g) :
    g.Sound (f.advance h).1 := by
  obtain ⟨access, current, stack⟩ := f
  cases access with
  | read i =>
    simp only [advance] at left
    split at left
    · split at left <;> cases left <;> trivial
    · cases left
      trivial
  | sub i w =>
    simp only [advance] at left
    split at left <;> cases left <;> trivial
  | test i w =>
    simp only [advance] at left
    split at left <;> cases left
    · exact ⟨fun o member => absurd member List.not_mem_nil, trivial⟩
    · trivial
  | waiting i call =>
    have nested : Cascade holders h (call.objects ++ (current :: stack ++ outer)) (call.refs h)
        ((h current).remaining (i + 1) + pendingPointers h stack + rest) := by
      have nodup := cascade.nodup
      have apart := cascade.apart
      have exact := cascade.exact
      simp only [objects, refs, List.append_assoc, add_assoc] at nodup apart exact
      exact ⟨by simpa only [add_assoc] using exact, cascade.alive, nodup, apart⟩
    have next (f : WaitingCall) (more : (call.advance h).2 = some f) := WaitingCall.sound_step sound nested more
    simp only [advance] at left ⊢
    generalize call.advance h = result at left next ⊢
    obtain ⟨h', more⟩ := result
    cases more with
    | some f =>
      cases left
      exact next f rfl
    | none =>
      cases left
      trivial
  | free =>
    simp only [advance] at left
    cases stack <;> cases left
    trivial

theorem event_fetchSub {f : ReleaseCall} {source : Option (Address × Nat)} {object : Address} {previous : Nat}
    (event : f.event h = some (.fetchSub source object previous)) : previous = (h object).count ∧ object ∈ f.refs h := by
  obtain ⟨access, current, stack⟩ := f
  cases access with
  | sub i w =>
    cases event
    exact ⟨rfl, Multiset.mem_add.mpr (Or.inl (Multiset.mem_singleton_self _))⟩
  | waiting i call =>
    obtain ⟨count, referred, _⟩ := WaitingCall.event_fetchSub event
    exact ⟨count, Multiset.mem_add.mpr (Or.inl referred)⟩
  | _ => cases event

theorem event_stateStore {f : ReleaseCall} (sound : f.Sound h) {object : Address} {state : ObjectState}
    (event : f.event h = some (.stateStore object state)) : object ∈ f.objects ∧ state ≠ .live := by
  obtain ⟨access, current, stack⟩ := f
  cases access with
  | waiting i call =>
    obtain ⟨owned, other⟩ := WaitingCall.event_stateStore sound event
    exact ⟨List.mem_append_left _ owned, other⟩
  | free =>
    cases event
    exact ⟨List.mem_cons_self, by simp⟩
  | _ => cases event

theorem advance_state (f : ReleaseCall) (h : Heap) (o : Address) :
    ((f.advance h).1 o).state = ReleaseEvent.stateAfter h o (f.event h) := by
  obtain ⟨access, current, stack⟩ := f
  cases access with
  | read i =>
    simp only [advance]
    split
    · split <;> rfl
    · rfl
  | sub i w =>
    simp only [advance]
    split <;> (dsimp only; rw [Heap.modify_apply]; split <;> rfl)
  | test i w =>
    simp only [advance]
    split <;> rfl
  | waiting i call =>
    have inner := call.advance_state h o
    simp only [advance, event]
    rw [← inner]
    split <;> simp_all
  | free =>
    have setState : (h.modify current (·.setState .dead) o).state = if o = current then .dead else (h o).state := by
      rw [Heap.modify_apply]
      split <;> rfl
    simp only [advance]
    split <;> exact setState

end ReleaseCall

namespace DropControl

/-- The references that a thread still has to drop inside its call. -/
def refs (h : Heap) : DropControl → Multiset Address
  | .idle => 0
  | .sub object => {object}
  | .test object => (h object).pointers
  | .release call => call.refs h
  | .waiting call => call.refs h

/-- The objects that a thread has taken out of the counted ones and not yet
released. -/
def objects : DropControl → List Address
  | .idle => []
  | .sub _ => []
  | .test object => [object]
  | .release call => call.objects
  | .waiting call => call.objects

def Sound (h : Heap) : DropControl → Prop
  | .release call => call.Sound h
  | .waiting call => call.Sound h
  | _ => True

variable {holders : Finset Address} {h h' : Heap} {outer : List Address} {rest : Multiset Address}
  {control control' : DropControl}

theorem refs_congr (sound : control.Sound h) (same : ∀ o ∈ control.objects, h' o = h o) :
    control.refs h' = control.refs h := by
  cases control with
  | test object => simp only [refs, same object List.mem_cons_self]
  | release call => exact ReleaseCall.refs_congr sound same
  | waiting call => exact WaitingCall.refs_congr sound same
  | _ => rfl

theorem Sound.congr (sound : control.Sound h) (same : ∀ o ∈ control.objects, h' o = h o) : control.Sound h' := by
  cases control with
  | release call => exact ReleaseCall.Sound.congr sound same
  | waiting call => exact WaitingCall.Sound.congr sound same
  | _ => trivial

/-- One access of a thread, as a step of the accounting. -/
theorem step (sound : control.Sound h) (cascade : Cascade holders h (control.objects ++ outer) (control.refs h) rest)
    (advanced : control.advance h = some (h', control')) :
    CascadeStep holders h control.objects outer (control.refs h) rest (ReleaseEvent.leave holders (control.event h)) h'
      control'.objects (control'.refs h') := by
  cases control with
  | idle => cases advanced
  | sub object =>
    have cascade' : Cascade holders h ([] ++ outer) ({object} + 0) rest := by rwa [add_zero]
    by_cases last : (h object).count = 1
    · simp only [advance, if_pos last, Option.some.injEq, Prod.mk.injEq] at advanced
      obtain ⟨rfl, rfl⟩ := advanced
      simp only [event, ReleaseEvent.leave_last last]
      have stepped := CascadeStep.last cascade' last (List.Perm.refl _) (add_zero (h object).pointers).symm
      rw [add_zero] at stepped
      refine stepped.congr ?_
      simp only [refs, Heap.modify_self]
      rfl
    · simp only [advance, if_neg last, Option.some.injEq, Prod.mk.injEq] at advanced
      obtain ⟨rfl, rfl⟩ := advanced
      simp only [event, ReleaseEvent.leave_shared last]
      have stepped := CascadeStep.shared cascade' (cascade'.shared last) (.refl ..) rfl
      rwa [add_zero] at stepped
  | test object =>
    simp only [advance, Option.some.injEq, Prod.mk.injEq] at advanced
    obtain ⟨rfl, rfl⟩ := advanced
    by_cases suspected : (h object).Suspected
    · rw [if_pos suspected]
      refine .own cascade (.refl ..) cascade.nodup (fun o => id) (fun o member _ => member) ?_
      simp [refs, WaitingCall.refs, WaitingCall.make]
    · rw [if_neg suspected]
      refine .own cascade (.refl ..) cascade.nodup (fun o => id) (fun o member _ => member) ?_
      simp [refs, ReleaseCall.refs, ReleaseCall.make, HeapObject.remaining_zero]
  | release call =>
    have stepped := ReleaseCall.step sound cascade
    simp only [advance, Option.some.injEq, Prod.mk.injEq] at advanced
    obtain ⟨rfl, rfl⟩ := advanced
    generalize atCall : (call.advance h).2 = left at stepped ⊢
    cases left <;> exact stepped
  | waiting call =>
    have stepped := WaitingCall.step sound cascade
    simp only [advance, Option.some.injEq, Prod.mk.injEq] at advanced
    obtain ⟨rfl, rfl⟩ := advanced
    generalize atCall : (call.advance h).2 = left at stepped ⊢
    cases left <;> exact stepped

theorem sound_step (sound : control.Sound h)
    (cascade : Cascade holders h (control.objects ++ outer) (control.refs h) rest)
    (advanced : control.advance h = some (h', control')) : control'.Sound h' := by
  cases control with
  | idle => cases advanced
  | sub object =>
    simp only [advance, Option.some.injEq, Prod.mk.injEq] at advanced
    obtain ⟨rfl, rfl⟩ := advanced
    split <;> trivial
  | test object =>
    simp only [advance, Option.some.injEq, Prod.mk.injEq] at advanced
    obtain ⟨rfl, rfl⟩ := advanced
    split
    · exact ⟨fun o member => absurd member List.not_mem_nil, trivial⟩
    · trivial
  | release call =>
    have next (g : ReleaseCall) := ReleaseCall.sound_step (g := g) sound cascade
    simp only [advance, Option.some.injEq, Prod.mk.injEq] at advanced
    obtain ⟨rfl, rfl⟩ := advanced
    generalize atCall : (call.advance h).2 = left at next ⊢
    cases left with
    | none => trivial
    | some g => exact next g rfl
  | waiting call =>
    have next (g : WaitingCall) := WaitingCall.sound_step (g := g) sound cascade
    simp only [advance, Option.some.injEq, Prod.mk.injEq] at advanced
    obtain ⟨rfl, rfl⟩ := advanced
    generalize atCall : (call.advance h).2 = left at next ⊢
    cases left with
    | none => trivial
    | some g => exact next g rfl

theorem event_fetchSub {source : Option (Address × Nat)} {object : Address} {previous : Nat}
    (event : control.event h = some (.fetchSub source object previous)) :
    previous = (h object).count ∧ object ∈ control.refs h := by
  cases control with
  | sub object =>
    cases event
    exact ⟨rfl, Multiset.mem_singleton_self _⟩
  | release call => exact ReleaseCall.event_fetchSub event
  | waiting call =>
    obtain ⟨count, referred, _⟩ := WaitingCall.event_fetchSub event
    exact ⟨count, referred⟩
  | _ => cases event

theorem event_stateStore (sound : control.Sound h) {object : Address} {state : ObjectState}
    (event : control.event h = some (.stateStore object state)) : object ∈ control.objects ∧ state ≠ .live := by
  cases control with
  | release call => exact ReleaseCall.event_stateStore sound event
  | waiting call => exact WaitingCall.event_stateStore sound event
  | _ => cases event

theorem advance_state (advanced : control.advance h = some (h', control')) (o : Address) :
    (h' o).state = ReleaseEvent.stateAfter h o (control.event h) := by
  cases control with
  | idle => cases advanced
  | sub object =>
    simp only [advance, Option.some.injEq, Prod.mk.injEq] at advanced
    rw [← advanced.1, Heap.modify_apply]
    split <;> rfl
  | test object =>
    simp only [advance, Option.some.injEq, Prod.mk.injEq] at advanced
    rw [← advanced.1]
    rfl
  | release call =>
    simp only [advance, Option.some.injEq, Prod.mk.injEq] at advanced
    rw [← advanced.1]
    exact call.advance_state h o
  | waiting call =>
    simp only [advance, Option.some.injEq, Prod.mk.injEq] at advanced
    rw [← advanced.1]
    exact call.advance_state h o

end DropControl

end CatLa
