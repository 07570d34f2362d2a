import CatLa.Gc.CollectorVisits

namespace CatLa
open FuelLoop GraphSearch Relation

variable {referenceFields : Address → List (BitVec 8)} {objects region : Finset Address} {b h g g' : Heap} {o p q root : Address}
  {roots : List Address}

/-- References lead from `o` to objects only whose words are all references:
none of them has a borrowed field, or a word that is not null in another field
than an object field. -/
def ReachPlain (referenceFields : Address → List (BitVec 8)) (h : Heap) (o : Address) : Prop :=
  ∀ p, Reach (h.references referenceFields).pointers o p → ∀ i, PlainField referenceFields (h p) i

theorem mem_references : q ∈ (h.references referenceFields).pointers p ↔
    ∃ i, IsReference referenceFields (h p) i ∧ (h p).field i = q ∧ q ≠ 0 ∧ q ≠ 1 := by
  have field (i : Nat) : (h.references referenceFields p).field i =
      if getFlag (referenceFields (h p).typeInfo) i ∧ (h p).field i ≠ 1 then (h p).field i else 0 := HeapObject.references_field
  constructor
  · intro pointed
    obtain ⟨member, nonnull⟩ := HeapObject.mem_pointers.mp pointed
    obtain ⟨i, value⟩ := HeapObject.exists_field member
    rw [field] at value
    split at value
    · rename_i followed
      exact ⟨i, followed.1, value, nonnull, value ▸ followed.2⟩
    · exact absurd value.symm nonnull
  · rintro ⟨i, reference, value, nonnull, unmarked⟩
    have shown : (h.references referenceFields p).field i = q := by
      rw [field, if_pos ⟨reference, value ▸ unmarked⟩, value]
    refine HeapObject.mem_pointers.mpr ⟨?_, nonnull⟩
    rw [← shown] at nonnull ⊢
    exact HeapObject.field_mem nonnull

theorem Laid.referred (laid : Laid referenceFields objects h) (member : p ∈ objects)
    (pointed : q ∈ (h.references referenceFields).pointers p) : q ∈ objects := by
  obtain ⟨i, reference, value, nonnull, unmarked⟩ := mem_references.mp pointed
  have word := laid.fields p member i reference
  rw [value] at word
  exact (word.resolve_left nonnull).resolve_left unmarked

theorem Laid.reach (laid : Laid referenceFields objects h) (member : o ∈ objects)
    (path : Reach (h.references referenceFields).pointers o p) : p ∈ objects :=
  path.mem (· ∈ objects) member fun _ inside _ pointed => laid.referred inside pointed

/-- The objects that references lead to from a list. -/
theorem Laid.exists_region (laid : Laid referenceFields objects h) (listed : ∀ o ∈ roots, o ∈ objects)
    (plain : ∀ o ∈ roots, ReachPlain referenceFields h o) :
    ∃ region ⊆ objects, CollectRegion referenceFields region h roots := by
  classical
  refine ⟨objects.filter fun p => ∃ o ∈ roots, Reach (h.references referenceFields).pointers o p, Finset.filter_subset .., ?_⟩
  refine ⟨fun p member i nonnull => ?_, fun p member => laid.proper p (Finset.mem_of_mem_filter p member), fun o member => ?_⟩
  · obtain ⟨inside, o, root, path⟩ := Finset.mem_filter.mp member
    obtain ⟨reference, unmarked⟩ := plain o root p path i nonnull
    have pointed : (h p).field i ∈ (h.references referenceFields).pointers p :=
      mem_references.mpr ⟨i, reference, rfl, nonnull, unmarked⟩
    exact ⟨reference, Finset.mem_filter.mpr ⟨laid.referred inside pointed, o, root, path.tail pointed⟩⟩
  · exact Finset.mem_filter.mpr ⟨listed o member, o, member, .refl⟩

/-- A call on an object from which references lead to no other word reads none. -/
theorem ReachPlain.reads (plain : ReachPlain referenceFields h o) (laid : Laid referenceFields objects h) (member : o ∈ objects) :
    ReadsPlain referenceFields h (.sub o) ∧ ReadsPlain referenceFields h (.waiting (.make o [])) := by
  have single (p : Address) (listed : p ∈ [o]) : p = o := List.mem_singleton.mp listed
  obtain ⟨region, -, inside⟩ := laid.exists_region (fun p (listed : p ∈ [o]) => single p listed ▸ member)
    fun p listed => single p listed ▸ plain
  have start : o ∈ region := inside.listed o List.mem_cons_self
  exact ⟨.of_region inside.words inside.proper start,
    .of_region inside.words inside.proper (WaitingCall.within_make start)⟩

/-- A region that is collected, next to the objects that no word of it leads
to. -/
theorem SameReferences.of_twin (inside : region ⊆ objects) (proper : ∀ o ∈ region, 1 < o)
    (same : ∀ o ∈ objects, b o = h.references referenceFields o) (twin : Twin referenceFields region h b g g') :
    SameReferences referenceFields objects h b g g' where
  same o member := by
    by_cases collected : o ∈ region
    · rw [twin.same o collected]
      exact (HeapObject.references_eq (twin.words.plain proper collected)).symm
    · obtain ⟨before, before'⟩ := twin.apart o collected
      rw [before', same o member, Heap.references, Heap.references, before]
  apart o outside := twin.apart o fun member => outside (inside member)

theorem CollectFollows.of_region (laid : Laid referenceFields objects h) (listed : ∀ o ∈ roots, o ∈ objects)
    (plain : ∀ o ∈ roots, ReachPlain referenceFields h o) : CollectFollows referenceFields objects h roots := by
  obtain ⟨region, sub, inside⟩ := laid.exists_region listed plain
  refine ⟨fun rootOrder releaseOrder g o visit => ?_, fun rootOrder releaseOrder g o call events g' control trace => ?_,
    fun b same rootOrder releaseOrder fuel => ?_⟩
  · obtain ⟨member, words⟩ := inside.visit visit
    exact ⟨sub member, fun i nonnull => (words o member i nonnull).imp_right (@sub _)⟩
  · obtain ⟨member, words⟩ := inside.call call
    have start : DropControl.Within referenceFields region g (.sub o) := member
    exact (ReadsPlain.region_within words inside.proper start trace).follows.mono sub
  · have twin : Twin referenceFields region h b h b := by
      refine ⟨fun o member => (same o (sub member)).trans ?_, fun _ _ => ⟨rfl, rfl⟩, inside.words⟩
      exact HeapObject.references_eq (inside.words.plain inside.proper member)
    have collected := twin.gcCollect inside.listed rootOrder releaseOrder fuel
    generalize gcCollect rootOrder releaseOrder fuel ⟨h, roots⟩ = left at collected ⊢
    generalize gcCollect rootOrder releaseOrder fuel ⟨b, roots⟩ = right at collected ⊢
    cases collected with
    | none => exact .none
    | some both => exact .some ⟨.of_twin sub inside.proper same both.1, both.2⟩

/-- The lock phase with nulls in place of all words that are no references. -/
def LockLoop.shown (referenceFields : Address → List (BitVec 8)) (s : LockLoop) : LockLoop :=
  { s with heap := s.heap.references referenceFields }

theorem lockField_shown (s : LockLoop) (w : Address) :
    lockField root (s.shown referenceFields) w = (lockField root s w).shown referenceFields := by
  simp only [lockField, LockLoop.shown]
  split
  · rfl
  · split
    · rfl
    · split <;> rfl

/-- A pass over an object all of whose words are references is not changed by
the nulls. -/
theorem lockBody_shown (root : Address) {s : LockLoop} {current : Address} (plain : ∀ i, PlainField referenceFields (s.heap current) i) :
    Together (fun p q => q = (p.1, p.2.shown referenceFields)) (fun r r' => r' = r.shown referenceFields)
      (lockBody root (current, s)) (lockBody root (current, s.shown referenceFields)) := by
  have locked : (s.heap.references referenceFields).modify current (·.setLock true) =
      Heap.references referenceFields (s.heap.modify current (·.setLock true)) := by
    funext o
    simp only [Heap.references, Heap.modify_apply]
    split <;> rfl
  have fields : (Heap.references referenceFields (s.heap.modify current (·.setLock true)) current).fields =
      (s.heap.modify current (·.setLock true) current).fields := by
    refine congrArg HeapObject.fields (HeapObject.references_eq fun i => ?_)
    rw [Heap.modify_self]
    exact plain i
  have scanned (words : List Address) (t : LockLoop) : words.foldl (lockField root) (t.shown referenceFields) =
      (words.foldl (lockField root) t).shown referenceFields :=
    foldl_rel (R := fun (s t : LockLoop) => t = s.shown referenceFields) (f := lockField root) (g := lockField root)
      (fun w _ s t related => by rw [related, lockField_shown]) rfl
  have lock : (s.heap.references referenceFields current).lockFlag = (s.heap current).lockFlag := rfl
  have start (cycleObjects : List Address) : LockLoop.mk (Heap.references referenceFields (s.heap.modify current (·.setLock true)))
      s.marking cycleObjects s.isCyclicRoot =
        (LockLoop.mk (s.heap.modify current (·.setLock true)) s.marking cycleObjects s.isCyclicRoot).shown referenceFields := rfl
  simp only [lockBody, LockLoop.shown, lock, locked]
  split
  · exact .stuck
  · rw [fields, start, scanned]
    generalize List.foldl (lockField root) _ _ = t
    have stack : (t.shown referenceFields).marking.checkObjects = t.marking.checkObjects := rfl
    cases top : t.marking.checkObjects with
    | nil =>
      rw [top] at stack
      simp only [stack]
      exact .done rfl
    | cons next rest =>
      rw [top] at stack
      simp only [stack]
      exact .again rfl

theorem lockFields_frame (root : Address) (words : List Address) (l : LockLoop) :
    (words.foldl (lockField root) l).heap = l.heap ∧ (words.foldl (lockField root) l).cycleObjects = l.cycleObjects := by
  induction words generalizing l with
  | nil => exact ⟨rfl, rfl⟩
  | cons w words ih =>
    obtain ⟨heap, cycle⟩ := lockField_frame root l w
    obtain ⟨heaps, cycles⟩ := ih (lockField root l w)
    exact ⟨heaps.trans heap, cycles.trans cycle⟩

/-- What a pass of the lock phase does to the memory. -/
theorem lockBody_frame {s : LockLoop} {current : Address} {outcome : Next (Address × LockLoop) LockLoop}
    (run : lockBody root (current, s) = some outcome) : ∃ l : LockLoop, l.heap = s.heap.modify current (·.setLock true) ∧
      l.cycleObjects = current :: s.cycleObjects ∧
        (outcome = .done l ∨ ∃ next marking, outcome = .again (next, { l with marking := marking })) := by
  simp only [lockBody] at run
  split at run
  · cases run
  have kept := lockFields_frame root (s.heap.modify current (·.setLock true) current).fields
    { s with heap := s.heap.modify current (·.setLock true), cycleObjects := current :: s.cycleObjects }
  generalize List.foldl (lockField root) _ _ = l at run kept
  refine ⟨l, kept.1, kept.2, ?_⟩
  split at run <;> obtain rfl := Option.some.inj run
  · exact Or.inl rfl
  · exact Or.inr ⟨_, _, rfl⟩

namespace LockLoop
variable {s : LockLoop} {current : Address} {pass fuel : Nat} {l : LockLoop}

/-- The lock phase changes locks only. -/
theorem stateAt_frame (run : stateAt (lockBody root) pass (root, lockStart h root) = some (current, s)) (p : Address) :
    (s.heap p).fields = (h p).fields ∧ (s.heap p).typeInfo = (h p).typeInfo := by
  refine stateAt_post (fun q : Address × LockLoop => (q.2.heap p).fields = (h p).fields ∧
    (q.2.heap p).typeInfo = (h p).typeInfo) ⟨rfl, rfl⟩ (fun n last next _ kept step => ?_) run
  obtain ⟨l, heap, -, outcome⟩ := lockBody_frame step
  rcases outcome with done | ⟨_, _, again⟩
  · cases done
  · cases again
    dsimp only
    rw [heap, Heap.modify_apply]
    split <;> exact kept

/-- Every object that the lock phase has locked was its current object. -/
theorem exists_pass (run : whileTrue (lockBody root) fuel (root, lockStart h root) = some l) (member : p ∈ l.cycleObjects) :
    ∃ pass s, stateAt (lockBody root) pass (root, lockStart h root) = some (p, s) := by
  obtain ⟨n, ⟨current, last⟩, reached, done⟩ := exists_last run
  have before : ∀ p ∈ last.cycleObjects, ∃ pass s, stateAt (lockBody root) pass (root, lockStart h root) = some (p, s) := by
    refine stateAt_post (fun q : Address × LockLoop => ∀ p ∈ q.2.cycleObjects, ∃ pass s,
      stateAt (lockBody root) pass (root, lockStart h root) = some (p, s)) (fun p none => absurd none List.not_mem_nil)
      (fun n last next reached kept step p listed => ?_) reached
    obtain ⟨l, -, cycle, outcome⟩ := lockBody_frame step
    rcases outcome with done | ⟨_, _, again⟩
    · cases done
    · cases again
      rcases List.mem_cons.mp (cycle ▸ listed) with rfl | old
      · exact ⟨n, last.2, reached⟩
      · exact kept p old
  obtain ⟨l', -, cycle, outcome⟩ := lockBody_frame done
  rcases outcome with done | ⟨_, _, again⟩
  · cases done
    rcases List.mem_cons.mp (cycle ▸ member) with rfl | old
    · exact ⟨n, last, reached⟩
    · exact before p old
  · cases again

/-- As long as the objects that the lock phase comes to hold references only, it
comes to the same objects with nulls in place of all other words. -/
theorem stateAt_shown (plain : ∀ pass current s, stateAt (lockBody root) pass (root, lockStart h root) = some (current, s) →
      ∀ i, PlainField referenceFields (s.heap current) i)
    (run : stateAt (lockBody root) pass (root, lockStart (h.references referenceFields) root) = some (current, l)) :
    ∃ s, stateAt (lockBody root) pass (root, lockStart h root) = some (current, s) ∧ l = s.shown referenceFields := by
  induction pass generalizing current l with
  | zero =>
    obtain ⟨rfl, rfl⟩ := Prod.mk.inj (Option.some.inj run)
    exact ⟨_, rfl, rfl⟩
  | succ pass ih =>
    obtain ⟨⟨last, l'⟩, before, step⟩ := (stateAt_succ pass).mp run
    obtain ⟨s', reached, rfl⟩ := ih before
    have together := lockBody_shown root (plain pass last s' reached)
    rw [step] at together
    cases first : lockBody root (last, s') <;> rw [first] at together <;> cases together
    rename_i next related
    obtain ⟨rfl, rfl⟩ := Prod.mk.inj related
    exact ⟨_, (stateAt_succ pass).mpr ⟨_, reached, first⟩, rfl⟩

end LockLoop

/-- The set is iterated with one of its members first. -/
def IterationOrder.first (o : Address) : IterationOrder where
  arrange set := if o ∈ set then o :: set.erase o else set
  perm set := by
    split
    · exact (List.perm_cons_erase ‹_›).symm
    · exact .refl set

/-- The collector comes to every object that references lead to: each of them
holds references only. -/
theorem CollectFollows.reachPlain (follows : CollectFollows referenceFields objects h roots) (laid : Laid referenceFields objects h)
    (unlocked : ∀ o ∈ objects, (h o).lockFlag = false) (listed : root ∈ roots) (member : root ∈ objects) :
    ReachPlain referenceFields h root := by
  have visited (pass : Nat) (current : Address) (s : LockLoop)
      (reached : stateAt (lockBody root) pass (root, lockStart h root) = some (current, s)) (i : Nat) :
      PlainField referenceFields (s.heap current) i := by
    have order : (IterationOrder.first root).arrange roots = [] ++ root :: roots.erase root := if_pos listed
    have entered : ([] : List Address).foldlM (collectRoot 0) ⟨h, []⟩ = some ⟨h, []⟩ := rfl
    have visit : CollectVisit (.first root) (.first root) ⟨h, roots⟩ s.heap current := .root order entered (.lock reached)
    exact fun nonnull => ((follows.visits _ _ _ _ visit).2 i nonnull).imp_right fun target => (laid.proper _ target).ne'
  have inside (p : Address) (path : Reach (h.references referenceFields).pointers root p) : p ∈ objects := laid.reach member path
  obtain ⟨l, ⟨fuel, run⟩, locked⟩ := returns_lockPhase inside (fun p path => unlocked p (inside p path))
    (lockStart (h.references referenceFields) root) rfl rfl rfl rfl rfl
  intro p path
  obtain ⟨pass, l', reached⟩ := LockLoop.exists_pass (run fuel le_rfl) ((locked.objects p).mpr path)
  obtain ⟨s, here, -⟩ := LockLoop.stateAt_shown visited reached
  obtain ⟨fields, type⟩ := LockLoop.stateAt_frame here p
  intro i
  have plain := visited pass p s here i
  rwa [PlainField, HeapObject.field, IsReference, fields, type] at plain

/-- On a heap that is laid out as the types say, a release follows references
only if and only if every field that it reads is plain, and a collection if and
only if that holds of all objects that references lead to from its list, unless
one of them stays locked. The second condition is enough for a release too. -/
theorem references_followed (laid : Laid referenceFields objects h) :
    (∀ o ∈ objects,
      (CallFollows referenceFields objects h (.sub o) (fun fuel g => decrementReferenceCount fuel g o) ↔
        ReadsPlain referenceFields h (.sub o)) ∧
      (CallFollows referenceFields objects h (.waiting (.make o []))
        (fun fuel g => decrementReferenceCountWaitingGcObject fuel g o) ↔
          ReadsPlain referenceFields h (.waiting (.make o []))) ∧
      (ReachPlain referenceFields h o →
        ReadsPlain referenceFields h (.sub o) ∧ ReadsPlain referenceFields h (.waiting (.make o [])))) ∧
    ∀ roots : List Address, (∀ o ∈ roots, o ∈ objects) →
      ((∀ o ∈ roots, ReachPlain referenceFields h o) → CollectFollows referenceFields objects h roots) ∧
      ((∀ o ∈ objects, (h o).lockFlag = false) → CollectFollows referenceFields objects h roots →
        ∀ o ∈ roots, ReachPlain referenceFields h o) := by
  refine ⟨fun o member => ⟨?_, ?_, fun plain => plain.reads laid member⟩, fun roots listed => ⟨?_, ?_⟩⟩
  · have start : DropControl.Within referenceFields objects h (.sub o) := member
    exact callFollows_iff laid start fun fuel h h' returned => decrement_trace returned
  · have start : DropControl.Within referenceFields objects h (.waiting (.make o [])) := WaitingCall.within_make member
    exact callFollows_iff laid start fun fuel h h' returned => waiting_trace returned
  · exact fun plain => .of_region laid listed plain
  · exact fun unlocked follows o root => follows.reachPlain laid unlocked root (listed o root)

/-- An object that holds the last reference to nothing, next to one whose
field is borrowed and whose integer is no address, and two objects on a cycle;
the first field of each is an object field. -/
def mixedFields : Heap :=
  Function.update (Function.update (Function.update (Function.update (fun _ => .zeroed)
    8 { count := 1, state := .live, asyncRelease := false, isCyclicType := false, lockFlag := false, typeInfo := 0, fields := [16, 0] })
    16 { count := 2, state := .live, asyncRelease := false, isCyclicType := false, lockFlag := false, typeInfo := 0, fields := [1, 5] })
    24 { count := 1, state := .live, asyncRelease := true, isCyclicType := true, lockFlag := false, typeInfo := 0, fields := [32, 0] })
    32 { count := 2, state := .live, asyncRelease := true, isCyclicType := true, lockFlag := false, typeInfo := 0, fields := [24] }

theorem laid_of_bound (proper : ∀ o ∈ objects, 1 < o) (fields : ∀ o ∈ objects, ∀ i < (h o).fields.length,
      IsReference referenceFields (h o) i → (h o).field i = 0 ∨ (h o).field i = 1 ∨ (h o).field i ∈ objects) :
    Laid referenceFields objects h := by
  refine ⟨proper, fun o member i reference => ?_⟩
  by_cases null : (h o).field i = 0
  · exact Or.inl null
  · exact fields o member i (HeapObject.field_bound null) reference

theorem mixedFields_laid : Laid (fun _ => [1]) {8, 16, 24, 32} mixedFields := laid_of_bound (by decide) (by decide)

/-- The call on 8 reads its two fields, and lowers the count of 16. -/
theorem mixedFields_reads : ReadsPlain (fun _ => [1]) mixedFields (.sub 8) := by
  have nothing {control : DropControl} {h : Heap} (none : control.reads = none) (o : Address) (i : Nat)
      (read : control.reads = some (o, i)) : PlainField (fun _ => [1]) (h o) i := by
    rw [none] at read
    cases read
  have only {control : DropControl} {h : Heap} {p : Address} {j : Nat} (here : control.reads = some (p, j))
      (plain : PlainField (fun _ => [1]) (h p) j) (o : Address) (i : Nat) (read : control.reads = some (o, i)) :
      PlainField (fun _ => [1]) (h o) i := by
    obtain ⟨rfl, rfl⟩ := Prod.mk.inj (Option.some.inj (here.symm.trans read))
    exact plain
  refine .step (nothing rfl) rfl (.step (nothing rfl) rfl ?_)
  refine .step (only rfl (by decide)) rfl (.step (nothing rfl) rfl ?_)
  refine .step (only rfl (by decide)) rfl (.step (only rfl (by decide)) rfl ?_)
  exact .step (nothing rfl) rfl .idle

theorem mixedFields_plain : ReachPlain (fun _ => [1]) mixedFields 24 := by
  intro p path i nonnull
  have inside : p ∈ [24, 32] := path.mem (· ∈ [24, 32]) (by decide) (by decide)
  have bounded : ∀ p ∈ [24, 32], ∀ i < (mixedFields p).fields.length, PlainField (fun _ => [1]) (mixedFields p) i := by decide
  exact bounded p inside i (HeapObject.field_bound nonnull) nonnull

theorem references_followed_mixed :
    CallFollows (fun _ => [1]) {8, 16, 24, 32} mixedFields (.sub 8) (fun fuel g => decrementReferenceCount fuel g 8) ∧
    CallFollows (fun _ => [1]) {8, 16, 24, 32} mixedFields (.waiting (.make 24 []))
      (fun fuel g => decrementReferenceCountWaitingGcObject fuel g 24) ∧
    CollectFollows (fun _ => [1]) {8, 16, 24, 32} mixedFields [24] ∧
    ¬CollectFollows (fun _ => [1]) {8, 16, 24, 32} mixedFields [8] := by
  obtain ⟨calls, collections⟩ := references_followed mixedFields_laid
  obtain ⟨decrement, -, -⟩ := calls 8 (by decide)
  obtain ⟨-, waiting, reach⟩ := calls 24 (by decide)
  refine ⟨decrement.mpr mixedFields_reads, waiting.mpr (reach mixedFields_plain).2, ?_, fun follows => ?_⟩
  · exact (collections [24] (by decide)).1 fun o listed => List.mem_singleton.mp listed ▸ mixedFields_plain
  · have plain := (collections [8] (by decide)).2 (by decide) follows 8 (by decide)
    have path : Reach (mixedFields.references fun _ => [1]).pointers 8 16 := .single (by decide)
    exact absurd (plain 16 path 0) (by decide)

/-- An object with one object field, which is borrowed when the object is
released: address 1 is taken for an object. -/
def borrowedField : Heap :=
  Function.update (fun _ => .zeroed) 8
    { count := 1, state := .live, asyncRelease := false, isCyclicType := false, lockFlag := false, typeInfo := 0, fields := [1] }

theorem references_followed_borrowed : Laid (fun _ => [1]) {8} borrowedField ∧
    ¬CallFollows (fun _ => [1]) {8} borrowedField (.sub 8) (fun fuel g => decrementReferenceCount fuel g 8) ∧
    ¬CallFollows (fun _ => [1]) {8} borrowedField (.waiting (.make 8 []))
      (fun fuel g => decrementReferenceCountWaitingGcObject fuel g 8) ∧
    ¬CollectFollows (fun _ => [1]) {8} borrowedField [8] := by
  have laid : Laid (fun _ => [1]) {8} borrowedField := laid_of_bound (by decide) (by decide)
  refine ⟨laid, fun follows => ?_, fun follows => ?_, fun follows => ?_⟩
  · have trace : DropTrace borrowedField (.sub 8) _ _ _ := .step (.step (.step .start rfl) rfl) rfl
    exact absurd (follows.accesses _ _ _ trace).1 (by decide)
  · have trace : DropTrace borrowedField (.waiting (.make 8 [])) _ _ _ := .step (.step .start rfl) rfl
    exact absurd (follows.accesses _ _ _ trace).1 (by decide)
  · have plain := follows.reachPlain laid (by decide) List.mem_cons_self (by decide) 8 .refl 0
    exact absurd plain (by decide)

end CatLa
