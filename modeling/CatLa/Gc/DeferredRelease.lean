import CatLa.Gc.WaitingCascade

namespace CatLa
open FuelLoop Relation

/-- The outer loop of the deferred release of `object`: `tree` is what it has
handed to the collector, `stack` the suspected objects it still has to. -/
structure Deferred (start : Finset Address) (before : Heap) (object : Address) (refs : Multiset Address)
    (left : Nat) (holders : Finset Address) (tree : Set Address) (stack : List Address) (h : Heap) : Prop where
  exact : Exact holders h (pendingPointers h stack + refs)
  evolves : Evolves start holders [object] before h
  live : ∀ o ∈ holders, (h o).state = .live
  waiting : WaitingTree h tree
  apart : ∀ o ∈ tree, o ∉ holders ∧ o ∉ stack
  nodup : stack.Nodup
  stacked : ∀ o ∈ stack, o ∉ holders ∧ (h o).state = .live ∧ (h o).count = 0 ∧ (h o).Suspected
  origin : ∀ o, o ∈ tree ∨ o ∈ stack → o = object ∨ o ∈ start
  gone : ∀ o ∈ start, o ∉ holders → o ∈ tree ∨ o ∈ stack
  objectIn : object ∈ tree ∨ object ∈ stack
  budget : holders.card + stack.length ≤ left

theorem foldl_setState (s : ObjectState) (objects : List Address) (h : Heap) (o : Address) :
    objects.foldl (fun h o => h.modify o (·.setState s)) h o = if o ∈ objects then (h o).setState s else h o := by
  induction objects generalizing h with
  | nil => rfl
  | cons p rest ih =>
    rw [List.foldl_cons, ih, Heap.modify_apply]
    by_cases here : o = p
    · subst here
      by_cases again : o ∈ rest <;> simp [again, HeapObject.setState]
    · simp [here]

theorem Evolves.setStates {holders : Finset Address} {objects : List Address} {h h' : Heap} (s : ObjectState)
    (outside : ∀ o ∈ objects, o ∉ holders)
    (value : ∀ o, h' o = if o ∈ objects then (h o).setState s else h o) : Evolves holders holders objects h h' where
  shrink := Finset.Subset.refl _
  kept o member := by
    rw [value, if_neg fun again => outside o again member]
    exact ⟨rfl, le_rfl⟩
  header o := by
    rw [value]
    split <;> exact ⟨rfl, rfl, rfl, rfl⟩
  fields o w member := by
    rw [value] at member
    split at member <;> exact Or.inr member
  settled o _ untouched := by rw [value, if_neg untouched]

/-- The inner loop can start on the top of the outer stack. -/
theorem Deferred.idle {start : Finset Address} {before : Heap} {object : Address} {refs : Multiset Address}
    {left : Nat} {holders : Finset Address} {tree : Set Address} {root : Address} {roots : List Address} {h : Heap}
    (deferred : Deferred start before object refs left holders tree (root :: roots) h) :
    BatchIdle holders h root roots refs left holders [root]
      { heap := h, releaseObjects := [], checkRoots := roots, checkObjects := [] } where
  evolves := .refl ..
  live := deferred.live
  nodup := deferred.nodup
  stacked o member := by
    obtain ⟨outside, live, zero, _⟩ := deferred.stacked o member
    exact ⟨outside, List.not_mem_nil, live, zero⟩
  suspected o member := (deferred.stacked o (List.mem_cons_of_mem _ member)).2.2.2
  plain o member := Or.inl (by simpa using member)
  rootFree o member := absurd member List.not_mem_nil
  released o member := absurd member List.not_mem_nil
  gone o member outside := absurd member outside
  origin o member := Or.inl (by simpa using member)
  rootOrigin o member := Or.inl member
  keptRoots o member := member
  rootIn := Or.inr List.mem_cons_self
  paths o member := by
    have here : o = root := by simpa using member
    rw [here]
  budget := by
    have := deferred.budget
    rw [List.length_cons] at this
    simp only [List.length_cons, List.length_nil]
    omega
  exact := by
    have exact := deferred.exact
    rw [pendingPointers_cons, add_assoc] at exact
    rwa [pendingPointers_cons, pendingPointers_nil, add_zero]
  closed o member := absurd member List.not_mem_nil

/-- What one finished batch adds to the objects handed to the collector. -/
theorem Deferred.batch {start : Finset Address} {before : Heap} {object : Address} {refs : Multiset Address}
    {left less : Nat} {holders holders' : Finset Address} {tree : Set Address} {root : Address} {roots : List Address}
    {h h' : Heap} {s : WaitingLoop}
    (deferred : Deferred start before object refs left holders tree (root :: roots) h)
    (done : BatchIdle holders h root roots refs less holders' [] s)
    (value : ∀ o, h' o = if o ∈ s.releaseObjects then (s.heap o).setState .waitingForGc else s.heap o) :
    Deferred start before object refs less holders' (tree ∪ {o | o ∈ s.releaseObjects}) s.checkRoots h' := by
  have rootOutside := deferred.stacked root List.mem_cons_self
  have rootReleased : root ∈ s.releaseObjects := done.rootIn.resolve_right List.not_mem_nil
  have releasedOrigin (o : Address) (member : o ∈ s.releaseObjects) : o = root ∨ o ∈ holders :=
    done.origin o (Or.inl member)
  have startOf (o : Address) (member : o = root ∨ o ∈ holders) : o = object ∨ o ∈ start := by
    rcases member with rfl | holder
    · exact deferred.origin o (Or.inr List.mem_cons_self)
    · exact Or.inr (deferred.evolves.shrink holder)
  have inTree (o : Address) (member : o ∈ tree) : o ∉ s.releaseObjects ∧ h' o = h o := by
    obtain ⟨outside, unstacked⟩ := deferred.apart o member
    have notRoot : o ≠ root := fun equal => unstacked (equal ▸ List.mem_cons_self)
    have unreleased : o ∉ s.releaseObjects := fun released => (releasedOrigin o released).elim notRoot outside
    refine ⟨unreleased, ?_⟩
    rw [value, if_neg unreleased]
    exact done.evolves.settled o outside fun member => notRoot (List.mem_singleton.mp member)
  have marked (o : Address) (member : o ∈ s.releaseObjects) : h' o = (s.heap o).setState .waitingForGc := by
    rw [value, if_pos member]
  have holderSame (o : Address) (member : o ∈ holders') : h' o = s.heap o := by
    rw [value, if_neg fun released => (done.released o released).1 member]
  have rootSame (o : Address) (member : o ∈ s.checkRoots) : h' o = s.heap o := by
    rw [value, if_neg (done.stacked o member).2.1]
  have batchTree : WaitingTree h' {o | o ∈ s.releaseObjects} := by
    refine ⟨fun o member => ?_, fun o member => ?_, fun o member w pointer => ?_, fun o member => ?_,
      fun r member suspected p inside pointer => ?_⟩
    · rw [marked o member]
      rfl
    · rw [marked o member]
      exact (done.released o member).2.2
    · rw [marked o member] at pointer
      exact (done.closed o member w pointer).resolve_right List.not_mem_nil
    · refine ⟨root, rootReleased, ?_, ?_⟩
      · rw [marked root rootReleased]
        exact (done.evolves.suspected_iff root).mpr rootOutside.2.2.2
      · refine ReflTransGen.mono (fun p q edge => ⟨edge.1, ?_⟩) _ _ (done.paths o (Or.inl member))
        rw [marked p edge.1]
        exact edge.2.1
    · rw [marked r member] at suspected
      rw [marked p inside] at pointer
      rcases done.plain r (Or.inl member) with rfl | plain
      · exact done.rootFree p inside pointer
      · exact plain suspected
  refine ⟨?_, ?_, ?_, ?_, ?_, ?_, ?_, ?_, ?_, ?_, ?_⟩
  · have exact := done.exact
    rw [pendingPointers_nil, zero_add] at exact
    rw [pendingPointers_congr fun o member => by rw [rootSame o member]]
    refine exact.congr (fun o member => ?_) fun o member => ?_
    · rw [holderSame o member]
    · rw [holderSame o member]
  · have inner := deferred.evolves.trans done.evolves fun o member => by
      rw [List.mem_singleton.mp member, List.mem_singleton]
      exact startOf root (Or.inl rfl)
    refine inner.trans (.setStates .waitingForGc (fun o member => (done.released o member).1) value) fun o member => ?_
    rw [List.mem_singleton]
    exact startOf o (releasedOrigin o member)
  · intro o member
    rw [holderSame o member]
    exact done.live o member
  · exact (deferred.waiting.congr fun o member => (inTree o member).2).union batchTree
  · rintro o (member | released)
    · obtain ⟨outside, unstacked⟩ := deferred.apart o member
      refine ⟨fun holder => outside (done.evolves.shrink holder), fun stacked => ?_⟩
      rcases done.rootOrigin o stacked with old | holder
      · exact unstacked (List.mem_cons_of_mem _ old)
      · exact outside holder
    · exact ⟨(done.released o released).1, fun stacked => (done.stacked o stacked).2.1 released⟩
  · exact done.nodup
  · intro o member
    obtain ⟨outside, _, live, zero⟩ := done.stacked o member
    rw [rootSame o member]
    exact ⟨outside, live, zero, done.suspected o member⟩
  · rintro o ((member | released) | stacked)
    · exact deferred.origin o (Or.inl member)
    · exact startOf o (releasedOrigin o released)
    · rcases done.rootOrigin o stacked with old | holder
      · exact deferred.origin o (Or.inr (List.mem_cons_of_mem _ old))
      · exact startOf o (Or.inr holder)
  · intro o inStart outside'
    by_cases holder : o ∈ holders
    · rcases done.gone o holder outside' with released | none | stacked
      · exact Or.inl (Or.inr released)
      · exact absurd none List.not_mem_nil
      · exact Or.inr stacked
    · rcases deferred.gone o inStart holder with member | stacked
      · exact Or.inl (Or.inl member)
      · rcases List.mem_cons.mp stacked with rfl | old
        · exact Or.inl (Or.inr rootReleased)
        · exact Or.inr (done.keptRoots o old)
  · rcases deferred.objectIn with member | stacked
    · exact Or.inl (Or.inl member)
    · rcases List.mem_cons.mp stacked with rfl | old
      · exact Or.inl (Or.inr rootReleased)
      · exact Or.inr (done.keptRoots object old)
  · have := done.budget
    rw [List.length_nil] at this
    omega

/-- `decrement_reference_count_waiting_gc_object` returns, for an object whose
last reference is gone, and hands a set of objects to the collector. -/
theorem returns_decrementWaiting {holders : Finset Address} {h : Heap} {object : Address} {refs : Multiset Address}
    (exact : Exact holders h ((h object).pointers + refs)) (live : ∀ o ∈ holders, (h o).state = .live)
    (outside : object ∉ holders) (state : (h object).state = .live) (zero : (h object).count = 0)
    (suspected : (h object).Suspected) :
    ∃ h', Returns (fun fuel => decrementReferenceCountWaitingGcObject fuel h object) h' ∧
      ∃ holders' tree left, Deferred holders h object refs left holders' tree [] h' := by
  have start : Deferred holders h object refs (holders.card + 1) holders ∅ [object] h :=
    { exact := by rwa [pendingPointers_cons, pendingPointers_nil, add_zero], evolves := .refl .., live := live,
      waiting := .empty h, apart := fun _ member => member.elim, nodup := List.nodup_singleton _,
      stacked := fun o member => by
        rw [List.mem_singleton.mp member]
        exact ⟨outside, state, zero, suspected⟩
      origin := fun o member => Or.inl (member.elim False.elim List.mem_singleton.mp),
      gone := fun o member notHolder => absurd member notHolder, objectIn := Or.inr List.mem_cons_self,
      budget := le_rfl }
  refine returns_whileTrue (fun left (loop : Address × Heap × List Address) =>
    ∃ holders' tree, Deferred holders h object refs left holders' tree (loop.1 :: loop.2.2) loop.2.1) ?_ ⟨_, _, start⟩
  rintro left ⟨root, g, roots⟩ ⟨holders', tree, deferred⟩
  obtain ⟨s, run, holders'', less, smaller, done⟩ := returns_waitingInner
    (s := { heap := g, releaseObjects := [], checkRoots := roots, checkObjects := [] }) deferred.idle
  have marked := deferred.batch done fun o => by
    simpa only [List.mem_reverse] using foldl_setState .waitingForGc s.releaseObjects.reverse s.heap o
  generalize mark : s.releaseObjects.reverse.foldl (fun h o => h.modify o (·.setState .waitingForGc)) s.heap = g' at marked
  cases stack : s.checkRoots with
  | nil =>
    rw [stack] at marked
    exact ⟨.done g', run.bind (.of_eq (fun _ => by simp only [stack, mark])), holders'', _, less, marked⟩
  | cons top rest =>
    rw [stack] at marked
    exact ⟨.again (top, g', rest), run.bind (.of_eq (fun _ => by simp only [stack, mark])), less, smaller, holders'', _, marked⟩

end CatLa
