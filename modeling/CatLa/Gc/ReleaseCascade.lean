import CatLa.Gc.DeferredRelease

namespace CatLa
open FuelLoop Relation

/-- What a release has done to the holders of a heap: those that are gone have
been handed to the collector, or they are dead and were not suspected. -/
structure Released (start holders : Finset Address) (before h : Heap) (refs : Multiset Address) : Prop where
  exact : Exact holders h refs
  evolves : Evolves start holders [] before h
  live : ∀ o ∈ holders, (h o).state = .live
  gone : ∃ tree, WaitingTree h tree ∧ (∀ o ∈ tree, o ∈ start ∧ o ∉ holders) ∧
    ∀ o ∈ start, o ∉ holders → o ∈ tree ∨ (h o).state = .dead ∧ ¬(h o).Suspected

/-- The release loop at any point: `stack` are the released objects still to
be visited, `visiting` is the one whose fields are being released, if any. -/
structure Releasing (start : Finset Address) (before : Heap) (visiting : Option Address) (left : Nat)
    (holders : Finset Address) (tree : Set Address) (stack : List Address) (h : Heap) : Prop where
  evolves : Evolves start holders [] before h
  live : ∀ o ∈ holders, (h o).state = .live
  waiting : WaitingTree h tree
  inTree : ∀ o ∈ tree, o ∈ start ∧ o ∉ holders ∧ o ∉ stack ∧ visiting ≠ some o
  nodup : stack.Nodup
  stacked : ∀ o, o ∈ stack ∨ visiting = some o → o ∉ holders ∧ o ∈ start ∧ ¬(h o).Suspected
  busy : ∀ o, visiting = some o → o ∉ stack
  gone : ∀ o ∈ start, o ∉ holders →
    o ∈ tree ∨ o ∈ stack ∨ visiting = some o ∨ (h o).state = .dead ∧ ¬(h o).Suspected
  budget : holders.card + stack.length ≤ left

/-- Inside the loop over the fields of `current`. -/
structure ReleasingField (start : Finset Address) (before : Heap) (refs : Multiset Address) (left : Nat)
    (current : Address) (object : HeapObject) (i : Nat) (holders : Finset Address) (tree : Set Address)
    (s : ReleaseLoop) : Prop
    extends Releasing start before (some current) left holders tree s.checkObjects s.heap where
  exact : Exact holders s.heap (object.remaining i + (pendingPointers s.heap s.checkObjects + refs))
  same : s.heap current = object

theorem Releasing.visit {start : Finset Address} {before : Heap} {refs : Multiset Address} {left : Nat}
    {holders : Finset Address} {tree : Set Address} {current : Address} {s : ReleaseLoop}
    (releasing : Releasing start before none left holders tree (current :: s.checkObjects) s.heap)
    (exact : Exact holders s.heap (pendingPointers s.heap (current :: s.checkObjects) + refs)) :
    ReleasingField start before refs (left - 1) current (s.heap current) 0 holders tree s where
  evolves := releasing.evolves
  live := releasing.live
  waiting := releasing.waiting
  inTree o member := by
    obtain ⟨inStart, outside, unstacked, _⟩ := releasing.inTree o member
    obtain ⟨different, unstacked⟩ := not_or.mp (List.mem_cons.not.mp unstacked)
    exact ⟨inStart, outside, unstacked, fun here => different (Option.some.inj here).symm⟩
  nodup := (List.nodup_cons.mp releasing.nodup).2
  stacked o member := by
    refine releasing.stacked o (Or.inl (List.mem_cons.mpr ?_))
    exact member.elim Or.inr fun here => Or.inl (Option.some.inj here).symm
  busy o here := by
    rw [← Option.some.inj here]
    exact (List.nodup_cons.mp releasing.nodup).1
  gone o inStart outside := by
    have := releasing.gone o inStart outside
    simp only [List.mem_cons, reduceCtorEq, false_or] at this
    simp only [Option.some.injEq]
    tauto
  budget := by
    have := releasing.budget
    rw [List.length_cons] at this
    omega
  exact := by
    rw [pendingPointers_cons, add_assoc] at exact
    exact exact
  same := rfl

/-- The visit of an object ends: it is dead. -/
theorem ReleasingField.finish {start : Finset Address} {before : Heap} {refs : Multiset Address} {left : Nat}
    {current : Address} {object : HeapObject} {holders : Finset Address} {tree : Set Address} {s : ReleaseLoop}
    (busy : ReleasingField start before refs left current object object.fields.length holders tree s) :
    Releasing start before none left holders tree s.checkObjects (s.heap.modify current (·.setState .dead)) ∧
      Exact holders (s.heap.modify current (·.setState .dead))
        (pendingPointers (s.heap.modify current (·.setState .dead)) s.checkObjects + refs) := by
  obtain ⟨outside, inStart, unsuspected⟩ := busy.stacked current (Or.inr rfl)
  have same (o : Address) (different : o ≠ current) : s.heap.modify current (·.setState .dead) o = s.heap o :=
    s.heap.modify_of_ne _ different
  have apart (o : Address) (member : o ∈ s.checkObjects) : o ≠ current :=
    fun equal => busy.busy current rfl (equal ▸ member)
  refine ⟨?_, ?_⟩
  · refine ⟨?_, ?_, ?_, ?_, busy.nodup, ?_, fun o none => absurd none (by simp), ?_, busy.budget⟩
    · exact busy.evolves.trans (.setState outside .dead) fun o member => Or.inr (List.mem_singleton.mp member ▸ inStart)
    · intro o member
      have different : o ≠ current := fun equal => outside (equal ▸ member)
      rw [same o different]
      exact busy.live o member
    · exact busy.waiting.congr fun o member => same o fun equal => (busy.inTree o member).2.2.2 (congrArg some equal.symm)
    · intro o member
      obtain ⟨inStart, outside, unstacked, _⟩ := busy.inTree o member
      exact ⟨inStart, outside, unstacked, fun none => absurd none (by simp)⟩
    · rintro o (member | none)
      · rw [same o (apart o member)]
        exact busy.stacked o (Or.inl member)
      · exact absurd none (by simp)
    · intro o member notHolder
      by_cases here : o = current
      · subst here
        rw [Heap.modify_self]
        exact Or.inr (Or.inr (Or.inr ⟨rfl, unsuspected⟩))
      · rw [same o here]
        rcases busy.gone o member notHolder with inTree | stacked | visited | dead
        · exact Or.inl inTree
        · exact Or.inr (Or.inl stacked)
        · exact absurd (Option.some.inj visited).symm here
        · exact Or.inr (Or.inr (Or.inr dead))
  · have exact := busy.exact.modify_outside outside (·.setState .dead)
    rw [HeapObject.remaining_end, zero_add] at exact
    rwa [pendingPointers_congr fun o member => by rw [same o (apart o member)]]

/-- A reference that is not the last one, or whose object is pushed. -/
theorem ReleasingField.dropped {start : Finset Address} {before : Heap} {refs : Multiset Address} {left : Nat}
    {current : Address} {object : HeapObject} {i : Nat} {holders holders' : Finset Address} {tree : Set Address}
    {s : ReleaseLoop} (busy : ReleasingField start before refs left current object i holders tree s) {w : Address}
    {fresh : List Address} (holder : w ∈ holders) (positive : (s.heap w).count ≠ 0)
    (leaves : ∀ o, o ∈ holders' ↔ o ∈ holders ∧ o ∉ fresh) (only : ∀ o ∈ fresh, o = w) (distinct : fresh.Nodup)
    (unsuspected : w ∈ fresh → ¬(s.heap w).Suspected)
    (exact : Exact holders' (s.heap.modify w .fetchSub)
      (object.remaining (i + 1) + (pendingPointers s.heap (fresh ++ s.checkObjects) + refs))) :
    ReleasingField start before refs left current object (i + 1) holders' tree
      { heap := s.heap.modify w .fetchSub, checkObjects := fresh ++ s.checkObjects } := by
  have shrink : holders' ⊆ holders := fun o member => ((leaves o).mp member).1
  have evolves := Evolves.fetchSub holder positive shrink
  have old (o : Address) (outside : o ∉ holders) : s.heap.modify w .fetchSub o = s.heap o :=
    evolves.settled o outside List.not_mem_nil
  have freshHolder (o : Address) (member : o ∈ fresh) : o ∈ holders := only o member ▸ holder
  have currentOutside := (busy.stacked current (Or.inr rfl)).1
  have size : holders'.card + fresh.length = holders.card := by
    have difference : holders' = holders \ fresh.toFinset := by
      ext o
      simp [leaves o]
    have inside : fresh.toFinset ⊆ holders := fun o member => freshHolder o (List.mem_toFinset.mp member)
    rw [difference, ← List.toFinset_card_of_nodup distinct]
    exact Finset.card_sdiff_add_card_eq_card inside
  refine { evolves := busy.evolves.trans evolves fun o member => absurd member List.not_mem_nil, live := ?_,
           waiting := busy.waiting.congr fun o member => old o (busy.inTree o member).2.1, inTree := ?_, nodup := ?_,
           stacked := ?_, busy := ?_, gone := ?_, budget := ?_, exact := ?_, same := ?_ }
  · intro o member
    dsimp only
    rw [(evolves.kept o member).1]
    exact busy.live o (shrink member)
  · intro o member
    obtain ⟨inStart, outside, unstacked, idle⟩ := busy.inTree o member
    refine ⟨inStart, fun again => outside (shrink again), fun stacked => ?_, idle⟩
    exact (List.mem_append.mp stacked).elim (fun here => outside (freshHolder o here)) unstacked
  · refine List.nodup_append.mpr ⟨distinct, busy.nodup, ?_⟩
    rintro o member p stacked rfl
    exact (busy.stacked o (Or.inl stacked)).1 (freshHolder o member)
  · intro o member
    have cases : o ∈ fresh ∨ o ∈ s.checkObjects ∨ some current = some o := by
      rw [List.mem_append, or_assoc] at member
      exact member
    rcases cases with here | earlier
    · obtain rfl := only o here
      refine ⟨fun again => ((leaves o).mp again).2 here, busy.evolves.shrink holder, ?_⟩
      rw [evolves.suspected_iff]
      exact unsuspected here
    · obtain ⟨outside, inStart, notSuspected⟩ := busy.stacked o earlier
      dsimp only
      rw [old o outside]
      exact ⟨fun again => outside (shrink again), inStart, notSuspected⟩
  · intro o here stacked
    rcases List.mem_append.mp stacked with pushed | earlier
    · exact (busy.stacked o (Or.inr here)).1 (freshHolder o pushed)
    · exact busy.busy o here earlier
  · intro o inStart outside
    by_cases member : o ∈ holders
    · have here : o ∈ fresh := by
        by_contra notFresh
        exact outside ((leaves o).mpr ⟨member, notFresh⟩)
      exact Or.inr (Or.inl (List.mem_append_left _ here))
    · dsimp only
      rw [old o member]
      exact (busy.gone o inStart member).imp_right (Or.imp_left (List.mem_append_right _))
  · have := busy.budget
    rw [List.length_append]
    omega
  · dsimp only
    rwa [pendingPointers_congr fun o member => ?_]
    rcases List.mem_append.mp member with pushed | earlier
    · rw [only o pushed, Heap.modify_self]
      rfl
    · rw [old o (busy.stacked o (Or.inl earlier)).1]
  · dsimp only
    rw [old current currentOutside]
    exact busy.same

/-- The last reference to a suspected object: its release is deferred. -/
theorem ReleasingField.deferred {start : Finset Address} {before : Heap} {refs : Multiset Address} {left : Nat}
    {current : Address} {object : HeapObject} {i : Nat} {holders : Finset Address} {tree : Set Address}
    {s : ReleaseLoop} (busy : ReleasingField start before refs left current object i holders tree s) {w : Address}
    (holder : w ∈ holders) (last : (s.heap w).count = 1) (suspected : (s.heap w).Suspected)
    (exact : Exact (holders.erase w) (s.heap.modify w .fetchSub)
      ((s.heap w).pointers + (object.remaining (i + 1) + (pendingPointers s.heap s.checkObjects + refs)))) :
    ∃ h', Returns (fun fuel => decrementReferenceCountWaitingGcObject fuel (s.heap.modify w .fetchSub) w) h' ∧
      ∃ holders' tree', ReleasingField start before refs left current object (i + 1) holders' tree'
        { s with heap := h' } := by
  have positive : (s.heap w).count ≠ 0 := by omega
  have evolves := Evolves.fetchSub holder positive (Finset.erase_subset w holders)
  have atW : s.heap.modify w .fetchSub w = (s.heap w).fetchSub := Heap.modify_self ..
  have zero : (s.heap.modify w .fetchSub w).count = 0 := by
    rw [atW, HeapObject.fetchSub, last]
    rfl
  have live : ∀ o ∈ holders.erase w, (s.heap.modify w .fetchSub o).state = .live := by
    intro o member
    rw [(evolves.kept o member).1]
    exact busy.live o (Finset.mem_of_mem_erase member)
  have exactW : Exact (holders.erase w) (s.heap.modify w .fetchSub)
      ((s.heap.modify w .fetchSub w).pointers +
        (object.remaining (i + 1) + (pendingPointers s.heap s.checkObjects + refs))) := by
    rw [atW]
    exact exact
  obtain ⟨h', run, holders', added, less, deferred⟩ := returns_decrementWaiting exactW live
    (Finset.notMem_erase w holders) (by rw [atW]; exact busy.live w holder) zero
    ((evolves.suspected_iff w).mpr suspected)
  refine ⟨h', run, holders', tree ∪ added, ?_⟩
  have both : Evolves holders holders' [] s.heap h' := evolves.trans deferred.evolves fun o member =>
    Or.inr (List.mem_singleton.mp member ▸ holder)
  have old (o : Address) (outside : o ∉ holders) : h' o = s.heap o := both.settled o outside List.not_mem_nil
  have addedHolder (o : Address) (member : o ∈ added) : o ∈ holders := by
    rcases deferred.origin o (Or.inl member) with rfl | inside
    · exact holder
    · exact Finset.mem_of_mem_erase inside
  refine { evolves := busy.evolves.trans both fun o member => absurd member List.not_mem_nil, live := deferred.live,
           waiting := (busy.waiting.congr fun o member => old o (busy.inTree o member).2.1).union deferred.waiting,
           inTree := ?_, nodup := busy.nodup, stacked := ?_, busy := busy.busy, gone := ?_, budget := ?_, exact := ?_,
           same := ?_ }
  · rintro o (member | member)
    · obtain ⟨inStart, outside, unstacked, idle⟩ := busy.inTree o member
      exact ⟨inStart, fun again => outside (both.shrink again), unstacked, idle⟩
    · have inside := addedHolder o member
      exact ⟨busy.evolves.shrink inside, (deferred.apart o member).1,
        fun stacked => (busy.stacked o (Or.inl stacked)).1 inside, fun here => (busy.stacked o (Or.inr here)).1 inside⟩
  · intro o member
    obtain ⟨outside, inStart, unsuspected⟩ := busy.stacked o member
    dsimp only
    rw [old o outside]
    exact ⟨fun again => outside (both.shrink again), inStart, unsuspected⟩
  · intro o inStart outside
    by_cases member : o ∈ holders
    · by_cases here : o = w
      · subst here
        exact Or.inl (Or.inr (deferred.objectIn.resolve_right List.not_mem_nil))
      · have inAdded := deferred.gone o (Finset.mem_erase.mpr ⟨here, member⟩) outside
        exact Or.inl (Or.inr (inAdded.resolve_right List.not_mem_nil))
    · dsimp only
      rw [old o member]
      exact (busy.gone o inStart member).imp_left Or.inl
  · have := busy.budget
    have := Finset.card_le_card both.shrink
    dsimp only
    omega
  · have exact := deferred.exact
    rw [pendingPointers_nil, zero_add] at exact
    dsimp only
    rwa [pendingPointers_congr fun o member => by rw [old o (busy.stacked o (Or.inl member)).1]]
  · dsimp only
    rw [old current (busy.stacked current (Or.inr rfl)).1]
    exact busy.same

/-- One field of a released object. -/
theorem ReleasingField.field {start : Finset Address} {before : Heap} {refs : Multiset Address} {left : Nat}
    {current : Address} {object : HeapObject} {i : Nat} {holders : Finset Address} {tree : Set Address}
    {s : ReleaseLoop} (busy : ReleasingField start before refs left current object i holders tree s) :
    ∃ s', Returns (fun fuel => releaseField fuel current s i) s' ∧
      ∃ holders' tree', ReleasingField start before refs left current object (i + 1) holders' tree' s' := by
  by_cases null : (s.heap current).field i = 0
  · refine ⟨s, .of_eq (fun _ => by rw [releaseField, if_pos null]), holders, tree, { busy with exact := ?_ }⟩
    rw [busy.same] at null
    rw [← HeapObject.remaining_null null]
    exact busy.exact
  have exact := busy.exact
  rw [HeapObject.remaining_step (busy.same ▸ null), ← busy.same, add_assoc] at exact
  generalize atField : (s.heap current).field i = w at null exact
  have holder : w ∈ holders := exact.refs_mem w (Multiset.mem_add.mpr (Or.inl (Multiset.mem_singleton_self w)))
  have positive : (s.heap w).count ≠ 0 := exact.positive w holder
  rw [busy.same] at exact
  by_cases last : (s.heap w).count = 1
  · have dropped := exact.fetchSub_last last
    have evolves := Evolves.fetchSub holder positive (Finset.erase_subset w holders)
    by_cases suspected : (s.heap.modify w .fetchSub w).Suspected
    · obtain ⟨h', run, rest⟩ := busy.deferred holder last ((evolves.suspected_iff w).mp suspected) dropped
      obtain ⟨n, enough⟩ := run
      refine ⟨{ s with heap := h' }, ⟨n, fun fuel some => ?_⟩, rest⟩
      simp only [releaseField, atField, if_neg null, if_pos last, if_pos suspected, enough fuel some, Option.map_some]
    · refine ⟨{ heap := s.heap.modify w .fetchSub, checkObjects := [w] ++ s.checkObjects }, .of_eq (fun _ => ?_),
        holders.erase w, tree, busy.dropped holder positive (by simp [and_comm]) (by simp) (by simp)
          (fun _ => fun old => suspected ((evolves.suspected_iff w).mpr old)) ?_⟩
      · simp only [releaseField, atField, if_neg null, if_pos last, if_neg suspected, List.singleton_append]
      · rw [List.singleton_append, pendingPointers_cons]
        convert dropped using 1
        abel
  · refine ⟨{ heap := s.heap.modify w .fetchSub, checkObjects := [] ++ s.checkObjects }, .of_eq (fun _ => ?_),
      holders, tree, busy.dropped holder positive (by simp) (by simp) (by simp) (by simp) ?_⟩
    · simp only [releaseField, atField, if_neg null, if_neg last, List.nil_append]
    · exact exact.fetchSub_shared last

/-- The release loop of `decrement_reference_count` returns. -/
theorem returns_releaseLoop {start : Finset Address} {before : Heap} {refs : Multiset Address} {left : Nat}
    {holders : Finset Address} {tree : Set Address} {object : Address} {h : Heap}
    (releasing : Releasing start before none left holders tree [object] h)
    (exact : Exact holders h ((h object).pointers + refs)) :
    ∃ h', Returns (fun fuel => whileTrue (releaseBody fuel) fuel (object, { heap := h, checkObjects := [] })) h' ∧
      ∃ holders', Released start holders' before h' refs := by
  refine returns_whileTrue (fun left (loop : Address × ReleaseLoop) => ∃ holders tree,
      Releasing start before none left holders tree (loop.1 :: loop.2.checkObjects) loop.2.heap ∧
      Exact holders loop.2.heap (pendingPointers loop.2.heap (loop.1 :: loop.2.checkObjects) + refs))
    ?_ ⟨holders, tree, releasing, by rwa [pendingPointers_cons, pendingPointers_nil, add_zero]⟩
  rintro left ⟨current, s⟩ ⟨holders, tree, releasing, exact⟩
  have positive := releasing.budget
  rw [List.length_cons] at positive
  obtain ⟨s', run, holders', tree', busy⟩ := returns_forRange (n := (s.heap current).fields.length)
    (fun i s' => ∃ holders tree, ReleasingField start before refs (left - 1) current (s.heap current) i holders tree s')
    (fun i _ s' busy => by
      obtain ⟨holders, tree, busy⟩ := busy
      exact busy.field) s ⟨holders, tree, releasing.visit exact⟩
  obtain ⟨idle, exact'⟩ := busy.finish
  cases stack : s'.checkObjects with
  | nil =>
    rw [stack] at idle exact'
    refine ⟨.done (s'.heap.modify current (·.setState .dead)), run.bind (.of_eq (fun _ => by simp only [stack])), holders', ?_⟩
    rw [pendingPointers_nil, zero_add] at exact'
    refine { exact := exact', evolves := idle.evolves, live := idle.live, gone := ⟨tree', idle.waiting, ?_, ?_⟩ }
    · exact fun o member => ⟨(idle.inTree o member).1, (idle.inTree o member).2.1⟩
    · intro o inStart outside
      rcases idle.gone o inStart outside with member | none | none | dead
      · exact Or.inl member
      · exact absurd none List.not_mem_nil
      · exact absurd none (by simp)
      · exact Or.inr dead
  | cons top rest =>
    rw [stack] at idle exact'
    exact ⟨.again (top, { heap := s'.heap.modify current (·.setState .dead), checkObjects := rest }),
      run.bind (.of_eq (fun _ => by simp only [stack])), left - 1, by omega, holders', tree', idle, exact'⟩

/-- `decrement_reference_count` of an object that a reference is held on
returns, and the counts of the objects that stay are exact without it. -/
theorem returns_decrement {holders : Finset Address} {h : Heap} {x : Address} {refs : Multiset Address}
    (exact : Exact holders h ({x} + refs)) (live : ∀ o ∈ holders, (h o).state = .live) :
    ∃ h', Returns (fun fuel => decrementReferenceCount fuel h x) h' ∧
      ∃ holders', Released holders holders' h h' refs := by
  have holder : x ∈ holders := exact.refs_mem x (Multiset.mem_add.mpr (Or.inl (Multiset.mem_singleton_self x)))
  have positive : (h x).count ≠ 0 := exact.positive x holder
  have atX : h.modify x .fetchSub x = (h x).fetchSub := Heap.modify_self ..
  by_cases last : (h x).count = 1
  · have dropped := exact.fetchSub_last last
    have evolves := Evolves.fetchSub holder positive (Finset.erase_subset x holders)
    have liveAfter : ∀ o ∈ holders.erase x, (h.modify x .fetchSub o).state = .live := by
      intro o member
      rw [(evolves.kept o member).1]
      exact live o (Finset.mem_of_mem_erase member)
    have pointersX : (h.modify x .fetchSub x).pointers = (h x).pointers := by
      rw [atX]
      rfl
    by_cases suspected : (h.modify x .fetchSub x).Suspected
    · have zero : (h.modify x .fetchSub x).count = 0 := by
        rw [atX, HeapObject.fetchSub, last]
        rfl
      rw [← pointersX] at dropped
      obtain ⟨h', run, holders', tree, left, deferred⟩ := returns_decrementWaiting dropped liveAfter
        (Finset.notMem_erase x holders) (by rw [atX]; exact live x holder) zero suspected
      refine ⟨h', ?_, holders', ?_⟩
      · refine run.congr fun fuel => ?_
        simp only [decrementReferenceCount, if_pos last, if_pos suspected]
      · have both : Evolves holders holders' [] h h' := evolves.trans deferred.evolves fun o member =>
          Or.inr (List.mem_singleton.mp member ▸ holder)
        have exact' := deferred.exact
        rw [pendingPointers_nil, zero_add] at exact'
        refine { exact := exact', evolves := both, live := deferred.live, gone := ⟨tree, deferred.waiting, ?_, ?_⟩ }
        · intro o member
          refine ⟨?_, (deferred.apart o member).1⟩
          rcases deferred.origin o (Or.inl member) with rfl | inside
          · exact holder
          · exact Finset.mem_of_mem_erase inside
        · intro o member outside
          by_cases here : o = x
          · subst here
            exact Or.inl (deferred.objectIn.resolve_right List.not_mem_nil)
          · exact Or.inl ((deferred.gone o (Finset.mem_erase.mpr ⟨here, member⟩) outside).resolve_right List.not_mem_nil)
    · have releasing : Releasing holders h none (holders.card + 1) (holders.erase x) ∅ [x] (h.modify x .fetchSub) :=
        { evolves := evolves, live := liveAfter, waiting := .empty _, inTree := fun _ member => member.elim,
          nodup := List.nodup_singleton x,
          stacked := fun o member => by
            obtain rfl : o = x := by simpa using member
            exact ⟨Finset.notMem_erase o holders, holder, suspected⟩
          busy := fun o none => absurd none (by simp),
          gone := fun o member outside => by
            have here : o = x := by
              by_contra different
              exact outside (Finset.mem_erase.mpr ⟨different, member⟩)
            exact Or.inr (Or.inl (List.mem_singleton.mpr here))
          budget := by
            have := Finset.card_le_card (Finset.erase_subset x holders)
            simp only [List.length_singleton]
            omega }
      rw [← pointersX] at dropped
      obtain ⟨h', run, holders', released⟩ := returns_releaseLoop releasing dropped
      refine ⟨h', run.congr fun fuel => ?_, holders', released⟩
      simp only [decrementReferenceCount, if_pos last, if_neg suspected]
  · have evolves := Evolves.fetchSub holder positive (Finset.Subset.refl holders)
    refine ⟨h.modify x .fetchSub, .of_eq (fun _ => by simp only [decrementReferenceCount, if_neg last]), holders, ?_⟩
    refine { exact := exact.fetchSub_shared last, evolves := evolves, live := fun o member => ?_,
             gone := ⟨∅, .empty _, fun _ member => member.elim, fun o member outside => absurd member outside⟩ }
    rw [(evolves.kept o member).1]
    exact live o member

end CatLa
