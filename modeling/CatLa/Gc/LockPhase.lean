import CatLa.Foundations.GraphSearch
import CatLa.Gc.CycleCollector

namespace CatLa
open FuelLoop GraphSearch Relation

/-- The pointers of every object of a heap. -/
abbrev Heap.pointers (h : Heap) : Address → Multiset Address := fun o => (h o).pointers

/-- A loop over the words of an object that skips the null ones; the
invariant speaks about the pointers still to come. -/
theorem forPointers {σ : Type} (body : σ → Address → σ) (Inv : Multiset Address → σ → Prop)
    (null : ∀ s, body s 0 = s) (pass : ∀ w rest s, w ≠ 0 → Inv ({w} + rest) s → Inv rest (body s w))
    {o : HeapObject} {s : σ} (start : Inv o.pointers s) : Inv 0 (o.fields.foldl body s) := by
  refine forEach (fun words s => Inv ↑(words.filter (· ≠ 0)) s) (fun w words s inv => ?_) s start
  by_cases zero : w = 0
  · rw [zero, null]
    rwa [List.filter_cons_of_neg (by simpa using zero)] at inv
  · rw [List.filter_cons_of_pos (by simpa using zero)] at inv
    exact pass w _ s zero inv

/-- The lock phase while it follows the fields of `current`. -/
structure LockSearch (h : Heap) (root : Address) (visited : Finset Address) (current : Address)
    (rest : Multiset Address) (s : LockLoop) : Prop
    extends Search h.pointers root (fun x => s.marking.colorMap x ≠ none) visited s.marking.checkObjects current rest where
  red : ∀ x c, s.marking.colorMap x = some c → c = .red
  cycle_sound : s.isCyclicRoot = true → ∃ p ∈ visited, root ∈ h.pointers p
  cycle_complete : ∀ p ∈ visited, root ∈ h.pointers p → s.isCyclicRoot = true ∨ p = current ∧ root ∈ rest

theorem lockField_frame (root : Address) (s : LockLoop) (w : Address) :
    (lockField root s w).heap = s.heap ∧ (lockField root s w).cycleObjects = s.cycleObjects := by
  unfold lockField
  split
  · exact ⟨rfl, rfl⟩
  · split
    · exact ⟨rfl, rfl⟩
    · split <;> exact ⟨rfl, rfl⟩

theorem LockSearch.field {h : Heap} {root : Address} {visited : Finset Address} {current w : Address}
    {rest : Multiset Address} {s : LockLoop} (search : LockSearch h root visited current ({w} + rest) s)
    (nonnull : w ≠ 0) : LockSearch h root visited current rest (lockField root s w) := by
  have rootMarked : s.marking.colorMap root ≠ none := (search.seen_iff root).mpr (Or.inl search.root_mem)
  have pending (p : Address) (here : p = current ∧ root ∈ {w} + rest) : root = w ∨ p = current ∧ root ∈ rest := by
    rcases Multiset.mem_add.mp here.2 with atW | later
    · exact Or.inl (Multiset.mem_singleton.mp atW)
    · exact Or.inr ⟨here.1, later⟩
  rw [lockField, if_neg nonnull]
  cases mark : s.marking.colorMap w with
  | none =>
    have different (x : Address) (marked : s.marking.colorMap x ≠ none) : x ≠ w := fun equal => marked (equal ▸ mark)
    refine { search.toSearch.push (not_not.mpr mark) ?_ with red := ?_, cycle_sound := search.cycle_sound, cycle_complete := ?_ }
    · intro x
      by_cases here : x = w
      · subst here
        simp [Marking.push, Marking.paint]
      · simp [Marking.push, Marking.paint, here]
    · intro x c atX
      by_cases here : x = w
      · subst here
        simp only [Marking.push, Marking.paint, Function.update_self, Option.some.injEq] at atX
        exact atX.symm
      · simp only [Marking.push, Marking.paint, Function.update_of_ne here] at atX
        exact search.red x c atX
    · intro p member pointed
      rcases search.cycle_complete p member pointed with cyclic | here
      · exact Or.inl cyclic
      · exact Or.inr ((pending p here).resolve_left (different root rootMarked))
  | some c =>
    have marked : s.marking.colorMap w ≠ none := by simp [mark]
    by_cases atRoot : w = root
    · subst atRoot
      dsimp only
      rw [if_pos rfl]
      exact { search.toSearch.known marked with
        red := search.red
        cycle_sound := fun _ => ⟨current, search.current_mem, search.toSearch.pointed⟩
        cycle_complete := fun _ _ _ => Or.inl rfl }
    · dsimp only
      rw [if_neg atRoot]
      refine { search.toSearch.known marked with red := search.red, cycle_sound := search.cycle_sound, cycle_complete := ?_ }
      intro p member pointed
      rcases search.cycle_complete p member pointed with cyclic | here
      · exact Or.inl cyclic
      · exact Or.inr ((pending p here).resolve_left fun equal => atRoot equal.symm)

/-- The heap while the objects of a list are locked. -/
def LockedHeap (h : Heap) (objects : List Address) (locked : Heap) : Prop :=
  ∀ o, locked o = if o ∈ objects then (h o).setLock true else h o

theorem LockedHeap.pointers {h locked : Heap} {objects : List Address} (held : LockedHeap h objects locked) :
    locked.pointers = h.pointers := by
  funext o
  show (locked o).pointers = (h o).pointers
  rw [held o]
  split <;> rfl

theorem LockedHeap.cons {h locked : Heap} {objects : List Address} (held : LockedHeap h objects locked) (o : Address) :
    LockedHeap h (o :: objects) (locked.modify o (·.setLock true)) := by
  intro p
  rw [Heap.modify_apply, held p]
  by_cases here : p = o
  · subst here
    by_cases again : p ∈ objects <;> simp [again, HeapObject.setLock]
  · simp [here]

/-- What the lock phase leaves: everything below the root is locked, and it is
known whether the root is on a cycle. -/
structure LockedRegion (h : Heap) (root : Address) (l : LockLoop) : Prop where
  heap : LockedHeap h l.cycleObjects l.heap
  objects : ∀ o, o ∈ l.cycleObjects ↔ Reach h.pointers root o
  cyclic : l.isCyclicRoot = true ↔ TransGen (fun p q => q ∈ h.pointers p) root root
  stack : l.marking.checkObjects = []
  red : ∀ o, l.marking.color o = .red

/-- The lock phase before `current` is locked. -/
structure LockPass (h : Heap) (root : Address) (region : Finset Address) (left : Nat) (current : Address)
    (s : LockLoop) : Prop where
  heap : LockedHeap h s.cycleObjects s.heap
  search : LockSearch h root (insert current s.cycleObjects.toFinset) current (h.pointers current) s
  fresh : current ∉ s.cycleObjects
  budget : region.card ≤ s.cycleObjects.length + left
  nodup : s.cycleObjects.Nodup

/-- The lock phase returns, for a finite region of unlocked objects. -/
theorem returns_lockPhase {h : Heap} {root : Address} {region : Finset Address}
    (whole : ∀ x, Reach h.pointers root x → x ∈ region) (unlocked : ∀ x, Reach h.pointers root x → (h x).lockFlag = false)
    (start : LockLoop) (heap : start.heap = h) (cycleObjects : start.cycleObjects = [])
    (notCyclic : start.isCyclicRoot = false) (checkObjects : start.marking.checkObjects = [])
    (colors : start.marking.colorMap = Function.update (fun _ => none) root (some .red)) :
    ∃ l, Returns (fun fuel => whileTrue (lockBody root) fuel (root, start)) l ∧ LockedRegion h root l := by
  have initial : LockPass h root region region.card root start := by
    have search : Search h.pointers root (fun x => start.marking.colorMap x ≠ none) {root} [] root (h.pointers root) := by
      refine .start h.pointers fun x => ?_
      by_cases here : x = root <;> simp [colors, here]
    rw [← checkObjects] at search
    refine ⟨fun o => by simp [heap, cycleObjects], ?_, by simp [cycleObjects], by simp, by simp [cycleObjects]⟩
    rw [cycleObjects, List.toFinset_nil, insert_empty_eq]
    refine { search with red := ?_, cycle_sound := fun cyclic => ?_, cycle_complete := fun p member pointed => ?_ }
    · intro x c atX
      by_cases here : x = root
      · rw [colors, here, Function.update_self] at atX
        exact (Option.some.inj atX).symm
      · rw [colors, Function.update_of_ne here] at atX
        exact absurd atX (by simp)
    · rw [notCyclic] at cyclic
      exact absurd cyclic (by simp)
    · obtain rfl := Finset.mem_singleton.mp member
      exact Or.inr ⟨rfl, pointed⟩
  refine returns_whileTrue (fun left (loop : Address × LockLoop) => LockPass h root region left loop.1 loop.2) ?_ initial
  rintro left ⟨current, s⟩ pass
  dsimp only at pass
  have reached : Reach h.pointers root current :=
    pass.search.sound current ((pass.search.seen_iff current).mpr (Or.inl (Finset.mem_insert_self _ _)))
  have free : (s.heap current).lockFlag = false := by
    rw [pass.heap current, if_neg pass.fresh]
    exact unlocked current reached
  have held := pass.heap.cons current
  have atCurrent : (s.heap.modify current (·.setLock true) current).pointers = h.pointers current :=
    congrFun held.pointers current
  -- the loop over the fields of `current`
  have loop := forPointers (o := s.heap.modify current (·.setLock true) current) (lockField root)
    (fun rest s' => s'.heap = s.heap.modify current (·.setLock true) ∧ s'.cycleObjects = current :: s.cycleObjects ∧
      LockSearch h root (insert current s.cycleObjects.toFinset) current rest s')
    (fun s' => if_pos rfl)
    (fun w rest s' nonnull inv => by
      obtain ⟨sameHeap, sameObjects⟩ := lockField_frame root s' w
      exact ⟨sameHeap.trans inv.1, sameObjects.trans inv.2.1, inv.2.2.field nonnull⟩)
    (s := { s with heap := s.heap.modify current (·.setLock true), cycleObjects := current :: s.cycleObjects })
    ⟨rfl, rfl, by rw [atCurrent]; exact { pass.search with }⟩
  generalize run : (s.heap.modify current (·.setLock true) current).fields.foldl (lockField root) _ = s' at loop
  obtain ⟨sameHeap, sameObjects, search⟩ := loop
  have visited : insert current s.cycleObjects.toFinset = s'.cycleObjects.toFinset := by
    rw [sameObjects, List.toFinset_cons]
  have nodup : s'.cycleObjects.Nodup := by
    rw [sameObjects]
    exact List.nodup_cons.mpr ⟨pass.fresh, pass.nodup⟩
  have held' : LockedHeap h s'.cycleObjects s'.heap := by
    rw [sameHeap, sameObjects]
    exact held
  have size := congrArg List.length sameObjects
  rw [List.length_cons] at size
  rw [visited] at search
  have budget := pass.budget
  have bound := search.toSearch.bound whole
  rw [List.toFinset_card_of_nodup nodup] at bound
  cases stack : s'.marking.checkObjects with
  | nil =>
    refine ⟨.done s', .of_eq (fun _ => by simp only [lockBody, free, Bool.false_eq_true, if_false, run, stack]), ?_⟩
    have complete := search.toSearch
    rw [stack] at complete
    have objects (o : Address) : o ∈ s'.cycleObjects ↔ Reach h.pointers root o := by
      rw [← complete.complete o, List.mem_toFinset]
    refine ⟨held', objects, ⟨fun cyclic => ?_, fun cycle => ?_⟩, stack, fun o => ?_⟩
    · obtain ⟨p, member, pointed⟩ := search.cycle_sound cyclic
      exact TransGen.tail' ((complete.complete p).mp member) pointed
    · obtain ⟨p, path, pointed⟩ := TransGen.tail'_iff.mp cycle
      have done := search.cycle_complete p ((complete.complete p).mpr path) pointed
      exact done.resolve_right fun pending => Multiset.notMem_zero root pending.2
    · rw [Marking.color]
      cases atO : s'.marking.colorMap o with
      | none => rfl
      | some c => exact search.red o c atO
  | cons next rest =>
    rw [stack, List.length_cons] at bound
    refine ⟨.again (next, { s' with marking := { s'.marking with checkObjects := rest } }),
      .of_eq (fun _ => by simp only [lockBody, free, Bool.false_eq_true, if_false, run, stack]), left - 1, ?_, ?_⟩
    · omega
    · have further := search.toSearch
      rw [stack] at further
      have fresh : next ∉ s'.cycleObjects := fun member =>
        further.fresh next List.mem_cons_self (List.mem_toFinset.mpr member)
      refine ⟨held', { further.next with red := search.red, cycle_sound := ?_, cycle_complete := ?_ }, fresh,
        by dsimp only; omega, nodup⟩
      · intro cyclic
        obtain ⟨p, member, pointed⟩ := search.cycle_sound cyclic
        exact ⟨p, Finset.mem_insert_of_mem member, pointed⟩
      · intro p member pointed
        rcases Finset.mem_insert.mp member with rfl | before
        · exact Or.inr ⟨rfl, pointed⟩
        · refine (search.cycle_complete p before pointed).imp_right fun pending => ?_
          exact absurd pending.2 (Multiset.notMem_zero root)

end CatLa
