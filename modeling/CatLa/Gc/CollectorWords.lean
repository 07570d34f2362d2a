import CatLa.Gc.FieldWords

namespace CatLa
open FuelLoop

variable {referenceFields : Address → List (BitVec 8)} {objects : Finset Address} {b b' h h' : Heap} {o root current : Address}

/-- The variables with which the lock phase of a root starts. -/
def lockStart (heap : Heap) (root : Address) : LockLoop :=
  { heap := heap
    marking := { colorMap := Function.update (fun _ => none) root (some .red), countMap := fun _ => 0, checkObjects := [] }
    cycleObjects := []
    isCyclicRoot := false }

/-- Two lock phases that agree on the objects. -/
structure LockTwin (referenceFields : Address → List (BitVec 8)) (objects : Finset Address) (b b' : Heap)
    (s t : LockLoop) : Prop where
  heap : Twin referenceFields objects b b' s.heap t.heap
  same : t = { s with heap := t.heap }
  inside : ∀ o, o ∈ s.cycleObjects ∨ o ∈ s.marking.checkObjects → o ∈ objects

namespace Twin

theorem fields (twin : Twin referenceFields objects b b' h h') (member : current ∈ objects) :
    (h' current).fields = (h current).fields ∧ ∀ w ∈ (h current).fields, w ≠ 0 → w ∈ objects :=
  ⟨by rw [twin.same current member], fun _ inside nonnull => twin.word member inside nonnull⟩

theorem setLock (twin : Twin referenceFields objects b b' h h') (inside : o ∈ objects) (locked : Bool) :
    Twin referenceFields objects b b' (h.modify o (·.setLock locked)) (h'.modify o (·.setLock locked)) :=
  twin.modify inside rfl fun _ _ => rfl

theorem unlock {locked : List Address} (twin : Twin referenceFields objects b b' h h') (inside : ∀ o ∈ locked, o ∈ objects) :
    Twin referenceFields objects b b' (unlockObjects locked h) (unlockObjects locked h') :=
  foldl_rel (fun o member _ _ twin => twin.setLock (inside o member) false) twin

end Twin

namespace LockTwin
variable {s t : LockLoop} {w : Address}

theorem field (twin : LockTwin referenceFields objects b b' s t) (word : w ≠ 0 → w ∈ objects) :
    LockTwin referenceFields objects b b' (lockField root s w) (lockField root t w) := by
  obtain ⟨heap, same, inside⟩ := twin
  generalize t.heap = h' at heap same
  subst same
  simp only [lockField]
  split
  · exact ⟨heap, rfl, inside⟩
  · rename_i nonnull
    split
    · refine ⟨heap, rfl, fun o listed => ?_⟩
      simp only [Marking.push, Marking.paint, List.mem_cons] at listed
      rcases listed with cycle | rfl | pending
      · exact inside o (Or.inl cycle)
      · exact word nonnull
      · exact inside o (Or.inr pending)
    · split <;> exact ⟨heap, rfl, inside⟩

/-- The two at the same pass. -/
def At (referenceFields : Address → List (BitVec 8)) (objects : Finset Address) (b b' : Heap) (p q : Address × LockLoop) :
    Prop :=
  p.1 = q.1 ∧ p.1 ∈ objects ∧ LockTwin referenceFields objects b b' p.2 q.2

theorem pass (root : Address) {p q : Address × LockLoop} (at_ : At referenceFields objects b b' p q) :
    Together (At referenceFields objects b b') (LockTwin referenceFields objects b b') (lockBody root p) (lockBody root q) := by
  obtain ⟨current, s⟩ := p
  obtain ⟨_, t⟩ := q
  obtain ⟨rfl, member, heap, same, inside⟩ := at_
  dsimp only at member heap same inside
  generalize t.heap = h' at heap same
  subst same
  simp only [lockBody, heap.same current member]
  split
  · exact .stuck
  have locked := heap.setLock member true
  obtain ⟨fields, words⟩ := locked.fields member
  rw [fields]
  have entered : LockTwin referenceFields objects b b'
      { s with heap := s.heap.modify current (·.setLock true), cycleObjects := current :: s.cycleObjects }
      { s with heap := h'.modify current (·.setLock true), cycleObjects := current :: s.cycleObjects } := by
    refine ⟨locked, rfl, fun o listed => ?_⟩
    simp only [List.mem_cons] at listed
    rcases listed with (rfl | cycle) | pending
    · exact member
    · exact inside o (Or.inl cycle)
    · exact inside o (Or.inr pending)
  have scanned := foldl_rel (R := LockTwin referenceFields objects b b') (f := lockField root) (g := lockField root)
    (fun w inside s t twin => twin.field (words w inside)) entered
  generalize List.foldl (lockField root) _ _ = s' at scanned ⊢
  generalize List.foldl (lockField root) _ _ = t' at scanned ⊢
  obtain ⟨heap, same, inside⟩ := scanned
  generalize t'.heap = g' at heap same
  subst same
  cases stack : s'.marking.checkObjects with
  | nil => exact .done ⟨heap, rfl, inside⟩
  | cons next rest =>
    rw [stack] at inside
    refine .again ⟨rfl, inside next (Or.inr List.mem_cons_self), heap, rfl, fun o listed => inside o ?_⟩
    exact listed.imp_right (List.mem_cons_of_mem next)

theorem start (root : Address) (twin : Twin referenceFields objects b b' h h') :
    LockTwin referenceFields objects b b' (lockStart h root) (lockStart h' root) := by
  refine ⟨twin, rfl, fun o listed => ?_⟩
  simp only [lockStart, or_self] at listed
  exact absurd listed List.not_mem_nil

theorem lockPhase (root : Address) (twin : LockTwin referenceFields objects b b' s t) (member : current ∈ objects) (fuel : Nat) :
    Option.Rel (LockTwin referenceFields objects b b') (whileTrue (lockBody root) fuel (current, s))
      (whileTrue (lockBody root) fuel (current, t)) := by
  refine whileTrue_rel (s := (current, s)) (t := (current, t)) (R := At referenceFields objects b b') (fun p q at_ => ?_)
    ⟨rfl, member, twin⟩ fuel
  exact pass root at_

end LockTwin

/-- The same marking, with objects on its stack. -/
def MarkingTwin (objects : Finset Address) (s t : Marking) : Prop := s = t ∧ ∀ o ∈ s.checkObjects, o ∈ objects

namespace MarkingTwin
variable {s t : Marking} {w : Address}

theorem gray (twin : Twin referenceFields objects b b' h h') (marking : MarkingTwin objects s t) (word : w ≠ 0 → w ∈ objects) :
    MarkingTwin objects (grayField h s w) (grayField h' t w) := by
  obtain ⟨rfl, inside⟩ := marking
  simp only [grayField]
  split
  · exact ⟨rfl, inside⟩
  · rename_i nonnull
    rw [twin.same w (word nonnull)]
    split
    · split <;> exact ⟨rfl, inside⟩
    · refine ⟨rfl, fun o listed => ?_⟩
      rcases List.mem_cons.mp listed with rfl | old
      · exact word nonnull
      · exact inside o old

theorem color (marking : MarkingTwin objects s t) (c : ObjectColor) (word : w ≠ 0 → w ∈ objects) :
    MarkingTwin objects (colorField c s w) (colorField c t w) := by
  obtain ⟨rfl, inside⟩ := marking
  have pushed (nonnull : w ≠ 0) : ∀ o ∈ w :: s.checkObjects, o ∈ objects := fun o listed => by
    rcases List.mem_cons.mp listed with rfl | old
    · exact word nonnull
    · exact inside o old
  refine ⟨rfl, ?_⟩
  simp only [colorField]
  split
  · exact inside
  · rename_i nonnull
    split
    · split
      · split
        · exact pushed nonnull
        · exact inside
      · split
        · exact pushed nonnull
        · exact inside
    · split
      · exact pushed nonnull
      · exact inside
    · exact inside

/-- The two at the same pass. -/
def At (objects : Finset Address) (p q : Address × Marking) : Prop := p.1 = q.1 ∧ p.1 ∈ objects ∧ MarkingTwin objects p.2 q.2

/-- A pass of a marking loop that reads the fields of objects only. -/
theorem pass {m n : Address × Marking → Option (Next (Address × Marking) Marking)} {f g : Address → Marking → Marking}
    (first : ∀ p, m p = match (f p.1 p.2).checkObjects with
      | [] => some (.done (f p.1 p.2))
      | next :: rest => some (.again (next, { f p.1 p.2 with checkObjects := rest })))
    (second : ∀ p, n p = match (g p.1 p.2).checkObjects with
      | [] => some (.done (g p.1 p.2))
      | next :: rest => some (.again (next, { g p.1 p.2 with checkObjects := rest })))
    (scan : ∀ o ∈ objects, ∀ s t, MarkingTwin objects s t → MarkingTwin objects (f o s) (g o t))
    {p q : Address × Marking} (at_ : At objects p q) : Together (At objects) (MarkingTwin objects) (m p) (n q) := by
  obtain ⟨current, s⟩ := p
  obtain ⟨_, t⟩ := q
  obtain ⟨rfl, member, marking⟩ := at_
  obtain ⟨same, inside⟩ := scan current member s t marking
  rw [first, second]
  dsimp only at same inside ⊢
  rw [← same]
  cases stack : (f current s).checkObjects with
  | nil => exact .done ⟨rfl, inside⟩
  | cons next rest =>
    rw [stack] at inside
    exact .again ⟨rfl, inside next List.mem_cons_self, rfl, fun o listed => inside o (List.mem_cons_of_mem _ listed)⟩

theorem grayPass (twin : Twin referenceFields objects b b' h h') {p q : Address × Marking} (at_ : At objects p q) :
    Together (At objects) (MarkingTwin objects) (grayBody h p) (grayBody h' q) := by
  refine pass (m := grayBody h) (n := grayBody h') (f := fun o s => (h o).fields.foldl (grayField h) s)
    (g := fun o s => (h' o).fields.foldl (grayField h') s) (fun p => rfl) (fun p => rfl) (fun o member s t marking => ?_) at_
  obtain ⟨fields, words⟩ := twin.fields member
  rw [fields]
  exact foldl_rel (fun w inside s t marking => marking.gray twin (words w inside)) marking

theorem colorPass (twin : Twin referenceFields objects b b' h h') {p q : Address × Marking} (at_ : At objects p q) :
    Together (At objects) (MarkingTwin objects) (colorBody h p) (colorBody h' q) := by
  refine pass (m := colorBody h) (n := colorBody h') (f := fun o s => (h o).fields.foldl (colorField (s.color o)) s)
    (g := fun o s => (h' o).fields.foldl (colorField (s.color o)) s) (fun p => rfl) (fun p => rfl)
    (fun o member s t marking => ?_) at_
  obtain ⟨fields, words⟩ := twin.fields member
  rw [fields, ← marking.1]
  exact foldl_rel (fun w inside s t marking => marking.color _ (words w inside)) ⟨rfl, marking.2⟩

theorem colorRoot_at (marking : MarkingTwin objects s t) (member : root ∈ objects) :
    At objects (root, colorRoot root s) (root, colorRoot root t) := by
  obtain ⟨rfl, inside⟩ := marking
  have painted : ∀ o ∈ (colorRoot root s).checkObjects, o ∈ objects := by
    unfold colorRoot
    split <;> exact inside
  exact ⟨rfl, member, rfl, painted⟩

theorem markGray (twin : Twin referenceFields objects b b' h h') (marking : MarkingTwin objects s t) (member : root ∈ objects)
    (fuel : Nat) : Option.Rel (MarkingTwin objects) (CatLa.markGray fuel h root s) (CatLa.markGray fuel h' root t) := by
  obtain ⟨rfl, inside⟩ := marking
  simp only [CatLa.markGray, twin.same root member]
  refine whileTrue_rel (R := At objects) (fun p q at_ => ?_) ⟨rfl, member, rfl, inside⟩ fuel
  exact grayPass twin at_

theorem markWhiteOrBlack (twin : Twin referenceFields objects b b' h h') (marking : MarkingTwin objects s t)
    (member : root ∈ objects) (fuel : Nat) :
    Option.Rel (MarkingTwin objects) (CatLa.markWhiteOrBlack fuel h root s) (CatLa.markWhiteOrBlack fuel h' root t) := by
  refine whileTrue_rel (R := At objects) (fun p q at_ => ?_) (marking.colorRoot_at member) fuel
  exact colorPass twin at_

end MarkingTwin

/-- The same search below a root that is on no cycle, through objects. -/
def NonCycleAt (objects : Finset Address) (p q : Address × NonCycleLoop) : Prop :=
  p = q ∧ p.1 ∈ objects ∧ ∀ o, o ∈ p.2.nonCycleObjects ∨ o ∈ p.2.checkObjects → o ∈ objects

theorem NonCycleAt.pass (twin : Twin referenceFields objects b b' h h') {p q : Address × NonCycleLoop}
    (at_ : NonCycleAt objects p q) :
    Together (NonCycleAt objects) (fun r r' => r = r' ∧ ∀ found ∈ r, ∀ o ∈ found, o ∈ objects) (nonCycleBody h p)
      (nonCycleBody h' q) := by
  obtain ⟨current, s⟩ := p
  obtain ⟨rfl, member, inside⟩ := at_
  dsimp only at member inside
  obtain ⟨fields, words⟩ := twin.fields member
  simp only [nonCycleBody, twin.same current member]
  split
  · exact .done ⟨rfl, fun found none => by cases none⟩
  have found : ∀ o ∈ s.nonCycleObjects.insert current, o ∈ objects := fun o listed => by
    rcases List.mem_insert_iff.mp listed with rfl | old
    · exact member
    · exact inside o (Or.inl old)
  have pushed : ∀ o ∈ (h current).fields.foldl (nonCycleField (s.nonCycleObjects.insert current)) s.checkObjects, o ∈ objects := by
    refine (foldl_rel (g := nonCycleField (s.nonCycleObjects.insert current))
      (R := fun (s t : List Address) => s = t ∧ ∀ o ∈ s, o ∈ objects) (fun w word s t related => ?_)
      ⟨rfl, fun o listed => inside o (Or.inr listed)⟩).2
    obtain ⟨rfl, inside⟩ := related
    refine ⟨rfl, fun o listed => ?_⟩
    unfold nonCycleField at listed
    split at listed
    · rename_i followed
      rcases List.mem_cons.mp listed with rfl | old
      · exact words o word followed.1
      · exact inside o old
    · exact inside o listed
  generalize (h current).fields.foldl (nonCycleField (s.nonCycleObjects.insert current)) s.checkObjects = stack at pushed ⊢
  cases stack with
  | nil =>
    refine .done ⟨rfl, fun all here o listed => found o ?_⟩
    rw [Option.mem_some_iff.mp here]
    exact listed
  | cons next rest =>
    exact .again ⟨rfl, pushed next List.mem_cons_self, fun o listed =>
      listed.elim (found o) fun old => pushed o (List.mem_cons_of_mem _ old)⟩

theorem NonCycleAt.start (member : root ∈ objects) :
    NonCycleAt objects (root, { nonCycleObjects := [], checkObjects := [] }) (root, { nonCycleObjects := [], checkObjects := [] }) := by
  refine ⟨rfl, member, fun o listed => ?_⟩
  dsimp only at listed
  rw [or_self] at listed
  exact absurd listed List.not_mem_nil

/-- Two loops over the roots that agree on the objects. -/
structure CollectTwin (referenceFields : Address → List (BitVec 8)) (objects : Finset Address) (b b' : Heap)
    (s t : CollectLoop) : Prop where
  heap : Twin referenceFields objects b b' s.heap t.heap
  same : t = { s with heap := t.heap }
  inside : ∀ o ∈ s.releaseObjects, o ∈ objects

namespace CollectTwin
variable {s t : CollectLoop}

theorem white (twin : CollectTwin referenceFields objects b b' s t) (member : o ∈ objects) (marking : Marking) :
    CollectTwin referenceFields objects b b' (collectWhite marking s o) (collectWhite marking t o) := by
  obtain ⟨heap, same, inside⟩ := twin
  generalize t.heap = h' at heap same
  subst same
  simp only [collectWhite]
  split
  · refine ⟨heap.setState member .waitingForGc, rfl, fun p listed => ?_⟩
    rcases List.mem_insert_iff.mp listed with rfl | old
    · exact member
    · exact inside p old
  · exact ⟨heap, rfl, inside⟩

theorem collected (twin : CollectTwin referenceFields objects b b' s t) (member : o ∈ objects) (fuel : Nat) :
    Option.Rel (CollectTwin referenceFields objects b b') (collectRoot fuel s o) (collectRoot fuel t o) := by
  obtain ⟨heap, same, inside⟩ := twin
  generalize t.heap = h' at heap same
  subst same
  refine bind_rel ((LockTwin.start _ heap).lockPhase _ member fuel) fun l l' locked => ?_
  obtain ⟨heap, same, cycle⟩ := locked
  generalize l'.heap = g' at heap same
  subst same
  dsimp only
  have stack : ∀ o ∈ l.marking.checkObjects, o ∈ objects := fun o listed => cycle o (Or.inr listed)
  have unlocked (h h' : Heap) (twin : Twin referenceFields objects b b' h h') :=
    twin.unlock fun o listed => cycle o (Or.inl listed)
  split
  · refine bind_rel (MarkingTwin.markGray heap ⟨rfl, stack⟩ member fuel) fun m _ twin => ?_
    obtain ⟨same, stack⟩ := twin
    subst same
    refine bind_rel (MarkingTwin.markWhiteOrBlack heap ⟨rfl, stack⟩ member fuel) fun m _ twin => ?_
    obtain ⟨same, _⟩ := twin
    subst same
    have whitened : CollectTwin referenceFields objects b b' (l.cycleObjects.foldl (collectWhite m) { s with heap := l.heap })
        (l.cycleObjects.foldl (collectWhite m) { s with heap := g' }) :=
      foldl_rel (fun o listed _ _ twin => twin.white (cycle o (Or.inl listed)) m) ⟨heap, rfl, inside⟩
    refine .some ⟨unlocked _ _ whitened.heap, ?_, whitened.inside⟩
    rw [whitened.same]
  · have pass (p q : Address × NonCycleLoop) (at_ : NonCycleAt objects p q) := NonCycleAt.pass (unlocked _ _ heap) at_
    refine map_rel (whileTrue_rel pass (.start member) fuel) fun r _ twin => ?_
    obtain ⟨same, found⟩ := twin
    subst same
    cases r with
    | none => exact ⟨unlocked _ _ heap, rfl, inside⟩
    | some list =>
      refine ⟨unlocked _ _ heap, rfl, ?_⟩
      refine (foldl_rel (g := fun released o => released.insert o)
        (R := fun (s t : List Address) => s = t ∧ ∀ o ∈ s, o ∈ objects) (fun o listed s t related => ?_) ⟨rfl, inside⟩).2
      refine ⟨congrArg _ related.1, fun p member => ?_⟩
      rcases List.mem_insert_iff.mp member with rfl | old
      · exact found list rfl p listed
      · exact related.2 p old

end CollectTwin

/-- The variables with which the release phase goes through the fields of an
object. -/
def ReleasePhase.enter (s : ReleasePhase) (object : Address) : ReleasePhase :=
  let s := { s with roots := s.roots.erase object }
  if (s.heap object).Suspected then { s with suspectedObjectList := s.suspectedObjectList.erase object } else s

theorem releaseObject_eq (fuel : Nat) (s : ReleasePhase) : releaseObject fuel s o =
    (List.range ((s.enter o).heap o).fields.length).foldlM (releaseChild fuel o) (s.enter o) := rfl

/-- Two release phases that agree on the objects. -/
structure PhaseTwin (referenceFields : Address → List (BitVec 8)) (objects : Finset Address) (b b' : Heap)
    (s t : ReleasePhase) : Prop where
  heap : Twin referenceFields objects b b' s.heap t.heap
  same : t = { s with heap := t.heap }
  inside : ∀ o, o ∈ s.roots ∨ o ∈ s.suspectedObjectList → o ∈ objects

namespace PhaseTwin
variable {s t : ReleasePhase}

theorem child (twin : PhaseTwin referenceFields objects b b' s t) (member : o ∈ objects) (i fuel : Nat) :
    Option.Rel (PhaseTwin referenceFields objects b b') (releaseChild fuel o s i) (releaseChild fuel o t i) := by
  obtain ⟨heap, same, inside⟩ := twin
  generalize t.heap = h' at heap same
  subst same
  simp only [releaseChild, heap.same o member]
  split
  · exact .some ⟨heap, rfl, inside⟩
  · rename_i nonnull
    have target := (heap.words o member i nonnull).2
    rw [heap.same _ target]
    split
    · exact map_rel (heap.decrement target fuel) fun g g' twin => ⟨twin, rfl, inside⟩
    · exact .some ⟨heap, rfl, inside⟩

theorem entered (twin : PhaseTwin referenceFields objects b b' s t) (member : o ∈ objects) :
    PhaseTwin referenceFields objects b b' (s.enter o) (t.enter o) := by
  obtain ⟨heap, same, inside⟩ := twin
  generalize t.heap = h' at heap same
  subst same
  have roots (p : Address) (listed : p ∈ s.roots.erase o) : p ∈ objects := inside p (Or.inl (List.mem_of_mem_erase listed))
  simp only [ReleasePhase.enter, heap.same o member]
  split
  · exact ⟨heap, rfl, fun p listed => listed.elim (roots p) fun old => inside p (Or.inr (List.mem_of_mem_erase old))⟩
  · exact ⟨heap, rfl, fun p listed => listed.elim (roots p) fun old => inside p (Or.inr old)⟩

theorem children (twin : PhaseTwin referenceFields objects b b' s t) (member : o ∈ objects) (fuel n : Nat) :
    Option.Rel (PhaseTwin referenceFields objects b b') ((List.range n).foldlM (releaseChild fuel o) s)
      ((List.range n).foldlM (releaseChild fuel o) t) :=
  foldlM_rel (fun i _ _ _ twin => twin.child member i fuel) twin

theorem object (twin : PhaseTwin referenceFields objects b b' s t) (member : o ∈ objects) (fuel : Nat) :
    Option.Rel (PhaseTwin referenceFields objects b b') (releaseObject fuel s o) (releaseObject fuel t o) := by
  have entered := twin.entered member
  rw [releaseObject_eq, releaseObject_eq, entered.heap.same o member]
  exact entered.children member fuel _

end PhaseTwin

/-- The whole collection. -/
theorem Twin.gcCollect (twin : Twin referenceFields objects b b' h h') {roots : List Address}
    (listed : ∀ o ∈ roots, o ∈ objects) (rootOrder releaseOrder : IterationOrder) (fuel : Nat) :
    Option.Rel (fun m m' => Twin referenceFields objects b b' m.heap m'.heap ∧ m'.suspectedObjectList = m.suspectedObjectList)
      (CatLa.gcCollect rootOrder releaseOrder fuel ⟨h, roots⟩) (CatLa.gcCollect rootOrder releaseOrder fuel ⟨h', roots⟩) := by
  have start : CollectTwin referenceFields objects b b' ⟨h, []⟩ ⟨h', []⟩ :=
    ⟨twin, rfl, fun o member => absurd member List.not_mem_nil⟩
  have marked : Option.Rel (CollectTwin referenceFields objects b b')
      ((rootOrder.arrange roots).foldlM (collectRoot fuel) ⟨h, []⟩) ((rootOrder.arrange roots).foldlM (collectRoot fuel) ⟨h', []⟩) :=
    foldlM_rel (fun o member _ _ twin => twin.collected (listed o ((rootOrder.perm roots).mem_iff.mp member)) fuel) start
  refine bind_rel marked fun c c' collected => ?_
  obtain ⟨heap, same, inside⟩ := collected
  generalize c'.heap = g' at heap same
  subst same
  dsimp only
  have arranged : ∀ o ∈ releaseOrder.arrange c.releaseObjects, o ∈ objects := fun o member =>
    inside o ((releaseOrder.perm _).mem_iff.mp member)
  have released : Option.Rel (PhaseTwin referenceFields objects b b')
      ((releaseOrder.arrange c.releaseObjects).foldlM (releaseObject fuel) ⟨c.heap, roots, []⟩)
      ((releaseOrder.arrange c.releaseObjects).foldlM (releaseObject fuel) ⟨g', roots, []⟩) :=
    foldlM_rel (fun o member _ _ twin => twin.object (arranged o member) fuel)
      ⟨heap, rfl, fun o member => listed o (member.resolve_right List.not_mem_nil)⟩
  refine bind_rel released fun s s' phase => ?_
  obtain ⟨heap, same, _⟩ := phase
  generalize s'.heap = f' at heap same
  subst same
  exact .some ⟨heap.setStates .dead arranged, rfl⟩

end CatLa
