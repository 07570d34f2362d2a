import CatLa.Gc.CollectorWords
import CatLa.Gc.FollowedWords
import CatLa.Gc.LockPhase

namespace CatLa
open FuelLoop GraphSearch Relation

variable {referenceFields : Address → List (BitVec 8)} {objects region : Finset Address} {b h g : Heap} {o root : Address}
  {roots : List Address} {rootOrder releaseOrder : IterationOrder}

/-- An object that the collector locks, unlocks or goes through the fields of
while it processes a root, with the memory of that moment. -/
inductive RootVisit (heap : Heap) (root : Address) : Heap → Address → Prop
  | lock {pass : Nat} {currentObject : Address} {l : LockLoop}
      (reached : stateAt (lockBody root) pass (root, lockStart heap root) = some (currentObject, l)) :
      RootVisit heap root l.heap currentObject
  | gray {fuel pass : Nat} {l : LockLoop} {currentObject : Address} {marking : Marking}
      (locked : whileTrue (lockBody root) fuel (root, lockStart heap root) = some l) (cyclic : l.isCyclicRoot = true)
      (reached : stateAt (grayBody l.heap) pass (root, (l.marking.setCount root (l.heap root).count).paint root .gray) =
        some (currentObject, marking)) : RootVisit heap root l.heap currentObject
  | color {fuel pass : Nat} {l : LockLoop} {currentObject : Address} {grayed marking : Marking}
      (locked : whileTrue (lockBody root) fuel (root, lockStart heap root) = some l) (cyclic : l.isCyclicRoot = true)
      (marked : markGray fuel l.heap root l.marking = some grayed)
      (reached : stateAt (colorBody l.heap) pass (root, colorRoot root grayed) = some (currentObject, marking)) :
      RootVisit heap root l.heap currentObject
  | cycle {fuel : Nat} {l : LockLoop} {object : Address}
      (locked : whileTrue (lockBody root) fuel (root, lockStart heap root) = some l) (member : object ∈ l.cycleObjects) :
      RootVisit heap root l.heap object
  | nonCycle {fuel pass : Nat} {l : LockLoop} {currentObject : Address} {s : NonCycleLoop}
      (locked : whileTrue (lockBody root) fuel (root, lockStart heap root) = some l) (plain : l.isCyclicRoot = false)
      (reached : stateAt (nonCycleBody (unlockObjects l.cycleObjects l.heap)) pass
        (root, { nonCycleObjects := [], checkObjects := [] }) = some (currentObject, s)) :
      RootVisit heap root (unlockObjects l.cycleObjects l.heap) currentObject

/-- The release phase of `gc_collect` comes to field `i` of an object. -/
structure ReleasesField (rootOrder releaseOrder : IterationOrder) (m : GcState) (object : Address) (i : Nat)
    (s : ReleasePhase) : Prop where
  reached : ∃ fuel before after c entered,
    (rootOrder.arrange m.suspectedObjectList).foldlM (collectRoot fuel) ⟨m.heap, []⟩ = some c ∧
      releaseOrder.arrange c.releaseObjects = before ++ object :: after ∧
        before.foldlM (releaseObject fuel) ⟨c.heap, m.suspectedObjectList, []⟩ = some entered ∧
          (List.range i).foldlM (releaseChild fuel object) (entered.enter object) = some s

/-- An object that `gc_collect` locks, unlocks, goes through the fields of or
frees, with the memory of that moment. -/
inductive CollectVisit (rootOrder releaseOrder : IterationOrder) (m : GcState) : Heap → Address → Prop
  | root {fuel : Nat} {before after : List Address} {root object : Address} {s : CollectLoop} {heap : Heap}
      (roots : rootOrder.arrange m.suspectedObjectList = before ++ root :: after)
      (reached : before.foldlM (collectRoot fuel) ⟨m.heap, []⟩ = some s) (visit : RootVisit s.heap root heap object) :
      CollectVisit rootOrder releaseOrder m heap object
  | release {object : Address} {i : Nat} {s : ReleasePhase} (field : ReleasesField rootOrder releaseOrder m object i s) :
      CollectVisit rootOrder releaseOrder m s.heap object
  | free {fuel : Nat} {object : Address} {c : CollectLoop} {s : ReleasePhase}
      (marked : (rootOrder.arrange m.suspectedObjectList).foldlM (collectRoot fuel) ⟨m.heap, []⟩ = some c)
      (released : (releaseOrder.arrange c.releaseObjects).foldlM (releaseObject fuel) ⟨c.heap, m.suspectedObjectList, []⟩ = some s)
      (member : object ∈ releaseOrder.arrange c.releaseObjects) : CollectVisit rootOrder releaseOrder m s.heap object

/-- A call of `decrement_reference_count` that the release phase makes, with
the memory before it. -/
inductive CollectCall (rootOrder releaseOrder : IterationOrder) (m : GcState) : Heap → Address → Prop
  | release {object : Address} {i : Nat} {s : ReleasePhase} (field : ReleasesField rootOrder releaseOrder m object i s)
      (nonnull : (s.heap object).field i ≠ 0) (live : (s.heap ((s.heap object).field i)).state = .live) :
      CollectCall rootOrder releaseOrder m s.heap ((s.heap object).field i)

/-- The collector follows the references of a heap and nothing else, whatever
the order of its sets: it locks and goes through objects only, each word that
it finds there and that is not null refers to an object from an object field,
the calls that it makes access objects only, and with nulls in place of all
other words, and any memory outside the objects, it does the same. -/
structure CollectFollows (referenceFields : Address → List (BitVec 8)) (objects : Finset Address) (h : Heap)
    (roots : List Address) : Prop where
  visits : ∀ rootOrder releaseOrder g o, CollectVisit rootOrder releaseOrder ⟨h, roots⟩ g o → o ∈ objects ∧
    ∀ i, (g o).field i ≠ 0 → IsReference referenceFields (g o) i ∧ (g o).field i ∈ objects
  calls : ∀ rootOrder releaseOrder g o, CollectCall rootOrder releaseOrder ⟨h, roots⟩ g o → ∀ events g' control,
    DropTrace g (.sub o) events g' control → control.Follows referenceFields objects g'
  alike : ∀ b, (∀ o ∈ objects, b o = h.references referenceFields o) → ∀ rootOrder releaseOrder fuel,
    Option.Rel (fun m m' => SameReferences referenceFields objects h b m.heap m'.heap ∧
      m'.suspectedObjectList = m.suspectedObjectList)
      (gcCollect rootOrder releaseOrder fuel ⟨h, roots⟩) (gcCollect rootOrder releaseOrder fuel ⟨b, roots⟩)

namespace RootVisit

/-- In a region that is left by no word the collector stays. -/
theorem within (twin : Twin referenceFields region b b h h) (member : root ∈ region) (visit : RootVisit h root g o) :
    o ∈ region ∧ Twin referenceFields region b b g g := by
  have phase {fuel : Nat} {l : LockLoop} (locked : whileTrue (lockBody root) fuel (root, lockStart h root) = some l) :
      LockTwin referenceFields region b b l l := by
    have related := (LockTwin.start root twin).lockPhase root member fuel
    rw [locked] at related
    exact Option.rel_some_some.mp related
  have stack {l : LockLoop} (locked : LockTwin referenceFields region b b l l) :
      MarkingTwin region l.marking l.marking := ⟨rfl, fun o listed => locked.inside o (Or.inr listed)⟩
  cases visit with
  | @lock pass currentObject l reached =>
    have related := stateAt_rel (R := LockTwin.At referenceFields region b b) (fun p q at_ => LockTwin.pass root at_)
      (s := (root, lockStart h root)) (t := (root, lockStart h root)) ⟨rfl, member, LockTwin.start root twin⟩ pass
    rw [reached] at related
    obtain ⟨-, inside, locked⟩ := Option.rel_some_some.mp related
    exact ⟨inside, locked.heap⟩
  | @gray fuel pass l currentObject marking locked cyclic reached =>
    have locked := phase locked
    have related := stateAt_rel (R := MarkingTwin.At region) (fun p q at_ => MarkingTwin.grayPass locked.heap at_)
      (s := (root, (l.marking.setCount root (l.heap root).count).paint root .gray)) ⟨rfl, member, rfl, (stack locked).2⟩ pass
    rw [reached] at related
    obtain ⟨-, inside, -⟩ := Option.rel_some_some.mp related
    exact ⟨inside, locked.heap⟩
  | @color fuel pass l currentObject grayed marking locked cyclic marked reached =>
    have locked := phase locked
    have gray := MarkingTwin.markGray locked.heap (stack locked) member fuel
    rw [marked] at gray
    have related := stateAt_rel (R := MarkingTwin.At region) (fun p q at_ => MarkingTwin.colorPass locked.heap at_)
      (s := (root, colorRoot root grayed)) ((Option.rel_some_some.mp gray).colorRoot_at member) pass
    rw [reached] at related
    obtain ⟨-, inside, -⟩ := Option.rel_some_some.mp related
    exact ⟨inside, locked.heap⟩
  | cycle locked listed =>
    have locked := phase locked
    exact ⟨locked.inside o (Or.inl listed), locked.heap⟩
  | @nonCycle fuel pass l currentObject s locked plain reached =>
    have locked := phase locked
    have unlocked := locked.heap.unlock fun o listed => locked.inside o (Or.inl listed)
    have related := stateAt_rel (R := NonCycleAt region) (fun p q at_ => NonCycleAt.pass unlocked at_)
      (s := (root, { nonCycleObjects := [], checkObjects := [] })) (.start member) pass
    rw [reached] at related
    obtain ⟨-, inside, -⟩ := Option.rel_some_some.mp related
    exact ⟨inside, unlocked⟩

end RootVisit

/-- The words of a region are references into it, and the collection starts
from objects of the region. -/
structure CollectRegion (referenceFields : Address → List (BitVec 8)) (region : Finset Address) (h : Heap)
    (roots : List Address) : Prop where
  words : OnlyReferences referenceFields region h
  proper : ∀ o ∈ region, 1 < o
  listed : ∀ o ∈ roots, o ∈ region

namespace CollectRegion
variable {fuel : Nat} {list : List Address} {c : CollectLoop}

theorem twin (inside : CollectRegion referenceFields region h roots) : Twin referenceFields region h h h h :=
  ⟨fun _ _ => rfl, fun _ _ => ⟨rfl, rfl⟩, inside.words⟩

theorem marked (inside : CollectRegion referenceFields region h roots) (listed : ∀ o ∈ list, o ∈ region)
    (run : list.foldlM (collectRoot fuel) ⟨h, []⟩ = some c) : CollectTwin referenceFields region h h c c := by
  have start : CollectTwin referenceFields region h h ⟨h, []⟩ ⟨h, []⟩ :=
    ⟨inside.twin, rfl, fun o member => absurd member List.not_mem_nil⟩
  have related : Option.Rel (CollectTwin referenceFields region h h) (list.foldlM (collectRoot fuel) ⟨h, []⟩)
      (list.foldlM (collectRoot fuel) ⟨h, []⟩) :=
    foldlM_rel (fun o member _ _ twin => twin.collected (listed o member) fuel) start
  rw [run] at related
  exact Option.rel_some_some.mp related

theorem phase {s : ReleasePhase} (inside : CollectRegion referenceFields region h roots)
    (heap : Twin referenceFields region h h g g) (listed : ∀ o ∈ list, o ∈ region)
    (run : list.foldlM (releaseObject fuel) ⟨g, roots, []⟩ = some s) : PhaseTwin referenceFields region h h s s := by
  have start : PhaseTwin referenceFields region h h ⟨g, roots, []⟩ ⟨g, roots, []⟩ :=
    ⟨heap, rfl, fun o member => inside.listed o (member.resolve_right List.not_mem_nil)⟩
  have related : Option.Rel (PhaseTwin referenceFields region h h) (list.foldlM (releaseObject fuel) ⟨g, roots, []⟩)
      (list.foldlM (releaseObject fuel) ⟨g, roots, []⟩) :=
    foldlM_rel (fun o member _ _ twin => twin.object (listed o member) fuel) start
  rw [run] at related
  exact Option.rel_some_some.mp related

theorem arranged (inside : CollectRegion referenceFields region h roots) (o : Address)
    (member : o ∈ rootOrder.arrange roots) : o ∈ region :=
  inside.listed o ((rootOrder.perm roots).mem_iff.mp member)

theorem release {i : Nat} {s : ReleasePhase} (inside : CollectRegion referenceFields region h roots)
    (field : ReleasesField rootOrder releaseOrder ⟨h, roots⟩ o i s) :
    o ∈ region ∧ Twin referenceFields region h h s.heap s.heap := by
  obtain ⟨fuel, before, after, c, entered, marked, order, reached, children⟩ := field.reached
  have collected := inside.marked inside.arranged marked
  have listed (p : Address) (member : p ∈ before ++ o :: after) : p ∈ region :=
    collected.inside p ((releaseOrder.perm _).mem_iff.mp (order ▸ member))
  have member : o ∈ region := listed o (List.mem_append_right _ List.mem_cons_self)
  have phase := inside.phase collected.heap (fun p inside => listed p (List.mem_append_left _ inside)) reached
  have related := (phase.entered member).children member fuel i
  rw [children] at related
  exact ⟨member, (Option.rel_some_some.mp related).heap⟩

theorem visit (inside : CollectRegion referenceFields region h roots)
    (visit : CollectVisit rootOrder releaseOrder ⟨h, roots⟩ g o) : o ∈ region ∧ OnlyReferences referenceFields region g := by
  cases visit with
  | @root fuel before after root object s heap order reached visit =>
    have listed (p : Address) (member : p ∈ before ++ root :: after) : p ∈ region := inside.arranged p (order ▸ member)
    have collected := inside.marked (fun p member => listed p (List.mem_append_left _ member)) reached
    obtain ⟨member, twin⟩ := visit.within (b := h) collected.heap (listed root (List.mem_append_right _ List.mem_cons_self))
    exact ⟨member, twin.words⟩
  | release field =>
    obtain ⟨member, twin⟩ := inside.release field
    exact ⟨member, twin.words⟩
  | free marked released member =>
    have collected := inside.marked inside.arranged marked
    have listed (p : Address) (member : p ∈ releaseOrder.arrange _) : p ∈ region :=
      collected.inside p ((releaseOrder.perm _).mem_iff.mp member)
    exact ⟨listed o member, (inside.phase collected.heap listed released).heap.words⟩

theorem call (inside : CollectRegion referenceFields region h roots)
    (call : CollectCall rootOrder releaseOrder ⟨h, roots⟩ g o) : o ∈ region ∧ OnlyReferences referenceFields region g := by
  cases call with
  | release field nonnull live =>
    obtain ⟨member, twin⟩ := inside.release field
    exact ⟨(twin.words _ member _ nonnull).2, twin.words⟩

end CollectRegion

end CatLa
