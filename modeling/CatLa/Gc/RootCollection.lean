import CatLa.Gc.Consistency
import CatLa.Gc.Marking

namespace CatLa
open CountedGraph FuelLoop GraphSearch Relation TrialDeletion

/-- The heap while some objects are marked as waiting for the collector. -/
def MarkedHeap (h : Heap) (objects : List Address) (marked : Heap) : Prop :=
  ∀ o, marked o = if o ∈ objects then (h o).setState .waitingForGc else h o

theorem MarkedHeap.pointers {h marked : Heap} {objects : List Address} (mark : MarkedHeap h objects marked) :
    marked.pointers = h.pointers := by
  funext o
  show (marked o).pointers = (h o).pointers
  rw [mark o]
  split <;> rfl

theorem MarkedHeap.count {h marked : Heap} {objects : List Address} (mark : MarkedHeap h objects marked) (o : Address) :
    (marked o).count = (h o).count := by
  rw [mark o]
  split <;> rfl

theorem MarkedHeap.lockFlag {h marked : Heap} {objects : List Address} (mark : MarkedHeap h objects marked)
    (o : Address) : (marked o).lockFlag = (h o).lockFlag := by
  rw [mark o]
  split <;> rfl

/-- A live object on a cycle that nothing from outside its region leads to. -/
def Abandoned (h : Heap) (holders : Finset Address) (handles : Multiset Address) (r : Address) : Prop :=
  TransGen (fun p q => q ∈ h.pointers p) r r ∧
    ∀ y ∈ holders, Reach h.pointers y r → y ∉ handles ∧ ∀ p ∈ holders, y ∈ h.pointers p → Reach h.pointers r p

/-- What a root on a cycle leads to, when nothing that leads there from below the
root is referred to from anywhere else. -/
def Secluded (h : Heap) (holders : Finset Address) (handles : Multiset Address) (r x : Address) : Prop :=
  TransGen (fun p q => q ∈ h.pointers p) r r ∧ Reach h.pointers r x ∧
    ∀ y ∈ holders, Reach h.pointers r y → Reach h.pointers y x →
      y ∉ handles ∧ ∀ p ∈ holders, y ∈ h.pointers p → Reach h.pointers r p

theorem Abandoned.secluded {h : Heap} {holders : Finset Address} {handles : Multiset Address} {r : Address}
    (abandoned : Abandoned h holders handles r) : Secluded h holders handles r r :=
  ⟨abandoned.1, .refl, fun y member _ path => abandoned.2 y member path⟩

/-- The loop of a collection over its roots, when those in `visited` have been
looked at. -/
structure Collecting (m : GcState) (holders : Finset Address) (handles : Multiset Address) (visited : List Address)
    (s : CollectLoop) : Prop where
  heap : MarkedHeap m.heap s.releaseObjects s.heap
  nodup : s.releaseObjects.Nodup
  origin : ∀ o ∈ s.releaseObjects, o ∈ holders ∨ (m.heap o).state = .waitingForGc
  unreferenced : ∀ o ∈ s.releaseObjects, o ∈ holders → o ∉ handles
  closed : ∀ o ∈ s.releaseObjects, o ∈ holders → ∀ p ∈ holders, o ∈ m.heap.pointers p → p ∈ s.releaseObjects
  waiting : ∀ r ∈ visited, (m.heap r).state = .waitingForGc →
    ∀ o, Reach m.heap.pointers r o → o ∈ s.releaseObjects
  secluded : ∀ o ∈ s.releaseObjects, o ∈ holders → ∃ r ∈ visited, r ∈ holders ∧ Secluded m.heap holders handles r o
  found : ∀ r ∈ visited, r ∈ holders → ∀ o, Secluded m.heap holders handles r o → o ∈ s.releaseObjects

theorem Collecting.start (m : GcState) (holders : Finset Address) (handles : Multiset Address) :
    Collecting m holders handles [] { heap := m.heap, releaseObjects := [] } where
  heap _ := by simp
  nodup := List.nodup_nil
  origin _ member := absurd member List.not_mem_nil
  unreferenced _ member := absurd member List.not_mem_nil
  closed _ member := absurd member List.not_mem_nil
  waiting _ member := absurd member List.not_mem_nil
  secluded _ member := absurd member List.not_mem_nil
  found _ member := absurd member List.not_mem_nil

theorem unlockObjects_apply (objects : List Address) (h : Heap) (o : Address) :
    unlockObjects objects h o = if o ∈ objects then (h o).setLock false else h o := by
  unfold unlockObjects
  induction objects generalizing h with
  | nil => simp
  | cons p rest ih =>
    rw [List.foldl_cons, ih, Heap.modify_apply]
    by_cases here : o = p
    · subst here
      by_cases again : o ∈ rest <;> simp [again, HeapObject.setLock]
    · simp [here]

theorem foldl_collectWhite (marking : Marking) (objects : List Address) (s : CollectLoop) :
    (∀ o, (objects.foldl (collectWhite marking) s).heap o =
      if o ∈ objects ∧ marking.color o = .white then (s.heap o).setState .waitingForGc else s.heap o) ∧
    (∀ o, o ∈ (objects.foldl (collectWhite marking) s).releaseObjects ↔
      o ∈ s.releaseObjects ∨ o ∈ objects ∧ marking.color o = .white) ∧
    (s.releaseObjects.Nodup → (objects.foldl (collectWhite marking) s).releaseObjects.Nodup) := by
  induction objects generalizing s with
  | nil => simp
  | cons p rest ih =>
    rw [List.foldl_cons]
    obtain ⟨heap, members, nodup⟩ := ih (collectWhite marking s p)
    refine ⟨fun o => ?_, fun o => ?_, fun distinct => nodup ?_⟩
    · rw [heap, collectWhite]
      by_cases white : marking.color p = .white
      · rw [if_pos white]
        dsimp only
        rw [Heap.modify_apply]
        by_cases here : o = p
        · subst here
          by_cases again : o ∈ rest <;> simp [again, white, HeapObject.setState]
        · simp [here]
      · rw [if_neg white]
        by_cases here : o = p
        · subst here
          simp [white]
        · simp [here]
    · rw [members, collectWhite]
      by_cases white : marking.color p = .white
      · rw [if_pos white, List.mem_insert_iff, List.mem_cons]
        by_cases here : o = p
        · subst here
          simp [white]
        · simp [here]
      · rw [if_neg white, List.mem_cons]
        by_cases here : o = p
        · subst here
          simp [white]
        · simp [here]
    · rw [collectWhite]
      split
      · exact distinct.insert
      · exact distinct

theorem foldl_nonCycleField (objects : List Address) (words stack : List Address) :
    words.foldl (nonCycleField objects) stack =
      (words.filter fun w => decide (w ≠ 0 ∧ w ∉ objects)).reverse ++ stack := by
  induction words generalizing stack with
  | nil => rfl
  | cons w rest ih =>
    rw [List.foldl_cons, ih, nonCycleField]
    by_cases fresh : w ≠ 0 ∧ w ∉ objects
    · rw [if_pos fresh, List.filter_cons_of_pos (by simpa using fresh)]
      simp
    · rw [if_neg fresh, List.filter_cons_of_neg (by simpa using fresh)]

/-- The search below a root that is on no cycle: it finds the whole region, or
an object of it that is not waiting. -/
theorem returns_nonCycle {h : Heap} {root : Address} {region : Finset Address}
    (whole : ∀ x, Reach h.pointers root x → x ∈ region) :
    ∃ found, Returns (fun fuel => whileTrue (nonCycleBody h) fuel (root, { nonCycleObjects := [], checkObjects := [] })) found ∧
      ((found = none ∧ ∃ x, Reach h.pointers root x ∧ (h x).state ≠ .waitingForGc) ∨
        ∃ objects, found = some objects ∧ (∀ x ∈ objects, (h x).state = .waitingForGc) ∧
          ∀ x, x ∈ objects ↔ Reach h.pointers root x) := by
  have start := Sweep.start h.pointers root region
  refine returns_whileTrue (fun left (loop : Address × NonCycleLoop) =>
    Sweep h.pointers root region loop.2.nonCycleObjects.toFinset (loop.1 :: loop.2.checkObjects) left ∧
      ∀ x ∈ loop.2.nonCycleObjects, (h x).state = .waitingForGc) ?_ ⟨start, fun _ member => absurd member List.not_mem_nil⟩
  rintro left ⟨current, s⟩ ⟨sweep, waiting⟩
  dsimp only at sweep waiting
  by_cases state : (h current).state = .waitingForGc
  · have marked : insert current s.nonCycleObjects.toFinset = (s.nonCycleObjects.insert current).toFinset := by
      ext x
      simp [List.mem_insert_iff]
    have exact (y : Address) : y ∈ ((h current).fields.filter fun w =>
          decide (w ≠ 0 ∧ w ∉ s.nonCycleObjects.insert current)).reverse ↔
        y ∈ h.pointers current ∧ y ∉ insert current s.nonCycleObjects.toFinset := by
      rw [marked, List.mem_reverse, List.mem_filter, decide_eq_true_eq, HeapObject.mem_pointers, List.mem_toFinset, and_assoc]
    have few : ((h current).fields.filter fun w =>
        decide (w ≠ 0 ∧ w ∉ s.nonCycleObjects.insert current)).reverse.length ≤ (h.pointers current).card := by
      rw [List.length_reverse]
      show _ ≤ ((h current).fields.filter (· ≠ 0)).length
      rw [← List.countP_eq_length_filter, ← List.countP_eq_length_filter]
      refine List.countP_mono_left fun w _ fresh => ?_
      simp only [decide_eq_true_eq] at fresh ⊢
      exact fresh.1
    obtain ⟨less, smaller, next⟩ := sweep.visit whole exact few
    rw [← foldl_nonCycleField] at next
    rw [marked] at next
    have waiting' : ∀ x ∈ s.nonCycleObjects.insert current, (h x).state = .waitingForGc := by
      intro x member
      rcases List.mem_insert_iff.mp member with rfl | before
      · exact state
      · exact waiting x before
    cases stack : (h current).fields.foldl (nonCycleField (s.nonCycleObjects.insert current)) s.checkObjects with
    | nil =>
      rw [stack] at next
      refine ⟨.done (some (s.nonCycleObjects.insert current)), .of_eq (fun _ => ?_), Or.inr ⟨_, rfl, waiting', fun x => ?_⟩⟩
      · simp only [nonCycleBody, state, ne_eq, not_true, if_false, stack]
      · rw [← next.complete x, List.mem_toFinset]
    | cons top rest =>
      rw [stack] at next
      refine ⟨.again (top, { nonCycleObjects := s.nonCycleObjects.insert current, checkObjects := rest }),
        .of_eq (fun _ => ?_), less, smaller, next, waiting'⟩
      simp only [nonCycleBody, state, ne_eq, not_true, if_false, stack]
  · refine ⟨.done none, .of_eq (fun _ => ?_), Or.inl ⟨rfl, current, sweep.sound current (Or.inr List.mem_cons_self), state⟩⟩
    simp only [nonCycleBody, ne_eq, state, not_false_eq_true, if_true]

theorem HeapObject.setLock_restore {o : HeapObject} (free : o.lockFlag = false) :
    (o.setLock true).setLock false = o := by
  cases o
  simp only [setLock] at free ⊢
  rw [free]

/-- The references to an object of the region, other than the pointers of the
region. -/
theorem external_eq_zero_iff {m : GcState} {holders region : Finset Address} {handles : Multiset Address}
    (consistent : Consistent m holders handles) (inside : region ⊆ holders) {y : Address} (member : y ∈ region) :
    external region m.heap.pointers (fun o => (m.heap o).count) y = 0 ↔
      y ∉ handles ∧ ∀ p ∈ holders, y ∈ m.heap.pointers p → p ∈ region := by
  have exact : (m.heap y).count = handles.count y + slots holders m.heap.pointers y :=
    consistent.exact.count_eq y (inside member)
  have split : slots holders m.heap.pointers y =
      slots (holders \ region) m.heap.pointers y + slots region m.heap.pointers y :=
    (Finset.sum_sdiff inside).symm
  have outside : slots (holders \ region) m.heap.pointers y = 0 ↔ ∀ p ∈ holders, y ∈ m.heap.pointers p → p ∈ region := by
    rw [← not_iff_not, ← Ne, ← Nat.pos_iff_ne_zero, slots_pos]
    simp only [Finset.mem_sdiff, not_forall]
    constructor
    · rintro ⟨p, ⟨holder, notInside⟩, pointed⟩
      exact ⟨p, holder, pointed, notInside⟩
    · rintro ⟨p, holder, pointed, notInside⟩
      exact ⟨p, ⟨holder, notInside⟩, pointed⟩
  rw [← outside, ← Multiset.count_eq_zero, external]
  omega

/-- A white object's references all come from the region, so those who refer
to it are white as well. -/
theorem white_closed {m : GcState} {holders region : Finset Address} {handles : Multiset Address}
    (consistent : Consistent m holders handles) (inside : region ⊆ holders) {x : Address} (member : x ∈ region)
    (white : ¬Supported m.heap.pointers region (external region m.heap.pointers fun o => (m.heap o).count) x) :
    x ∉ handles ∧ ∀ p ∈ holders, x ∈ m.heap.pointers p → p ∈ region ∧
      ¬Supported m.heap.pointers region (external region m.heap.pointers fun o => (m.heap o).count) p := by
  obtain ⟨unreferenced, inRegion⟩ := (external_eq_zero_iff consistent inside member).mp (by
    by_contra nonzero
    exact white ⟨x, member, nonzero, .refl⟩)
  exact ⟨unreferenced, fun p holder pointed =>
    ⟨inRegion p holder pointed, fun supported => white (Coloured.supported_step supported pointed)⟩⟩

/-- The white objects below a root on a cycle. -/
theorem secluded_iff {m : GcState} {holders region : Finset Address} {handles : Multiset Address} {r x : Address}
    (consistent : Consistent m holders handles) (whole : ∀ x, x ∈ region ↔ Reach m.heap.pointers r x)
    (inside : region ⊆ holders) (cycle : TransGen (fun p q => q ∈ m.heap.pointers p) r r) :
    Secluded m.heap holders handles r x ↔ x ∈ region ∧
      ¬Supported m.heap.pointers region (external region m.heap.pointers fun o => (m.heap o).count) x := by
  rw [Secluded, whole]
  refine (and_iff_right cycle).trans (and_congr_right fun _ => ⟨?_, fun unsupported y holder below above => ?_⟩)
  · rintro secluded ⟨y, member, nonzero, path⟩
    obtain ⟨unreferenced, below⟩ := secluded y (inside member) ((whole y).mp member) path
    refine nonzero ((external_eq_zero_iff consistent inside member).mpr ⟨unreferenced, fun p owner pointed => ?_⟩)
    exact (whole p).mpr (below p owner pointed)
  · have member := (whole y).mpr below
    obtain ⟨unreferenced, inRegion⟩ := (external_eq_zero_iff consistent inside member).mp (by
      by_contra nonzero
      exact unsupported ⟨y, member, nonzero, above⟩)
    exact ⟨unreferenced, fun p owner pointed => (whole p).mp (inRegion p owner pointed)⟩

/-- One root that lies on a cycle: its white objects are added. -/
theorem Collecting.cyclic {m : GcState} {holders region : Finset Address} {handles : Multiset Address}
    {visited : List Address} {s s' : CollectLoop} (collecting : Collecting m holders handles visited s)
    (consistent : Consistent m holders handles) {root : Address} (holder : root ∈ holders)
    (cycle : TransGen (fun p q => q ∈ m.heap.pointers p) root root) (whole : ∀ x, x ∈ region ↔ Reach m.heap.pointers root x) {white : Address → Prop}
    (whites : ∀ x ∈ region, white x ↔
      ¬Supported m.heap.pointers region (external region m.heap.pointers fun o => (m.heap o).count) x)
    (heap : MarkedHeap m.heap s'.releaseObjects s'.heap) (nodup : s'.releaseObjects.Nodup)
    (members : ∀ o, o ∈ s'.releaseObjects ↔ o ∈ s.releaseObjects ∨ o ∈ region ∧ white o) :
    Collecting m holders handles (root :: visited) s' := by
  have inside : region ⊆ holders := fun x member => consistent.reach_holders holder ((whole x).mp member)
  have closedRegion (x : Address) (member : x ∈ region ∧ white x) :=
    white_closed consistent inside member.1 ((whites x member.1).mp member.2)
  have notWaiting : (m.heap root).state ≠ .waitingForGc := by
    rw [(consistent.live root).mpr holder]
    simp
  refine ⟨heap, nodup, fun o member => ?_, fun o member live => ?_, fun o member live p owner pointed => ?_,
    fun r member waiting o path => ?_, fun o member live => ?_, fun r member live o secluded => ?_⟩
  · rcases (members o).mp member with old | new
    · exact collecting.origin o old
    · exact Or.inl (inside new.1)
  · rcases (members o).mp member with old | new
    · exact collecting.unreferenced o old live
    · exact (closedRegion o new).1
  · rcases (members o).mp member with old | new
    · exact (members p).mpr (Or.inl (collecting.closed o old live p owner pointed))
    · obtain ⟨inRegion, unsupported⟩ := (closedRegion o new).2 p owner pointed
      exact (members p).mpr (Or.inr ⟨inRegion, (whites p inRegion).mpr unsupported⟩)
  · rcases List.mem_cons.mp member with rfl | before
    · exact absurd waiting notWaiting
    · exact (members o).mpr (Or.inl (collecting.waiting r before waiting o path))
  · rcases (members o).mp member with old | new
    · obtain ⟨r, before, secluded⟩ := collecting.secluded o old live
      exact ⟨r, List.mem_cons_of_mem _ before, secluded⟩
    · refine ⟨root, List.mem_cons_self, holder, (secluded_iff consistent whole inside cycle).mpr ⟨new.1, ?_⟩⟩
      exact (whites o new.1).mp new.2
  · rcases List.mem_cons.mp member with rfl | before
    · obtain ⟨inRegion, unsupported⟩ := (secluded_iff consistent whole inside cycle).mp secluded
      exact (members o).mpr (Or.inr ⟨inRegion, (whites o inRegion).mpr unsupported⟩)
    · exact (members o).mpr (Or.inl (collecting.found r before live o secluded))

/-- One root that lies on no cycle. What it adds was waiting before the
collection began: a live object that waits now has been added before. -/
theorem Collecting.nonCyclic {m : GcState} {holders : Finset Address} {handles : Multiset Address}
    {visited : List Address} {s s' : CollectLoop} (collecting : Collecting m holders handles visited s)
    (consistent : Consistent m holders handles) {root : Address}
    (acyclic : ¬TransGen (fun p q => q ∈ m.heap.pointers p) root root) {added : List Address}
    (waiting : ∀ x ∈ added, (s.heap x).state = .waitingForGc)
    (whole : (m.heap root).state = .waitingForGc → ∀ x, Reach m.heap.pointers root x → x ∈ added)
    (heap : s'.heap = s.heap) (nodup : s'.releaseObjects.Nodup)
    (members : ∀ o, o ∈ s'.releaseObjects ↔ o ∈ s.releaseObjects ∨ o ∈ added) :
    Collecting m holders handles (root :: visited) s' := by
  have new (o : Address) (member : o ∈ added) : o ∈ s.releaseObjects ∨ (m.heap o).state = .waitingForGc := by
    by_cases old : o ∈ s.releaseObjects
    · exact Or.inl old
    · have state := waiting o member
      rw [collecting.heap o, if_neg old] at state
      exact Or.inr state
  have notLive (o : Address) (live : o ∈ holders) : (m.heap o).state ≠ .waitingForGc := by
    rw [(consistent.live o).mpr live]
    simp
  have old (o : Address) (member : o ∈ s'.releaseObjects) (live : o ∈ holders) : o ∈ s.releaseObjects := by
    rcases (members o).mp member with before | fresh
    · exact before
    · exact (new o fresh).resolve_right (notLive o live)
  refine ⟨fun o => ?_, nodup, fun o member => ?_, fun o member live => ?_, fun o member live p owner pointed => ?_,
    fun r member waits o path => ?_, fun o member live => ?_, fun r member live o secluded => ?_⟩
  · rw [heap, collecting.heap o]
    by_cases before : o ∈ s.releaseObjects
    · rw [if_pos before, if_pos ((members o).mpr (Or.inl before))]
    · by_cases fresh : o ∈ added
      · have state := (new o fresh).resolve_left before
        rw [if_neg before, if_pos ((members o).mpr (Or.inr fresh)), HeapObject.setState, ← state]
      · rw [if_neg before, if_neg fun member => ((members o).mp member).elim before fresh]
  · rcases (members o).mp member with before | fresh
    · exact collecting.origin o before
    · exact (new o fresh).elim (collecting.origin o) Or.inr
  · exact collecting.unreferenced o (old o member live) live
  · exact (members p).mpr (Or.inl (collecting.closed o (old o member live) live p owner pointed))
  · rcases List.mem_cons.mp member with rfl | before
    · exact (members o).mpr (Or.inr (whole waits o path))
    · exact (members o).mpr (Or.inl (collecting.waiting r before waits o path))
  · obtain ⟨r, before, secluded⟩ := collecting.secluded o (old o member live) live
    exact ⟨r, List.mem_cons_of_mem _ before, secluded⟩
  · rcases List.mem_cons.mp member with rfl | before
    · exact absurd secluded.1 acyclic
    · exact (members o).mpr (Or.inl (collecting.found r before live o secluded))

/-- One root of `gc_collect`. -/
theorem Collecting.root {m : GcState} {holders : Finset Address} {handles : Multiset Address} {visited : List Address}
    {s : CollectLoop} (collecting : Collecting m holders handles visited s) (consistent : Consistent m holders handles)
    {root : Address} (listed : root ∈ m.suspectedObjectList) :
    ∃ s', Returns (fun fuel => collectRoot fuel s root) s' ∧ Collecting m holders handles (root :: visited) s' := by
  obtain ⟨alive, async⟩ := (consistent.listed root).mp listed
  have pointers : s.heap.pointers = m.heap.pointers := collecting.heap.pointers
  have free (o : Address) : (s.heap o).lockFlag = false := by
    rw [collecting.heap.lockFlag, consistent.unlocked]
  -- the objects below the root are live with it, or wait with it
  obtain ⟨bound, within⟩ : ∃ bound : Finset Address, ∀ x, Reach m.heap.pointers root x → x ∈ bound := by
    rcases consistent.state_cases alive with holder | waiting
    · exact ⟨holders, fun x path => consistent.reach_holders holder path⟩
    · refine ⟨consistent.waitingFinite.toFinset, fun x path => ?_⟩
      rw [Set.Finite.mem_toFinset]
      exact consistent.reach_waiting waiting path
  rw [← pointers] at within
  obtain ⟨l, lockRun, locked⟩ := returns_lockPhase within (fun x _ => free x)
    { heap := s.heap, cycleObjects := [], isCyclicRoot := false,
      marking := { colorMap := Function.update (fun _ => none) root (some .red), countMap := fun _ => 0,
                   checkObjects := [] } } rfl rfl rfl rfl rfl
  have lockedPointers : l.heap.pointers = m.heap.pointers := locked.heap.pointers.trans pointers
  have unlock (o : Address) : ((s.heap o).setLock true).setLock false = s.heap o := HeapObject.setLock_restore (free o)
  by_cases cyclic : l.isCyclicRoot
  · -- a waiting root would be pointed to from among the waiting objects
    have cycle := locked.cyclic.mp cyclic
    rw [pointers] at cycle
    have holder : root ∈ holders := by
      refine (consistent.state_cases alive).resolve_right fun waiting => ?_
      obtain ⟨p, path, pointed⟩ := TransGen.tail'_iff.mp cycle
      exact consistent.waiting.unpointed root waiting ((consistent.suspected_iff alive).mpr async) p
        (consistent.reach_waiting waiting path) pointed
    have whole (x : Address) : x ∈ l.cycleObjects.toFinset ↔ Reach m.heap.pointers root x := by
      rw [List.mem_toFinset, locked.objects, pointers]
    have inside : l.cycleObjects.toFinset ⊆ holders := fun x member => consistent.reach_holders holder ((whole x).mp member)
    have count (o : Address) : (l.heap o).count = (m.heap o).count := by
      rw [locked.heap o]
      split <;> exact collecting.heap.count o
    rw [← lockedPointers] at whole
    obtain ⟨gray, grayRun, grayRegion⟩ := returns_markGray whole (fun x member => by
      have exact := consistent.exact.count_eq x (inside member)
      have below : slots l.cycleObjects.toFinset m.heap.pointers x ≤ slots holders m.heap.pointers x :=
        Finset.sum_le_sum_of_subset inside
      have : slots holders (fun o => (m.heap o).pointers) x = slots holders m.heap.pointers x := rfl
      rw [count, lockedPointers]
      omega) locked.red locked.stack
    obtain ⟨marking, colorRun, colored⟩ := returns_markWhiteOrBlack whole grayRegion
    have whites := colored.white
    obtain ⟨heap, members, nodup⟩ := foldl_collectWhite marking l.cycleObjects { s with heap := l.heap }
    rw [lockedPointers] at whole whites
    simp only [count] at whites
    generalize collected : l.cycleObjects.foldl (collectWhite marking) { s with heap := l.heap } = s' at heap members nodup
    have run : Returns (fun fuel => collectRoot fuel s root)
        { s' with heap := unlockObjects l.cycleObjects s'.heap } := by
      refine lockRun.bind ?_
      simp only [cyclic, if_true]
      exact grayRun.bind (colorRun.bind (.of_eq fun _ => by rw [collected]))
    refine ⟨_, run, ?_⟩
    refine collecting.cyclic consistent holder cycle whole whites (fun o => ?_) (nodup collecting.nodup) fun o => ?_
    · dsimp only at members ⊢
      rw [unlockObjects_apply, heap]
      dsimp only
      rw [locked.heap o]
      by_cases inside : o ∈ l.cycleObjects
      · simp only [inside, true_and, if_true]
        by_cases white : marking.color o = .white
        · have again : ((s.heap o).setState .waitingForGc).lockFlag = false := free o
          have restore : (((s.heap o).setLock true).setState .waitingForGc).setLock false =
              (s.heap o).setState .waitingForGc := HeapObject.setLock_restore again
          rw [if_pos white, if_pos ((members o).mpr (Or.inr ⟨inside, white⟩)), restore, collecting.heap o]
          split <;> rfl
        · have same : o ∈ s'.releaseObjects ↔ o ∈ s.releaseObjects := by simp [members, white]
          simp only [white, if_false, unlock, same]
          exact collecting.heap o
      · have same : o ∈ s'.releaseObjects ↔ o ∈ s.releaseObjects := by simp [members, inside]
        simp only [inside, false_and, if_false, same]
        exact collecting.heap o
    · rw [members, List.mem_toFinset]
  · have unlocked : unlockObjects l.cycleObjects l.heap = s.heap := by
      funext o
      rw [unlockObjects_apply, locked.heap o]
      by_cases inside : o ∈ l.cycleObjects
      · rw [if_pos inside, if_pos inside, unlock]
      · rw [if_neg inside, if_neg inside]
    have acyclic : ¬TransGen (fun p q => q ∈ m.heap.pointers p) root root := by
      rw [← pointers]
      exact fun cycle => cyclic (locked.cyclic.mpr cycle)
    have run {found : Option (List Address)} (search : Returns (fun fuel =>
        whileTrue (nonCycleBody s.heap) fuel (root, { nonCycleObjects := [], checkObjects := [] })) found) :
        Returns (fun fuel => collectRoot fuel s root) (found.elim s fun objects =>
          { heap := s.heap, releaseObjects := objects.foldl (fun released o => released.insert o) s.releaseObjects }) := by
      refine lockRun.bind ?_
      simp only [cyclic, Bool.false_eq_true, if_false, unlocked]
      cases found <;> exact search.map _
    obtain ⟨found, search, outcome⟩ := returns_nonCycle within
    rcases outcome with ⟨rfl, x, path, awake⟩ | ⟨objects, rfl, waiting, whole⟩
    · refine ⟨s, run search, collecting.nonCyclic consistent acyclic (fun _ member => absurd member List.not_mem_nil) (fun waits => ?_)
        rfl collecting.nodup fun o => by simp⟩
      rw [pointers] at path
      have state := consistent.reach_waiting waits path
      refine absurd ?_ awake
      rw [collecting.heap x]
      split
      · rfl
      · exact state
    · refine ⟨_, run search, collecting.nonCyclic consistent acyclic waiting (fun _ x path => ?_) rfl
        (nodup_foldl_insert objects collecting.nodup) fun _ => mem_foldl_insert⟩
      rw [whole, pointers]
      exact path

end CatLa
