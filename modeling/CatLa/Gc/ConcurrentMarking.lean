import CatLa.Gc.Marking
import CatLa.Gc.ThreadAccounting

namespace CatLa
open CountedGraph GraphSearch TrialDeletion Relation

/-- Where the collector is between the lock phase and "Collect white". -/
inductive MarkingPoint
  | readRoot
  | gray (currentObject : Address) (i : Nat)
  | color (currentObject : Address) (currentObjectColor : ObjectColor) (i : Nat)
  | done

structure Collector where
  root : Address
  point : MarkingPoint
  marking : Marking

/-- One step of the collector: one word of a locked object is read, and in
"Mark gray" at most one count. -/
def Collector.advance (heap : Heap) (c : Collector) : Option Collector :=
  match c.point with
  | .readRoot =>
    some { c with point := .gray c.root 0,
                  marking := (c.marking.setCount c.root (heap c.root).count).paint c.root .gray }
  | .gray currentObject i =>
    if i < (heap currentObject).fields.length then
      some { c with point := .gray currentObject (i + 1),
                    marking := grayField heap c.marking ((heap currentObject).field i) }
    else
      match c.marking.checkObjects with
      | [] =>
        let marking := colorRoot c.root c.marking
        some { c with point := .color c.root (marking.color c.root) 0, marking := marking }
      | next :: rest => some { c with point := .gray next 0, marking := { c.marking with checkObjects := rest } }
  | .color currentObject currentObjectColor i =>
    if i < (heap currentObject).fields.length then
      some { c with point := .color currentObject currentObjectColor (i + 1),
                    marking := colorField currentObjectColor c.marking ((heap currentObject).field i) }
    else
      match c.marking.checkObjects with
      | [] => some { c with point := .done }
      | next :: rest =>
        some { c with point := .color next (c.marking.color next) 0,
                      marking := { c.marking with checkObjects := rest } }
  | .done => none

/-- Mutator threads next to a collector that holds the locks of a region. -/
structure LockedConfig (ι : Type) where
  memory : GcState
  threads : ι → Thread
  collector : Collector

/-- Any thread, or the collector, makes its next step. -/
inductive LockedStep {ι : Type} [DecidableEq ι] : LockedConfig ι → LockedConfig ι → Prop
  | mutator {c : LockedConfig ι} (t : ι) {memory : GcState} {thread : Thread}
      (step : ThreadStep c.memory (c.threads t) memory thread) :
      LockedStep c { c with memory := memory, threads := Function.update c.threads t thread }
  | collector {c : LockedConfig ι} {collector : Collector} (step : c.collector.advance c.memory.heap = some collector) :
      LockedStep c { c with collector := collector }

/-- All references that a thread holds: its handles, and what the operation it
is inside of has still to store or to drop. -/
def Thread.references (h : Heap) (t : Thread) : Multiset Address := t.handles + t.control.refs h

/-- The objects in `holders` are those that are not released: their counts are
exact, and every live object is one of them unless a thread is allocating or
releasing it. -/
structure Counted {ι : Type} [Fintype ι] (holders : Finset Address) (h : Heap) (threads : ι → Thread) : Prop where
  exact : Exact holders h (∑ t, (threads t).references h)
  alive : ∀ o ∈ holders, (h o).state ≠ .dead
  proper : ∀ o ∈ holders, 1 < o
  covers : ∀ o, (h o).state = .live → o ∈ holders ∨ ∃ t, o ∈ (threads t).control.objects
  nodup : ∀ t, (threads t).control.objects.Nodup
  apart : ∀ t, ∀ o ∈ (threads t).control.objects, o ∉ holders ∧ (h o).state ≠ .dead
  disjoint : ∀ t u, t ≠ u → ∀ o ∈ (threads t).control.objects, o ∉ (threads u).control.objects
  sound : ∀ t, (threads t).control.Sound h (threads t).handles

namespace Counted
variable {ι : Type} [Fintype ι] [DecidableEq ι] {holders holders' : Finset Address} {h h' : Heap} {threads : ι → Thread}
  {t : ι} {t' : Thread} {x : Address}

/-- The references of all threads but one. -/
def others (h : Heap) (threads : ι → Thread) (t : ι) : Multiset Address :=
  ∑ u ∈ Finset.univ.erase t, (threads u).references h

theorem split (h : Heap) (threads : ι → Thread) (t : ι) :
    ∑ u, (threads u).references h = (threads t).handles + (threads t).control.refs h + others h threads t :=
  (Finset.add_sum_erase _ (fun u => (threads u).references h) (Finset.mem_univ t)).symm

theorem view (counted : Counted holders h threads) (t : ι) : ThreadView holders h (threads t) (others h threads t) where
  cascade := ⟨split h threads t ▸ counted.exact, counted.alive, counted.nodup t, counted.apart t⟩
  proper := counted.proper
  sound := counted.sound t

theorem referenced (member : x ∈ (threads t).references h) :
    x ∈ ∑ u, (threads u).references h := by
  rw [split h threads t]
  exact Multiset.mem_add.mpr (Or.inl member)

/-- A step of one thread keeps the accounting of all. -/
theorem change (counted : Counted holders h threads)
    (change : ThreadChange holders h (threads t) (others h threads t) holders' h' t') :
    Counted holders' h' (Function.update threads t t') := by
  have settled (u : ι) (different : u ≠ t) (o : Address) (member : o ∈ (threads u).control.objects) : h' o = h o := by
    obtain ⟨outside, alive⟩ := counted.apart u o member
    exact change.settled o outside (counted.disjoint u t different o member) alive
  have same (u : ι) (different : u ≠ t) : (threads u).references h' = (threads u).references h :=
    congrArg _ (Control.refs_congr (counted.sound u) (settled u different))
  have rest : others h' (Function.update threads t t') t = others h threads t := by
    refine Finset.sum_congr rfl fun u member => ?_
    have different := Finset.ne_of_mem_erase member
    rw [Function.update_of_ne different, same u different]
  have stays (u : ι) (different : u ≠ t) (o : Address) (member : o ∈ (threads u).control.objects) : o ∉ holders' :=
    fun holder => (change.newcomers o holder).elim (counted.apart u o member).1 (counted.disjoint u t different o member)
  have exact : Exact holders' h' (∑ u, (Function.update threads t t' u).references h') := by
    rw [split h' _ t, rest, Function.update_self]
    exact change.view.cascade.exact
  refine ⟨exact, change.view.cascade.alive, change.view.proper, fun o live => ?_, fun u => ?_, fun u o member => ?_,
    fun u v different o member again => ?_, fun u => ?_⟩
  · by_cases holder : o ∈ holders'
    · exact Or.inl holder
    · have mine (owned : o ∈ (threads t).control.objects ∨ o ∈ holders) :
          ∃ u, o ∈ (Function.update threads t t' u).control.objects :=
        ⟨t, by rw [Function.update_self]; exact change.keeps o owned holder live⟩
      refine Or.inr ?_
      by_cases owned : o ∈ (threads t).control.objects ∨ o ∈ holders
      · exact mine owned
      · obtain ⟨notOwned, outside⟩ := not_or.mp owned
        by_cases dead : (h o).state = .dead
        · exact ⟨t, by rw [Function.update_self]; exact change.born o outside notOwned dead live⟩
        · rw [change.settled o outside notOwned dead] at live
          obtain ⟨u, member⟩ := (counted.covers o live).resolve_left outside
          have different : u ≠ t := fun here => notOwned (here ▸ member)
          exact ⟨u, by rwa [Function.update_of_ne different]⟩
  · by_cases here : u = t
    · rw [here, Function.update_self]
      exact change.view.cascade.nodup
    · rw [Function.update_of_ne here]
      exact counted.nodup u
  · by_cases here : u = t
    · rw [here, Function.update_self] at member
      exact change.view.cascade.apart o member
    · rw [Function.update_of_ne here] at member
      rw [settled u here o member]
      exact ⟨stays u here o member, (counted.apart u o member).2⟩
  · have fresh (v : ι) (other : v ≠ t) (mine : o ∈ t'.control.objects) (theirs : o ∈ (threads v).control.objects) : False := by
      obtain ⟨outside, alive⟩ := counted.apart v o theirs
      rcases change.origin o mine with owned | holder | dead
      · exact counted.disjoint v t other o theirs owned
      · exact outside holder
      · exact alive dead
    by_cases here : u = t
    · subst here
      rw [Function.update_self] at member
      rw [Function.update_of_ne (Ne.symm different)] at again
      exact fresh v (Ne.symm different) member again
    · rw [Function.update_of_ne here] at member
      by_cases there : v = t
      · rw [there, Function.update_self] at again
        exact fresh u here again member
      · rw [Function.update_of_ne there] at again
        exact counted.disjoint u v different o member again
  · by_cases here : u = t
    · rw [here, Function.update_self]
      exact change.view.sound
    · rw [Function.update_of_ne here]
      refine (counted.sound u).congr (fun o held => ⟨held, ?_⟩) (settled u here)
      have before : o ∈ holders := (counted.view u).mem_holders held
      have after : o ∈ holders' := by
        refine exact.refs_mem o ?_
        rw [split h' _ u, Function.update_of_ne here]
        exact Multiset.mem_add.mpr (Or.inl (Multiset.mem_add.mpr (Or.inl held)))
      exact (change.kept o before after).2.2.1

end Counted

/-- What stays of the region while the collector holds its locks; `start` is
the heap when the last lock was taken. -/
structure RegionHeld (start : Heap) (region holders : Finset Address) (h : Heap) : Prop where
  inside : region ⊆ holders
  kept : ∀ x ∈ region, (h x).lockFlag = true ∧ (h x).fields = (start x).fields ∧ (h x).state = (start x).state

namespace RegionHeld
variable {ι : Type} [Fintype ι] [DecidableEq ι] {start h h' : Heap} {region holders holders' : Finset Address}
  {threads : ι → Thread} {t : ι} {t' : Thread} {x : Address}

omit [DecidableEq ι] in
/-- The count of an object of the region: references, pointers from outside
and pointers from the region. -/
theorem count_eq (held : RegionHeld start region holders h) (counted : Counted holders h threads) (member : x ∈ region) :
    (h x).count = (∑ u, (threads u).references h).count x + slots (holders \ region) h.pointers x +
      slots region start.pointers x := by
  have same : slots region h.pointers x = slots region start.pointers x := slots_congr (fun o inside => by
    rw [Heap.pointers, Heap.pointers, HeapObject.pointers, HeapObject.pointers, (held.kept o inside).2.1]) x
  have total : slots holders h.pointers x = slots (holders \ region) h.pointers x + slots region h.pointers x :=
    (Finset.sum_sdiff held.inside).symm
  rw [counted.exact.count_eq x (held.inside member), ← same, add_assoc, ← total]

/-- No step of a thread releases or changes an object of the region. -/
theorem change (held : RegionHeld start region holders h) (counted : Counted holders h threads)
    (entered : ∀ x ∈ region, 0 < slots region start.pointers x)
    (change : ThreadChange holders h (threads t) (Counted.others h threads t) holders' h' t') :
    RegionHeld start region holders' h' := by
  have stays (x : Address) (member : x ∈ region) : x ∈ holders' := by
    by_contra gone
    obtain ⟨last, referred⟩ := change.leaves x (held.inside member) gone
    have referred := Multiset.count_pos.mpr (Counted.referenced referred)
    have positive := entered x member
    have total := held.count_eq counted member
    omega
  refine ⟨stays, fun x member => ?_⟩
  obtain ⟨lock, fields, state⟩ := held.kept x member
  obtain ⟨sameState, sameLock, _, sameFields⟩ := change.kept x (held.inside member) (stays x member)
  exact ⟨sameLock.trans lock, (sameFields lock).trans fields, sameState.trans state⟩

/-- The stability argument: once all references to an object of the region
come from the region, no thread can gain another one. -/
theorem stable (held : RegionHeld start region holders h) (counted : Counted holders h threads)
    (change : ThreadChange holders h (threads t) (Counted.others h threads t) holders' h' t')
    (after : RegionHeld start region holders' h') (member : x ∈ region)
    (closed : (h x).count = slots region start.pointers x) : (h' x).count = slots region start.pointers x := by
  have before := held.count_eq counted member
  have least := after.count_eq (counted.change change) member
  by_contra different
  rcases change.rises x (held.inside member) (after.inside member) (by omega) with handle | ⟨p, holder, unlocked, pointed⟩
  · have referred : x ∈ (threads t).references h := Multiset.mem_add.mpr (Or.inl handle)
    have positive := Multiset.count_pos.mpr (Counted.referenced referred)
    omega
  · have outside : p ∈ holders \ region := by
      refine Finset.mem_sdiff.mpr ⟨holder, fun inside => ?_⟩
      rw [(held.kept p inside).1] at unlocked
      exact absurd unlocked (by simp)
    have positive : 0 < slots (holders \ region) h.pointers x := slots_pos.mpr ⟨p, outside, pointed⟩
    omega

end RegionHeld

/-- A count that the collector has read: it covers the pointers from the
region, and if there were no other references then there are none now. -/
def Settled (pointers : Address → Multiset Address) (region : Finset Address) (h : Heap) (value : Address → Nat)
    (x : Address) : Prop :=
  slots region pointers x ≤ value x ∧ (value x = slots region pointers x → (h x).count = slots region pointers x)

/-- What holds of the collector's maps at each of its points. -/
def Collector.Sound (start : Heap) (region : Finset Address) (h : Heap) (c : Collector) : Prop :=
  match c.point with
  | .readRoot => (∀ o, c.marking.color o = .red) ∧ c.marking.checkObjects = []
  | .gray currentObject i => ∃ value visited,
    GrayPhase start.pointers c.root value visited currentObject ((start currentObject).remaining i) c.marking ∧
      ∀ x, c.marking.color x = .gray → Settled start.pointers region h value x
  | .color currentObject currentObjectColor i => ∃ value left,
    ColorPhase start.pointers c.root region (external region start.pointers value) left currentObject currentObjectColor
      ((start currentObject).remaining i) c.marking ∧
      (∀ x ∈ region, Settled start.pointers region h value x) ∧ ∀ x, x ∉ region → c.marking.color x = .red
  | .done => ∃ value, (∀ x ∈ region, c.marking.color x = .white ↔
      ¬Supported start.pointers region (external region start.pointers value) x) ∧
      (∀ x ∈ region, Settled start.pointers region h value x) ∧ ∀ x, x ∉ region → c.marking.color x = .red

/-- The collector has read nothing that a thread can make wrong. -/
theorem Collector.Sound.change {start h h' : Heap} {region : Finset Address} {c : Collector}
    (sound : c.Sound start region h) (seen : ∀ x, c.marking.color x = .gray → x ∈ region)
    (stable : ∀ x ∈ region, (h x).count = slots region start.pointers x → (h' x).count = slots region start.pointers x) :
    c.Sound start region h' := by
  have settled {value : Address → Nat} {x : Address} (member : x ∈ region)
      (before : Settled start.pointers region h value x) : Settled start.pointers region h' value x :=
    ⟨before.1, fun closed => stable x member (before.2 closed)⟩
  obtain ⟨root, point, marking⟩ := c
  cases point with
  | readRoot => exact sound
  | gray currentObject i =>
    obtain ⟨value, visited, phase, read⟩ := sound
    exact ⟨value, visited, phase, fun x gray => settled (seen x gray) (read x gray)⟩
  | color currentObject currentObjectColor i =>
    obtain ⟨value, left, phase, read, outside⟩ := sound
    exact ⟨value, left, phase, fun x member => settled member (read x member), outside⟩
  | done =>
    obtain ⟨value, white, read, outside⟩ := sound
    exact ⟨value, white, fun x member => settled member (read x member), outside⟩

/-- The region, and what the run of the lock phase makes of it. -/
structure LockedBelow (start : Heap) (root : Address) (region : Finset Address) : Prop where
  whole : ∀ x, x ∈ region ↔ Reach start.pointers root x
  cycle : TransGen (fun p q => q ∈ start.pointers p) root root

namespace LockedBelow
variable {start h : Heap} {root : Address} {region holders : Finset Address} {c : Collector}

theorem root_mem (below : LockedBelow start root region) : root ∈ region := (below.whole root).mpr .refl

theorem closed (below : LockedBelow start root region) (x : Address) (member : x ∈ region) (y : Address)
    (pointed : y ∈ start.pointers x) : y ∈ region :=
  (below.whole y).mpr (((below.whole x).mp member).tail pointed)

/-- The root is on a cycle, so a pointer from the region leads to each of its
objects. -/
theorem entered (below : LockedBelow start root region) (x : Address) (member : x ∈ region) :
    0 < slots region start.pointers x := by
  have cycle : TransGen (fun p q => q ∈ start.pointers p) root x := below.cycle.trans_left ((below.whole x).mp member)
  obtain ⟨p, path, pointed⟩ := TransGen.tail'_iff.mp cycle
  exact slots_pos.mpr ⟨p, (below.whole p).mpr path, pointed⟩

theorem gray_mem (below : LockedBelow start c.root region) (sound : c.Sound start region h) (x : Address)
    (gray : c.marking.color x = .gray) : x ∈ region := by
  obtain ⟨root, point, marking⟩ := c
  dsimp only at below gray
  by_contra outside
  have red : marking.color x ≠ .red := by simp [gray]
  cases point with
  | readRoot => exact red (sound.1 x)
  | gray currentObject i =>
    obtain ⟨value, visited, phase, _⟩ := sound
    exact outside ((below.whole x).mpr (phase.sound x gray))
  | color currentObject currentObjectColor i =>
    obtain ⟨value, left, _, _, unseen⟩ := sound
    exact red (unseen x outside)
  | done =>
    obtain ⟨value, _, _, unseen⟩ := sound
    exact red (unseen x outside)

end LockedBelow

theorem grayField_gray {h : Heap} {s : Marking} {w x : Address} (gray : (grayField h s w).color x = .gray) :
    s.color x = .gray ∨ s.color w ≠ .gray ∧ x = w := by
  unfold grayField at gray
  by_cases null : w = 0
  · rw [if_pos null] at gray
    exact Or.inl gray
  · rw [if_neg null] at gray
    by_cases marked : s.color w = .gray
    · rw [if_pos marked] at gray
      dsimp only at gray
      split at gray <;> exact Or.inl gray
    · rw [if_neg marked] at gray
      by_cases here : x = w
      · exact Or.inr ⟨marked, here⟩
      · exact Or.inl (by simpa [here] using gray)

theorem colorField_color_of_ne {currentObjectColor : ObjectColor} {s : Marking} {w x : Address} (different : x ≠ w) :
    (colorField currentObjectColor s w).color x = s.color x := by
  unfold colorField
  split
  · rfl
  · cases currentObjectColor <;> dsimp only
    · split
      · split <;> simp [different]
      · split <;> simp [different]
    · split <;> simp [different]

theorem colorRoot_color_of_ne {root x : Address} {s : Marking} (different : x ≠ root) :
    (colorRoot root s).color x = s.color x := by
  unfold colorRoot
  split <;> simp [different]

/-- One step of the collector. -/
theorem Collector.Sound.advance {start h : Heap} {region : Finset Address} {c c' : Collector}
    (sound : c.Sound start region h) (below : LockedBelow start c.root region)
    (same : ∀ x ∈ region, (h x).fields = (start x).fields)
    (covered : ∀ x ∈ region, slots region start.pointers x ≤ (h x).count) (run : c.advance h = some c') :
    c'.Sound start region h ∧ c'.root = c.root := by
  obtain ⟨root, point, marking⟩ := c
  dsimp only at below
  have fresh (x : Address) (member : x ∈ region) {value : Address → Nat} (read : value x = (h x).count) :
      Settled start.pointers region h value x := ⟨read ▸ covered x member, fun closed => read ▸ closed⟩
  cases point with
  | readRoot =>
    obtain ⟨red, empty⟩ := sound
    obtain rfl := by simpa [Collector.advance] using run
    refine ⟨⟨fun o => (h o).count, {root}, GrayPhase.start red empty, fun x gray => ?_⟩, rfl⟩
    have here : x = root := by
      by_contra different
      simp [different, red] at gray
    exact here ▸ fresh root below.root_mem rfl
  | gray currentObject i =>
    obtain ⟨value, visited, phase, read⟩ := sound
    dsimp only at phase read
    have inside : visited ⊆ region := fun x member =>
      (below.whole x).mpr (phase.sound x ((phase.seen_iff x).mpr (Or.inl member)))
    have current : currentObject ∈ region := inside phase.current_mem
    have fields := same currentObject current
    have field : (h currentObject).field i = (start currentObject).field i := by
      rw [HeapObject.field, HeapObject.field, fields]
    by_cases bound : i < (h currentObject).fields.length
    · obtain rfl := by simpa [Collector.advance, bound] using run
      refine ⟨?_, rfl⟩
      rw [field]
      by_cases null : (start currentObject).field i = 0
      · rw [HeapObject.remaining_null null] at phase
        rw [null]
        exact ⟨value, visited, phase, read⟩
      · rw [HeapObject.remaining_step null] at phase
        generalize (start currentObject).field i = w at null phase ⊢
        have member : w ∈ region := below.closed currentObject current w phase.toTallied.toSearch.pointed
        have enough (gray : marking.color w = .gray) : slots visited start.pointers w ≤ value w :=
          (Finset.sum_le_sum_of_subset inside).trans (read w gray).1
        have counted : (h w).count ≠ 0 :=
          Nat.ne_zero_of_lt (Nat.lt_of_lt_of_le (below.entered w member) (covered w member))
        refine ⟨_, visited, phase.field null enough counted, fun x gray => ?_⟩
        rcases grayField_gray gray with before | ⟨unmarked, rfl⟩
        · by_cases marked : marking.color w = .gray
          · rw [readCount, if_pos marked]
            exact read x before
          · have different : x ≠ w := fun here => marked (here ▸ before)
            rw [readCount, if_neg marked, Settled, Function.update_of_ne different]
            exact read x before
        · rw [readCount, if_neg unmarked]
          exact fresh x member (Function.update_self ..)
    · rw [fields] at bound
      rw [HeapObject.remaining_of_le (Nat.le_of_not_lt bound)] at phase
      cases stack : marking.checkObjects with
      | nil =>
        obtain rfl := by simpa [Collector.advance, fields, bound, stack] using run
        have gray := phase.finish stack below.whole
        have start := ColorPhase.start gray below.root_mem
        refine ⟨⟨value, _, start, fun x member => read x ?_, fun x outside => ?_⟩, rfl⟩
        · exact ((gray.gray x).resolve_left fun red => red.2 member).1
        · dsimp only
          rw [colorRoot_color_of_ne fun here : x = root => outside (here ▸ below.root_mem)]
          exact ((gray.gray x).resolve_right fun inside => outside inside.2).1
      | cons next rest =>
        obtain rfl := by simpa [Collector.advance, fields, bound, stack] using run
        have tallied := phase.toTallied
        rw [stack] at tallied
        exact ⟨⟨value, _, { tallied.next with colors := phase.colors }, read⟩, rfl⟩
  | color currentObject currentObjectColor i =>
    obtain ⟨value, left, phase, read, outside⟩ := sound
    dsimp only at phase read outside
    have current : currentObject ∈ region := phase.current_mem
    have fields := same currentObject current
    have field : (h currentObject).field i = (start currentObject).field i := by
      rw [HeapObject.field, HeapObject.field, fields]
    by_cases bound : i < (h currentObject).fields.length
    · obtain rfl := by simpa [Collector.advance, bound] using run
      refine ⟨?_, rfl⟩
      rw [field]
      by_cases null : (start currentObject).field i = 0
      · rw [HeapObject.remaining_null null] at phase
        rw [null]
        exact ⟨value, left, phase, read, outside⟩
      · rw [HeapObject.remaining_step null] at phase
        generalize (start currentObject).field i = w at null phase ⊢
        have pointed : w ∈ start.pointers currentObject :=
          phase.rest_mem w (Multiset.mem_add.mpr (Or.inl (Multiset.mem_singleton_self w)))
        have member : w ∈ region := below.closed currentObject current w pointed
        refine ⟨value, left, phase.field below.closed null, read, fun x notInside => ?_⟩
        dsimp only
        rw [colorField_color_of_ne fun here : x = w => notInside (here ▸ member)]
        exact outside x notInside
    · rw [fields] at bound
      rw [HeapObject.remaining_of_le (Nat.le_of_not_lt bound)] at phase
      cases stack : marking.checkObjects with
      | nil =>
        obtain rfl := by simpa [Collector.advance, fields, bound, stack] using run
        have coloured := phase.toColoured
        rw [stack] at coloured
        exact ⟨⟨value, fun x member => (coloured.complete (fun x inside => (below.whole x).mp inside) member).2, read,
          outside⟩, rfl⟩
      | cons next rest =>
        obtain rfl := by simpa [Collector.advance, fields, bound, stack] using run
        exact ⟨⟨value, _, phase.next stack, read, outside⟩, rfl⟩
  | done => exact absurd run (by simp [Collector.advance])

/-- The collector has locked `region`, everything below a root that lies on a
cycle, and has coloured nothing yet. -/
structure LockedStart {ι : Type} [Fintype ι] (holders region : Finset Address) (c : LockedConfig ι) : Prop where
  counted : Counted holders c.memory.heap c.threads
  root : c.collector.root ∈ holders
  below : LockedBelow c.memory.heap c.collector.root region
  locked : ∀ x ∈ region, (c.memory.heap x).lockFlag = true
  point : c.collector.point = .readRoot
  red : ∀ o, c.collector.marking.color o = .red
  stack : c.collector.marking.checkObjects = []

/-- What every interleaving keeps. -/
structure LockedInvariant {ι : Type} [Fintype ι] (start : Heap) (region holders : Finset Address) (c : LockedConfig ι) :
    Prop where
  counted : Counted holders c.memory.heap c.threads
  held : RegionHeld start region holders c.memory.heap
  below : LockedBelow start c.collector.root region
  sound : c.collector.Sound start region c.memory.heap

namespace LockedInvariant
variable {ι : Type} [Fintype ι] [DecidableEq ι] {start : Heap} {region holders : Finset Address} {c c' : LockedConfig ι}

omit [DecidableEq ι] in
theorem initial (locked : LockedStart holders region c) : LockedInvariant c.memory.heap region holders c where
  counted := locked.counted
  held := by
    refine ⟨fun x member => ?_, fun x member => ⟨locked.locked x member, rfl, rfl⟩⟩
    exact ((locked.below.whole x).mp member).mem (· ∈ holders) locked.root locked.counted.exact.pointers_mem
  below := locked.below
  sound := by
    rw [Collector.Sound, locked.point]
    exact ⟨locked.red, locked.stack⟩

theorem step (invariant : LockedInvariant start region holders c) (step : LockedStep c c') :
    ∃ holders', LockedInvariant start region holders' c' := by
  obtain ⟨counted, held, below, sound⟩ := invariant
  cases step with
  | mutator t step =>
    obtain ⟨holders', change⟩ := (counted.view t).step step
    have kept := held.change counted below.entered change
    refine ⟨holders', counted.change change, kept, below, sound.change (below.gray_mem sound) fun x member => ?_⟩
    exact held.stable counted change kept member
  | collector run =>
    have covered (x : Address) (member : x ∈ region) :
        slots region start.pointers x ≤ (c.memory.heap x).count := by
      rw [held.count_eq counted member]
      exact Nat.le_add_left _ _
    obtain ⟨next, root⟩ := sound.advance below (fun x member => (held.kept x member).2.1) covered run
    exact ⟨holders, counted, held, root ▸ below, next⟩

theorem steps (invariant : LockedInvariant start region holders c) (run : ReflTransGen LockedStep c c') :
    ∃ holders', LockedInvariant start region holders' c' := by
  induction run with
  | refl => exact ⟨holders, invariant⟩
  | tail _ step ih =>
    obtain ⟨_, before⟩ := ih
    exact before.step step

omit [DecidableEq ι] in
/-- At the end a white object has no reference from outside the region. -/
theorem white_closed (invariant : LockedInvariant start region holders c) (done : c.collector.point = .done)
    {x : Address} (white : c.collector.marking.color x = .white) : x ∈ region ∧
    (c.memory.heap x).count = slots region start.pointers x ∧
      ∀ o ∈ region, x ∈ start.pointers o → c.collector.marking.color o = .white := by
  have sound := invariant.sound
  rw [Collector.Sound, done] at sound
  obtain ⟨value, whites, settled, outside⟩ := sound
  have member : x ∈ region := by
    by_contra away
    rw [outside x away] at white
    exact absurd white (by simp)
  have unsupported := (whites x member).mp white
  have closed : external region start.pointers value x = 0 := by
    by_contra nonzero
    exact unsupported ⟨x, member, nonzero, .refl⟩
  obtain ⟨covered, stable⟩ := settled x member
  refine ⟨member, stable ?_, fun o inside pointed => (whites o inside).mpr fun supported => ?_⟩
  · rw [external] at closed
    omega
  · exact unsupported (Coloured.supported_step supported pointed)

end LockedInvariant

/-- The collector alone goes on as far as it can. -/
theorem LockedStep.collects {ι : Type} [DecidableEq ι] (c : LockedConfig ι) (n : Nat) :
    ReflTransGen LockedStep c
      { c with collector := (fun k : Collector => (k.advance c.memory.heap).getD k)^[n] c.collector } := by
  induction n with
  | zero => exact .refl
  | succ n ih =>
    rw [Function.iterate_succ_apply']
    cases next : Collector.advance c.memory.heap ((fun k : Collector => (k.advance c.memory.heap).getD k)^[n] c.collector) with
    | none => exact ih
    | some collector => exact ih.tail (.collector next)

end CatLa
