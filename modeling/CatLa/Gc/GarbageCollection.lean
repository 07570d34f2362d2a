import CatLa.Gc.CascadeOutcome
import CatLa.Gc.RootCollection

namespace CatLa
open CountedGraph FuelLoop GraphSearch Relation

theorem Released.refl {holders : Finset Address} {h : Heap} {refs : Multiset Address} (exact : Exact holders h refs)
    (live : ∀ o ∈ holders, (h o).state = .live) : Released holders holders h h refs where
  exact := exact
  evolves := .refl ..
  live := live
  gone := ⟨∅, .empty h, fun _ member => member.elim, fun _ member outside => absurd member outside⟩

theorem Released.trans {start holders holders' : Finset Address} {before h h' : Heap} {refs refs' : Multiset Address}
    (first : Released start holders before h refs) (second : Released holders holders' h h' refs') :
    Released start holders' before h' refs' := by
  obtain ⟨tree, waiting, inTree, covered⟩ := first.gone
  obtain ⟨tree', waiting', inTree', covered'⟩ := second.gone
  have old (o : Address) (outside : o ∉ holders) : h' o = h o := second.evolves.settled o outside List.not_mem_nil
  refine ⟨second.exact, first.evolves.trans second.evolves fun _ member => absurd member List.not_mem_nil, second.live,
    tree ∪ tree', (waiting.congr fun o member => old o (inTree o member).2).union waiting', ?_, fun o member outside => ?_⟩
  · rintro o (member | member)
    · exact ⟨(inTree o member).1, fun again => (inTree o member).2 (second.evolves.shrink again)⟩
    · exact ⟨first.evolves.shrink (inTree' o member).1, (inTree' o member).2⟩
  · by_cases holder : o ∈ holders
    · exact (covered' o holder outside).imp_left Or.inr
    · rw [old o holder]
      exact (covered o member holder).imp_left Or.inl

/-- The pointers of the objects on a list that lead out of a set: the release
phase drops them. -/
def outgoing (h : Heap) (objects todo : List Address) : Multiset Address :=
  (todo.map fun o => (h o).pointers.filter (· ∉ objects)).sum

/-- The release phase at any point; `pending` are the pointers that it still
has to drop. -/
structure ReleasePass (marked : Heap) (objects : List Address) (start : Finset Address) (handles pending : Multiset Address)
    (s : ReleasePhase) : Prop where
  released : ∃ holders, Released start holders marked s.heap (pending + handles) ∧
    ∀ stay : Set Address, (∀ o ∈ stay, o ∈ start) → Sustained marked.pointers handles stay → ∀ o ∈ stay, o ∈ holders
  nodup : s.roots.Nodup
  list : s.suspectedObjectList = []

/-- One field of a released object. -/
theorem ReleasePass.child {marked : Heap} {objects : List Address} {start : Finset Address}
    {handles pending : Multiset Address} {s : ReleasePhase} {object : Address} {i : Nat}
    (pass : ReleasePass marked objects start handles (((marked object).remaining i).filter (· ∉ objects) + pending) s)
    (inside : object ∈ objects) (outside : ∀ o ∈ objects, o ∉ start ∧ (marked o).state = .waitingForGc) :
    ∃ s', Returns (fun fuel => releaseChild fuel object s i) s' ∧ s'.roots = s.roots ∧
      ReleasePass marked objects start handles (((marked object).remaining (i + 1)).filter (· ∉ objects) + pending) s' := by
  obtain ⟨holders, released, spared⟩ := pass.released
  have same (o : Address) (member : o ∈ objects) : s.heap o = marked o :=
    released.evolves.settled o (outside o member).1 List.not_mem_nil
  by_cases null : (marked object).field i = 0
  · refine ⟨s, .of_eq (fun _ => ?_), rfl, ?_⟩
    · simp only [releaseChild, same object inside, null, if_true]
    · rw [← HeapObject.remaining_null null]
      exact pass
  have step := HeapObject.remaining_step null
  generalize atField : (marked object).field i = w at null step
  by_cases member : w ∈ objects
  · refine ⟨s, .of_eq (fun _ => ?_), rfl, ?_⟩
    · simp only [releaseChild, same object inside, atField, null, if_false, same w member, (outside w member).2,
        reduceCtorEq]
    · rw [step, Multiset.filter_add, Multiset.filter_singleton, if_neg (not_not.mpr member), Multiset.empty_eq_zero,
        zero_add] at pass
      exact pass
  · rw [step, Multiset.filter_add, Multiset.filter_singleton, if_pos member] at released
    have exact := released.exact
    rw [add_assoc, add_assoc] at exact
    have holder : w ∈ holders := exact.refs_mem w (Multiset.mem_add.mpr (Or.inl (Multiset.mem_singleton_self w)))
    obtain ⟨h', run, holders', next, sustain⟩ := returns_decrement_sustained exact released.live
    refine ⟨{ s with heap := h' }, (run.map fun heap => { s with heap := heap }).congr fun fuel => ?_, rfl,
      ⟨holders', ?_, fun stay began sustained => ?_⟩, pass.nodup, pass.list⟩
    · simp only [releaseChild, same object inside, atField, null, if_false, released.live w holder, if_true]
    · rw [← add_assoc] at next
      exact released.trans next
    · have left := spared stay began sustained
      refine sustain stay left (sustained.congr (fun p member => released.evolves.pointers_eq (left p member)) fun y held => ?_)
      exact Multiset.mem_add.mpr (Or.inr (Multiset.mem_add.mpr (Or.inr held)))

/-- One object of the release phase. -/
theorem ReleasePass.object {marked : Heap} {objects todo : List Address} {start : Finset Address}
    {handles : Multiset Address} {s : ReleasePhase} {object : Address}
    (pass : ReleasePass marked objects start handles (outgoing marked objects (object :: todo)) s)
    (inside : object ∈ objects) (outside : ∀ o ∈ objects, o ∉ start ∧ (marked o).state = .waitingForGc) :
    ∃ s', Returns (fun fuel => releaseObject fuel s object) s' ∧
      (∀ o, o ∈ s'.roots ↔ o ≠ object ∧ o ∈ s.roots) ∧
      ReleasePass marked objects start handles (outgoing marked objects todo) s' := by
  obtain ⟨holders, released, spared⟩ := pass.released
  have same : s.heap object = marked object :=
    released.evolves.settled object (outside object inside).1 List.not_mem_nil
  have entered : ReleasePass marked objects start handles
      (((marked object).remaining 0).filter (· ∉ objects) + outgoing marked objects todo)
      { s with roots := s.roots.erase object } := by
    refine ⟨⟨holders, ?_, spared⟩, pass.nodup.erase object, pass.list⟩
    rw [outgoing, List.map_cons, List.sum_cons] at released
    exact released
  obtain ⟨s', run, roots, finished⟩ := returns_forRange (n := (marked object).fields.length)
    (fun i s' => s'.roots = s.roots.erase object ∧ ReleasePass marked objects start handles
      (((marked object).remaining i).filter (· ∉ objects) + outgoing marked objects todo) s')
    (fun i _ s' pass => by
      obtain ⟨roots, pass⟩ := pass
      obtain ⟨s'', run, same, next⟩ := pass.child inside outside
      exact ⟨s'', run, same.trans roots, next⟩)
    { s with roots := s.roots.erase object } ⟨rfl, entered⟩
  refine ⟨s', run.congr fun fuel => ?_, fun o => ?_, ?_⟩
  · have list : s.suspectedObjectList.erase object = s.suspectedObjectList := by rw [pass.list]; rfl
    simp only [releaseObject, list, same, ite_self]
  · rw [roots, pass.nodup.mem_erase_iff]
  · rwa [HeapObject.remaining_end, Multiset.filter_zero, zero_add] at finished

/-- The release phase returns. -/
theorem returns_releasePhase {marked : Heap} {objects : List Address} {start : Finset Address}
    {handles : Multiset Address} {s : ReleasePhase} (todo : List Address)
    (pass : ReleasePass marked objects start handles (outgoing marked objects todo) s)
    (inside : ∀ o ∈ todo, o ∈ objects) (outside : ∀ o ∈ objects, o ∉ start ∧ (marked o).state = .waitingForGc) :
    ∃ s', Returns (fun fuel => todo.foldlM (releaseObject fuel) s) s' ∧
      (∀ o, o ∈ s'.roots ↔ o ∈ s.roots ∧ o ∉ todo) ∧ ReleasePass marked objects start handles 0 s' := by
  induction todo generalizing s with
  | nil => exact ⟨s, .pure s, fun o => by simp, pass⟩
  | cons object todo ih =>
    obtain ⟨next, run, roots, pass⟩ := pass.object (inside object List.mem_cons_self) outside
    obtain ⟨s', rest, roots', finished⟩ := ih pass fun o member => inside o (List.mem_cons_of_mem _ member)
    refine ⟨s', (run.bind rest).congr fun _ => List.foldlM_cons .., fun o => ?_, finished⟩
    rw [roots', roots, List.mem_cons]
    tauto

/-- What a collection does to the live objects and to the garbage it finds. -/
structure Collected (m m' : GcState) (holders holders' : Finset Address) (handles : Multiset Address) : Prop where
  shrink : holders' ⊆ holders
  same : ∀ o ∈ holders', m'.heap o = { m.heap o with count := (m'.heap o).count }
  alive : ∀ o, (m'.heap o).state ≠ .dead → (m.heap o).state ≠ .dead ∧
    (m'.heap o).isCyclicType = (m.heap o).isCyclicType
  waiting : ∀ o, (m.heap o).state = .waitingForGc → (m'.heap o).state = .dead
  abandoned : ∀ r ∈ m.suspectedObjectList, r ∈ holders → Abandoned m.heap holders handles r → (m'.heap r).state = .dead
  secluded : ∀ o ∈ holders', ∀ r ∈ m.suspectedObjectList, r ∈ holders → ¬Secluded m.heap holders handles r o
  spared : ∀ stay : Set Address, Sustained m.heap.pointers handles stay →
    (∀ o ∈ stay, o ∈ holders ∧ ∀ r ∈ m.suspectedObjectList, r ∈ holders → ¬Secluded m.heap holders handles r o) →
      ∀ o ∈ stay, o ∈ holders'

theorem Collected.kept {m m' : GcState} {holders holders' : Finset Address} {handles : Multiset Address}
    (collected : Collected m m' holders holders' handles) (o : Address) (member : o ∈ holders') :
    (m'.heap o).fields = (m.heap o).fields := by
  rw [collected.same o member]

/-- The loop over the roots returns, whatever the order. -/
theorem returns_collectRoots {m : GcState} {holders : Finset Address} {handles : Multiset Address}
    (consistent : Consistent m holders handles) (roots : List Address) (listed : ∀ r ∈ roots, r ∈ m.suspectedObjectList)
    {visited : List Address} {s : CollectLoop} (collecting : Collecting m holders handles visited s) :
    ∃ s', Returns (fun fuel => roots.foldlM (collectRoot fuel) s) s' ∧
      Collecting m holders handles (roots.reverse ++ visited) s' := by
  induction roots generalizing visited s with
  | nil => exact ⟨s, .pure s, collecting⟩
  | cons root roots ih =>
    obtain ⟨next, run, collecting⟩ := collecting.root consistent (listed root List.mem_cons_self)
    obtain ⟨s', rest, finished⟩ := ih (fun r member => listed r (List.mem_cons_of_mem _ member)) collecting
    refine ⟨s', (run.bind rest).congr fun _ => List.foldlM_cons .., ?_⟩
    rwa [List.reverse_cons, List.append_assoc]

/-- What leads out of the released objects, counted over a list of them or
over those that were live. -/
theorem outgoing_eq {h : Heap} {holders : Finset Address} {objects todo : List Address} (perm : todo.Perm objects)
    (nodup : objects.Nodup) (closed : ∀ o ∈ holders, ∀ w ∈ h.pointers o, w ∈ holders)
    (sealed : ∀ o ∈ objects, o ∉ holders → ∀ w ∈ h.pointers o, w ∈ objects) :
    outgoing h objects todo = ∑ o ∈ holders.filter (· ∈ objects), (h.pointers o).filter (· ∉ holders.filter (· ∈ objects)) := by
  rw [outgoing, (perm.map _).sum_eq, ← List.sum_toFinset _ nodup]
  refine (Finset.sum_subset_zero_on_sdiff (fun o member => ?_) (fun o member => ?_) fun o member => ?_).symm
  · exact List.mem_toFinset.mpr (Finset.mem_filter.mp member).2
  · obtain ⟨inObjects, notGone⟩ := Finset.mem_sdiff.mp member
    have inObjects := List.mem_toFinset.mp inObjects
    have outside : o ∉ holders := fun holder => notGone (Finset.mem_filter.mpr ⟨holder, inObjects⟩)
    refine Multiset.filter_eq_nil.mpr fun w pointed => not_not.mpr (sealed o inObjects outside w pointed)
  · obtain ⟨holder, _⟩ := Finset.mem_filter.mp member
    refine Multiset.filter_congr fun w pointed => ?_
    rw [Finset.mem_filter]
    have := closed o holder w pointed
    tauto

/-- Where the release phase starts: every root has been looked at. -/
theorem Collecting.releasePass {m : GcState} {holders : Finset Address} {handles : Multiset Address}
    {visited todo : List Address} {c : CollectLoop} (collecting : Collecting m holders handles visited c)
    (consistent : Consistent m holders handles) (all : ∀ o, (m.heap o).state = .waitingForGc → o ∈ c.releaseObjects)
    (perm : todo.Perm c.releaseObjects) :
    ReleasePass c.heap c.releaseObjects (holders.filter (· ∉ c.releaseObjects)) handles
      (outgoing c.heap c.releaseObjects todo)
      { heap := c.heap, roots := m.suspectedObjectList, suspectedObjectList := [] } := by
  have pointers := collecting.heap.pointers
  have same (o : Address) : (c.heap o).pointers = (m.heap o).pointers := congrFun pointers o
  have exact : Exact holders c.heap handles := consistent.exact.congr (fun o _ => collecting.heap.count o) fun o _ => same o
  have discarded := exact.discard (Finset.filter_subset (· ∈ c.releaseObjects) holders)
    (fun o member => by
      obtain ⟨holder, released⟩ := Finset.mem_filter.mp member
      exact collecting.unreferenced o released holder)
    (fun p holder notGone o member pointed => by
      obtain ⟨live, released⟩ := Finset.mem_filter.mp member
      rw [same p] at pointed
      exact notGone (Finset.mem_filter.mpr ⟨holder, collecting.closed o released live p holder pointed⟩))
  have difference : holders \ holders.filter (· ∈ c.releaseObjects) = holders.filter (· ∉ c.releaseObjects) := by
    ext o
    rw [Finset.mem_sdiff, Finset.mem_filter, Finset.mem_filter]
    tauto
  rw [difference, ← outgoing_eq perm collecting.nodup exact.pointers_mem fun o released outside w pointed => ?_] at discarded
  · refine ⟨⟨_, .refl discarded fun o member => ?_, fun _ began _ => began⟩, consistent.nodup, rfl⟩
    obtain ⟨holder, kept⟩ := Finset.mem_filter.mp member
    rw [collecting.heap o, if_neg kept]
    exact (consistent.live o).mpr holder
  · have pointed : w ∈ (c.heap o).pointers := pointed
    rw [same o] at pointed
    have waiting := (collecting.origin o released).resolve_left outside
    exact all w (consistent.waiting.closed o waiting w pointed)

/-- The end of a collection: the released objects are dead, and the roots that
are left are suspected again. -/
theorem Consistent.collected {m : GcState} {holders : Finset Address} {handles : Multiset Address}
    (consistent : Consistent m holders handles) {visited todo remaining : List Address} {c : CollectLoop} {s : ReleasePhase}
    (collecting : Collecting m holders handles visited c) (everyRoot : ∀ r, r ∈ visited ↔ r ∈ m.suspectedObjectList)
    (all : ∀ o, (m.heap o).state = .waitingForGc → o ∈ c.releaseObjects) (perm : todo.Perm c.releaseObjects)
    (pass : ReleasePass c.heap c.releaseObjects (holders.filter (· ∉ c.releaseObjects)) handles 0 s)
    (roots : ∀ o, o ∈ s.roots ↔ o ∈ m.suspectedObjectList ∧ o ∉ todo) (rest : remaining.Perm s.roots) :
    let m' : GcState := { heap := todo.foldl (fun h o => h.modify o (·.setState .dead)) s.heap,
                          suspectedObjectList := remaining.foldl (fun list o => list.insert o) s.suspectedObjectList }
    ∃ holders', Consistent m' holders' handles ∧ Collected m m' holders holders' handles := by
  obtain ⟨holders', released, keeps⟩ := pass.released
  rw [zero_add] at released
  obtain ⟨tree, treeWaiting, inTree, covered⟩ := released.gone
  intro m'
  have heap (o : Address) : m'.heap o = if o ∈ c.releaseObjects then (s.heap o).setState .dead else s.heap o := by
    simp only [← perm.mem_iff]
    exact foldl_setState .dead todo s.heap o
  have dead (o : Address) (member : o ∈ c.releaseObjects) : (m'.heap o).state = .dead := by
    rw [heap, if_pos member]
    rfl
  have spared (o : Address) (outside : o ∉ c.releaseObjects) : m'.heap o = s.heap o ∧ c.heap o = m.heap o := by
    rw [heap, if_neg outside, collecting.heap o, if_neg outside]
    exact ⟨rfl, rfl⟩
  have startMem (o : Address) : o ∈ holders.filter (· ∉ c.releaseObjects) ↔ o ∈ holders ∧ o ∉ c.releaseObjects :=
    Finset.mem_filter
  have inStart (o : Address) (member : o ∈ holders') : o ∈ holders ∧ o ∉ c.releaseObjects :=
    (startMem o).mp (released.evolves.shrink member)
  have untouched (o : Address) (outside : o ∉ c.releaseObjects) (notHolder : o ∉ holders) : m'.heap o = m.heap o := by
    rw [(spared o outside).1, ← (spared o outside).2]
    exact released.evolves.settled o (fun member => notHolder ((startMem o).mp member).1) List.not_mem_nil
  have alive (o : Address) (notDead : (m'.heap o).state ≠ .dead) : (m.heap o).state ≠ .dead := by
    have outside : o ∉ c.releaseObjects := fun member => notDead (dead o member)
    by_cases holder : o ∈ holders
    · rw [(consistent.live o).mpr holder]
      simp
    · rwa [← untouched o outside holder]
  have header (o : Address) : (m'.heap o).asyncRelease = (m.heap o).asyncRelease ∧
      (m'.heap o).isCyclicType = (m.heap o).isCyclicType ∧ (m'.heap o).lockFlag = (m.heap o).lockFlag := by
    obtain ⟨async, cyclic, lock, _⟩ := released.evolves.header o
    have atEnd : (m'.heap o).asyncRelease = (s.heap o).asyncRelease ∧
        (m'.heap o).isCyclicType = (s.heap o).isCyclicType ∧ (m'.heap o).lockFlag = (s.heap o).lockFlag := by
      rw [heap]
      split <;> exact ⟨rfl, rfl, rfl⟩
    have atStart : (c.heap o).asyncRelease = (m.heap o).asyncRelease ∧
        (c.heap o).isCyclicType = (m.heap o).isCyclicType ∧ (c.heap o).lockFlag = (m.heap o).lockFlag := by
      rw [collecting.heap o]
      split <;> exact ⟨rfl, rfl, rfl⟩
    exact ⟨atEnd.1.trans (async.trans atStart.1), atEnd.2.1.trans (cyclic.trans atStart.2.1),
      atEnd.2.2.trans (lock.trans atStart.2.2)⟩
  have kept (o : Address) (member : o ∈ holders') :
      m'.heap o = { m.heap o with count := (m'.heap o).count } ∧ (m'.heap o).count ≤ (m.heap o).count := by
    obtain ⟨same, origin⟩ := spared o (inStart o member).2
    rw [same, ← origin]
    exact released.evolves.kept o member
  -- a live object that is neither kept nor released waits, or it was freed at once
  have lost (o : Address) (holder : o ∈ holders) (outside : o ∉ c.releaseObjects) (gone : o ∉ holders') :
      o ∈ tree ∨ (m'.heap o).state = .dead ∧ ¬(m'.heap o).Suspected := by
    rw [(spared o outside).1]
    exact covered o ((startMem o).mpr ⟨holder, outside⟩) gone
  have atTree (o : Address) (member : o ∈ tree) : m'.heap o = s.heap o ∧ o ∈ holders := by
    obtain ⟨holder, outside⟩ := (startMem o).mp (inTree o member).1
    exact ⟨(spared o outside).1, holder⟩
  have waitingSet : {o | (m'.heap o).state = .waitingForGc} = tree := by
    ext o
    constructor
    · intro state
      have state : (m'.heap o).state = .waitingForGc := state
      have outside : o ∉ c.releaseObjects := fun member => by simp [dead o member] at state
      by_cases holder : o ∈ holders
      · by_cases stays : o ∈ holders'
        · have live := (consistent.live o).mpr holder
          rw [(kept o stays).1] at state
          exact absurd (live.symm.trans state) (by simp)
        · refine (lost o holder outside stays).resolve_right fun freed => ?_
          exact absurd (freed.1.symm.trans state) (by simp)
      · rw [untouched o outside holder] at state
        exact absurd (all o state) outside
    · intro member
      show (m'.heap o).state = .waitingForGc
      rw [(atTree o member).1]
      exact treeWaiting.state o member
  have listMem (o : Address) : o ∈ m'.suspectedObjectList ↔ o ∈ m.suspectedObjectList ∧ o ∉ c.releaseObjects := by
    show o ∈ remaining.foldl (fun list o => list.insert o) s.suspectedObjectList ↔ _
    rw [mem_foldl_insert, pass.list, rest.mem_iff, roots, perm.mem_iff]
    simp
  have stays (stay : Set Address) (sustained : Sustained m.heap.pointers handles stay)
      (began : ∀ o ∈ stay, o ∈ holders ∧ ∀ r ∈ m.suspectedObjectList, r ∈ holders → ¬Secluded m.heap holders handles r o) :
      ∀ o ∈ stay, o ∈ holders' := by
    refine keeps stay (fun o member => (startMem o).mpr ⟨(began o member).1, fun found => ?_⟩) ?_
    · obtain ⟨r, visited, live, secluded⟩ := collecting.secluded o found (began o member).1
      exact (began o member).2 r ((everyRoot r).mp visited) live secluded
    · rwa [collecting.heap.pointers]
  refine ⟨holders', ?_, ⟨fun o member => (inStart o member).1, fun o member => (kept o member).1,
    fun o notDead => ⟨alive o notDead, (header o).2.1⟩, fun o waiting => dead o (all o waiting),
    fun r listed live abandoned => dead r (collecting.found r ((everyRoot r).mpr listed) live r abandoned.secluded),
    fun o member r listed live secluded =>
      (inStart o member).2 (collecting.found r ((everyRoot r).mpr listed) live o secluded),
    stays⟩⟩
  refine consistent.shrink m' ?_ (fun o member => (inStart o member).1) kept (fun o outside => ?_) header alive ?_ ?_
    fun o => ?_
  · refine released.exact.congr (fun o member => ?_) fun o member => ?_
    · rw [(spared o (inStart o member).2).1]
    · rw [(spared o (inStart o member).2).1]
  · by_cases member : o ∈ c.releaseObjects
    · exact Or.inr (dead o member)
    · by_cases holder : o ∈ holders
      · rcases lost o holder member outside with waits | freed
        · rw [(atTree o waits).1]
          exact Or.inl (treeWaiting.state o waits)
        · exact Or.inr freed.1
      · rw [untouched o member holder]
        cases state : (m.heap o).state with
        | dead => exact Or.inr rfl
        | live => exact absurd ((consistent.live o).mp state) holder
        | processGc => exact absurd state (consistent.idle o)
        | waitingForGc => exact Or.inl rfl
  · rw [waitingSet]
    exact treeWaiting.congr fun o member => (atTree o member).1
  · have empty : s.suspectedObjectList.Nodup := by
      rw [pass.list]
      exact List.nodup_nil
    exact nodup_foldl_insert remaining empty
  · rw [listMem, consistent.listed, (header o).1, and_right_comm]
    refine and_congr_left fun async => ⟨?_, fun notDead => ⟨alive o notDead, fun member => notDead (dead o member)⟩⟩
    rintro ⟨notDead, outside⟩ deadNow
    -- a suspected object that was not released is not freed either
    by_cases holder : o ∈ holders
    · by_cases stays : o ∈ holders'
      · rw [(kept o stays).1] at deadNow
        exact notDead deadNow
      · rcases lost o holder outside stays with waits | ⟨_, unsuspected⟩
        · rw [(atTree o waits).1, treeWaiting.state o waits] at deadNow
          exact absurd deadNow (by simp)
        · have suspected := (consistent.suspected_iff notDead).mpr async
          refine unsuspected ⟨?_, ?_⟩
          · rw [(header o).2.1]
            exact suspected.1
          · rw [(header o).1]
            exact async
    · rw [untouched o outside holder] at deadNow
      exact notDead deadNow

/-- `gc_collect` returns, whatever the iteration orders, and keeps the
invariant. -/
theorem returns_gcCollect {m : GcState} {holders : Finset Address} {handles : Multiset Address}
    (consistent : Consistent m holders handles) (rootOrder releaseOrder : IterationOrder) :
    ∃ m', Returns (fun fuel => gcCollect rootOrder releaseOrder fuel m) m' ∧
      ∃ holders', Consistent m' holders' handles ∧ Collected m m' holders holders' handles := by
  obtain ⟨c, collectRun, collecting⟩ := returns_collectRoots consistent (rootOrder.arrange m.suspectedObjectList)
    (fun r member => (rootOrder.perm _).mem_iff.mp member) (.start m holders handles)
  have everyRoot (r : Address) : r ∈ (rootOrder.arrange m.suspectedObjectList).reverse ++ [] ↔
      r ∈ m.suspectedObjectList := by
    rw [List.append_nil, List.mem_reverse]
    exact (rootOrder.perm _).mem_iff
  have all (o : Address) (waiting : (m.heap o).state = .waitingForGc) : o ∈ c.releaseObjects := by
    obtain ⟨r, atR, suspected, path⟩ := consistent.waiting.rooted o waiting
    have atR : (m.heap r).state = .waitingForGc := atR
    have listed : r ∈ m.suspectedObjectList := (consistent.listed r).mpr ⟨by simp [atR], suspected.2⟩
    exact collecting.waiting r ((everyRoot r).mpr listed) atR o (ReflTransGen.mono (fun p q edge => edge.2) _ _ path)
  have perm := releaseOrder.perm c.releaseObjects
  have outside (o : Address) (member : o ∈ c.releaseObjects) :
      o ∉ holders.filter (· ∉ c.releaseObjects) ∧ (c.heap o).state = .waitingForGc := by
    refine ⟨fun kept => (Finset.mem_filter.mp kept).2 member, ?_⟩
    rw [collecting.heap o, if_pos member]
    rfl
  obtain ⟨s, releaseRun, roots, pass⟩ := returns_releasePhase (releaseOrder.arrange c.releaseObjects)
    (collecting.releasePass consistent all perm) (fun o member => perm.mem_iff.mp member) outside
  exact ⟨_, collectRun.bind (releaseRun.bind (.pure _)),
    consistent.collected collecting everyRoot all perm pass roots (rootOrder.perm s.roots)⟩

end CatLa
