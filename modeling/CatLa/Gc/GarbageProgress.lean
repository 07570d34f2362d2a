import CatLa.Gc.CollectorRuns

namespace CatLa
open CountedGraph FuelLoop GraphSearch Relation

/-- An object that is not dead, though no handle leads to it. -/
def Garbage (m : GcState) (handles : Multiset Address) (o : Address) : Prop :=
  (m.heap o).state ≠ .dead ∧ ¬Held m handles o

namespace Consistent
variable {m : GcState} {holders : Finset Address} {handles : Multiset Address} {o p : Address}

theorem garbage_finite (consistent : Consistent m holders handles) : {o | Garbage m handles o}.Finite := by
  refine ((Finset.finite_toSet holders).union consistent.waitingFinite).subset fun o garbage => ?_
  exact consistent.state_cases garbage.1

theorem waiting_garbage (consistent : Consistent m holders handles) (waiting : (m.heap o).state = .waitingForGc) :
    Garbage m handles o := by
  refine ⟨by simp [waiting], fun held => ?_⟩
  obtain ⟨x, handle, path⟩ := held_iff.mp held
  have live := (consistent.live o).mpr (consistent.reach_holders (consistent.exact.refs_mem x handle) path)
  exact absurd (live.symm.trans waiting) (by simp)

/-- What points to garbage is garbage. -/
theorem garbage_closed (consistent : Consistent m holders handles) (garbage : Garbage m handles o) (owner : p ∈ holders)
    (pointed : o ∈ m.heap.pointers p) : Garbage m handles p := by
  refine ⟨by simp [(consistent.live p).mpr owner], fun held => garbage.2 ?_⟩
  obtain ⟨x, handle, path⟩ := held_iff.mp held
  exact held_iff.mpr ⟨x, handle, path.tail pointed⟩

theorem garbage_unreferenced (garbage : Garbage m handles o) : o ∉ handles := fun handle =>
  garbage.2 (held_iff.mpr ⟨o, handle, .refl⟩)

/-- Live garbage is pointed to by live garbage. -/
theorem garbage_predecessor (consistent : Consistent m holders handles) (garbage : Garbage m handles o)
    (member : o ∈ holders) : ∃ p ∈ holders, o ∈ m.heap.pointers p := by
  have exact := consistent.exact.count_eq o member
  have positive := consistent.exact.positive o member
  have unreferenced : handles.count o = 0 := Multiset.count_eq_zero.mpr (garbage_unreferenced garbage)
  have slot : 0 < slots holders (fun p => (m.heap p).pointers) o := by omega
  obtain ⟨p, owner, pointed⟩ := slots_pos.mp slot
  exact ⟨p, owner, pointed⟩

/-- When all garbage is live, and of cyclic type where it lies on a cycle, some
suspected object is abandoned: it is in a component that nothing else leads
to. -/
theorem exists_abandoned (consistent : Consistent m holders handles)
    (cyclic : ∀ o, TransGen (fun p q => p ∈ holders ∧ q ∈ m.heap.pointers p) o o → (m.heap o).isCyclicType = true)
    (allLive : ∀ o, Garbage m handles o → o ∈ holders) (some : {o | Garbage m handles o}.Nonempty) :
    ∃ r ∈ m.suspectedObjectList, r ∈ holders ∧ Garbage m handles r ∧ Abandoned m.heap holders handles r := by
  let edge : Address → Address → Prop := fun p q => p ∈ holders ∧ q ∈ m.heap.pointers p
  have closed (x : Address) (garbage : Garbage m handles x) (p : Address) (into : edge p x) : Garbage m handles p :=
    consistent.garbage_closed garbage into.1 into.2
  obtain ⟨x, garbage, cycle, ancestors⟩ := exists_source (r := edge) consistent.garbage_finite some
    (fun x garbage => by
      obtain ⟨p, owner, pointed⟩ := consistent.garbage_predecessor garbage (allLive x garbage)
      exact ⟨p, consistent.garbage_closed garbage owner pointed, owner, pointed⟩) closed
  have above (y : Address) (path : ReflTransGen edge y x) : Garbage m handles y := by
    induction path using ReflTransGen.head_induction_on with
    | refl => exact garbage
    | head into _ ih => exact closed _ ih _ into
  have around (s : Address) (fromX : ReflTransGen edge x s) (toX : ReflTransGen edge s x) : TransGen edge s s :=
    TransGen.trans_right toX (TransGen.trans_left cycle fromX)
  -- a plain cycle is impossible, so the cycle through `x` has a suspected object
  obtain ⟨s, fromX, toX, async⟩ : ∃ s, ReflTransGen edge x s ∧ ReflTransGen edge s x ∧ (m.heap s).asyncRelease = true := by
    by_contra none
    have plain (s : Address) (fromX : ReflTransGen edge x s) (toX : ReflTransGen edge s x) :
        (m.heap s).isCyclicType = true ∧ (m.heap s).asyncRelease = false :=
      ⟨cyclic s (around s fromX toX), Bool.eq_false_of_not_eq_true fun async => none ⟨s, fromX, toX, async⟩⟩
    refine consistent.acyclic x (TransGen.mono (fun p q inner => ?_) _ _ (path_between cycle))
    obtain ⟨step, before, after⟩ := inner
    obtain ⟨cyclicP, plainP⟩ := plain p before (after.head step)
    obtain ⟨cyclicQ, plainQ⟩ := plain q (before.tail step) after
    exact ⟨step.1, step.2, cyclicP, cyclicQ, plainP, plainQ⟩
  have garbageS := above s toX
  have live := allLive s garbageS
  have pointers (p q : Address) (path : ReflTransGen edge p q) : Reach m.heap.pointers p q :=
    ReflTransGen.mono (fun _ _ step => step.2) _ _ path
  refine ⟨s, (consistent.listed s).mpr ⟨garbageS.1, async⟩, live, garbageS, ?_, fun y owner path => ?_⟩
  · exact TransGen.mono (fun _ _ step => step.2) _ _ (around s fromX toX)
  · have toS : ReflTransGen edge y s := by
      induction path using ReflTransGen.head_induction_on with
      | refl => exact .refl
      | head into _ ih => exact (ih (consistent.exact.pointers_mem _ owner _ into)).head ⟨owner, into⟩
    have below := ReflTransGen.trans toS toX
    refine ⟨garbage_unreferenced (above y below), fun p holder pointed => ?_⟩
    have path : ReflTransGen edge p x := below.head ⟨holder, pointed⟩
    exact pointers s p (ReflTransGen.trans toX (ancestors p path))

end Consistent

theorem Collected.held_back {m m' : GcState} {holders holders' : Finset Address} {handles : Multiset Address}
    (collected : Collected m m' holders holders' handles) (kept : Consistent m' holders' handles) {o : Address}
    (held : Held m' handles o) : Held m handles o := by
  obtain ⟨x, handle, path⟩ := held_iff.mp held
  refine held_iff.mpr ⟨x, handle, path.congr fun p before => ?_⟩
  have inside := kept.reach_holders (kept.exact.refs_mem x handle) before
  show (m.heap p).pointers = (m'.heap p).pointers
  rw [HeapObject.pointers, HeapObject.pointers, collected.kept p inside]

/-- The garbage after a collection is the garbage before it that was not freed. -/
theorem Collected.garbage_iff {m m' : GcState} {holders holders' : Finset Address} {handles : Multiset Address}
    (collected : Collected m m' holders holders' handles) (kept : Consistent m' holders' handles) (o : Address) :
    Garbage m' handles o ↔ Garbage m handles o ∧ (m'.heap o).state ≠ .dead := by
  constructor
  · intro garbage
    exact ⟨⟨(collected.alive o garbage.1).1, fun held => garbage.2 (collected.held kept held).2⟩, garbage.1⟩
  · rintro ⟨garbage, alive⟩
    exact ⟨alive, fun held => garbage.2 (collected.held_back kept held)⟩

/-- A collection frees at least one object, when there is garbage. -/
theorem Collected.progress_cycles {m m' : GcState} {holders holders' : Finset Address} {handles : Multiset Address}
    (collected : Collected m m' holders holders' handles) (consistent : Consistent m holders handles)
    (cyclic : ∀ o, TransGen (fun p q => p ∈ holders ∧ q ∈ m.heap.pointers p) o o → (m.heap o).isCyclicType = true)
    (some : {o | Garbage m handles o}.Nonempty) : ∃ o, Garbage m handles o ∧ (m'.heap o).state = .dead := by
  by_cases waiting : ∃ o, (m.heap o).state = .waitingForGc
  · obtain ⟨o, waits⟩ := waiting
    exact ⟨o, consistent.waiting_garbage waits, collected.waiting o waits⟩
  · have allLive (o : Address) (garbage : Garbage m handles o) : o ∈ holders :=
      (consistent.state_cases garbage.1).resolve_right fun waits => waiting ⟨o, waits⟩
    obtain ⟨r, listed, live, garbage, abandoned⟩ := consistent.exists_abandoned cyclic allLive some
    exact ⟨r, garbage, collected.abandoned r listed live abandoned⟩

theorem Collected.progress {m m' : GcState} {holders holders' : Finset Address} {handles : Multiset Address}
    (collected : Collected m m' holders holders' handles) (consistent : Consistent m holders handles)
    (cyclic : ∀ o, (m.heap o).state ≠ .dead → (m.heap o).isCyclicType = true)
    (some : {o | Garbage m handles o}.Nonempty) : ∃ o, Garbage m handles o ∧ (m'.heap o).state = .dead := by
  refine collected.progress_cycles consistent (fun o cycle => cyclic o ?_) some
  obtain ⟨_, edge, _⟩ := TransGen.head'_iff.mp cycle
  simp [(consistent.live o).mpr edge.1]

/-- No garbage is kept for ever: with `N` objects of garbage, all of cyclic
type, `N` collections free all of it, whatever the orders of their iterations. -/
theorem reachable_garbage_freed {m : GcState} {handles : Multiset Address} (reach : Reachable (m, handles))
    (cyclic : ∀ o, (m.heap o).state ≠ .dead → (m.heap o).isCyclicType = true) :
    ∃ garbage : Finset Address, (∀ o, o ∈ garbage ↔ (m.heap o).state ≠ .dead ∧ ¬Held m handles o) ∧
      ∀ orders : Nat → IterationOrder × IterationOrder, ∃ states : Nat → GcState, states 0 = m ∧
        (∀ k, Returns (fun fuel => gcCollect (orders k).1 (orders k).2 fuel (states k)) (states (k + 1))) ∧
        ∀ k, garbage.card ≤ k → ∀ o ∈ garbage, ((states k).heap o).state = .dead := by
  obtain ⟨holders, consistent⟩ := reach.consistent
  refine ⟨consistent.garbage_finite.toFinset, fun o => by rw [Set.Finite.mem_toFinset]; rfl, fun orders => ?_⟩
  -- the states in turn, each with its invariant
  let Good : Type := { m : GcState // (∃ holders, Consistent m holders handles) ∧
    ∀ o, (m.heap o).state ≠ .dead → (m.heap o).isCyclicType = true }
  have next (s : Good) (k : Nat) : ∃ s' : Good,
      Returns (fun fuel => gcCollect (orders k).1 (orders k).2 fuel s.1) s'.1 ∧
      (∀ o, Garbage s'.1 handles o ↔ Garbage s.1 handles o ∧ (s'.1.heap o).state ≠ .dead) ∧
      ({o | Garbage s.1 handles o}.Nonempty → ∃ o, Garbage s.1 handles o ∧ (s'.1.heap o).state = .dead) ∧
      ∀ o, (s'.1.heap o).state ≠ .dead → (s.1.heap o).state ≠ .dead := by
    obtain ⟨m, ⟨holders, consistent⟩, cyclic⟩ := s
    obtain ⟨m', run, holders', kept, collected⟩ := returns_gcCollect consistent (orders k).1 (orders k).2
    refine ⟨⟨m', ⟨holders', kept⟩, fun o alive => ?_⟩, run, collected.garbage_iff kept,
      collected.progress consistent cyclic, fun o alive => (collected.alive o alive).1⟩
    rw [(collected.alive o alive).2]
    exact cyclic o (collected.alive o alive).1
  choose advance run garbageNext progress alive using next
  let states : Nat → Good := fun k => Nat.rec ⟨m, ⟨holders, consistent⟩, cyclic⟩ (fun k s => advance s k) k
  have remains (k : Nat) : ∃ left : Finset Address, (∀ o, o ∈ left ↔ Garbage (states k).1 handles o) ∧
      (∀ o, o ∈ left ↔ Garbage m handles o ∧ ((states k).1.heap o).state ≠ .dead) ∧
      left.card ≤ consistent.garbage_finite.toFinset.card - k := by
    induction k with
    | zero =>
      refine ⟨consistent.garbage_finite.toFinset, fun o => ?_, fun o => ?_, le_rfl⟩
      · rw [Set.Finite.mem_toFinset]
        rfl
      · rw [Set.Finite.mem_toFinset]
        exact ⟨fun garbage => ⟨garbage, garbage.1⟩, And.left⟩
    | succ k ih =>
      obtain ⟨left, exact, survives, size⟩ := ih
      have kept (o : Address) : o ∈ left.filter (fun o => ((states (k + 1)).1.heap o).state ≠ .dead) ↔
          o ∈ left ∧ ((states (k + 1)).1.heap o).state ≠ .dead := Finset.mem_filter
      refine ⟨left.filter fun o => ((states (k + 1)).1.heap o).state ≠ .dead, fun o => ?_, fun o => ?_, ?_⟩
      · rw [kept, exact]
        exact (garbageNext (states k) k o).symm
      · rw [kept, survives, and_assoc]
        exact and_congr_right fun _ => and_iff_right_of_imp (alive (states k) k o)
      · rcases left.eq_empty_or_nonempty with empty | ⟨o, member⟩
        · rw [empty, Finset.filter_empty, Finset.card_empty]
          exact Nat.zero_le _
        · obtain ⟨o, garbage, dead⟩ := progress (states k) k ⟨o, (exact o).mp member⟩
          have fewer : (left.filter fun o => ((states (k + 1)).1.heap o).state ≠ .dead).card < left.card :=
            Finset.card_lt_card (Finset.filter_ssubset.mpr ⟨o, (exact o).mpr garbage, not_not.mpr dead⟩)
          omega
  refine ⟨fun k => (states k).1, rfl, fun k => run (states k) k, fun k enough o member => ?_⟩
  obtain ⟨left, _, survives, size⟩ := remains k
  have none : left = ∅ := Finset.card_eq_zero.mp (by omega)
  by_contra alive
  rw [Set.Finite.mem_toFinset] at member
  have stays := (survives o).mpr ⟨member, alive⟩
  rw [none] at stays
  exact absurd stays (Finset.notMem_empty o)

theorem reachable_garbage_freed_droppedTail : ∃ states : Nat → GcState, states 0 = droppedTail true true ∧
    (∀ k, Returns (fun fuel => gcCollect ⟨id, .refl⟩ ⟨List.reverse, List.reverse_perm⟩ fuel (states k)) (states (k + 1))) ∧
    ∃ k, ∀ o ∈ [8, 16, 24], ((states k).heap o).state = .dead := by
  obtain ⟨garbage, members, runs⟩ := reachable_garbage_freed (reachable_droppedTail true true) fun o alive => by
    obtain rfl | rfl | rfl := tailState_alive alive <;> rfl
  obtain ⟨states, start, run, freed⟩ := runs fun _ => (⟨id, .refl⟩, ⟨List.reverse, List.reverse_perm⟩)
  refine ⟨states, start, run, garbage.card, fun o member => freed _ le_rfl o ((members o).mpr ⟨?_, ?_⟩)⟩
  · simp only [List.mem_cons, List.not_mem_nil, or_false] at member
    obtain rfl | rfl | rfl := member <;> decide
  · rintro ⟨x, none, _⟩
    exact absurd none (Multiset.notMem_zero x)

/-- Collections, one after the other, each with the orders of its iterations. -/
def collections (fuel : Nat) (orders : List (IterationOrder × IterationOrder)) (m : GcState) : Option GcState :=
  orders.foldlM (fun m order => gcCollect order.1 order.2 fuel m) m

/-- Live objects on a cycle are of cyclic type. -/
def CyclesCyclic (m : GcState) (holders : Finset Address) : Prop :=
  ∀ o, TransGen (fun p q => p ∈ holders ∧ q ∈ m.heap.pointers p) o o → (m.heap o).isCyclicType = true

theorem Collected.cyclesCyclic {m m' : GcState} {holders holders' : Finset Address} {handles : Multiset Address}
    (collected : Collected m m' holders holders' handles) (cyclic : CyclesCyclic m holders) : CyclesCyclic m' holders' := by
  intro o cycle
  obtain ⟨_, edge, _⟩ := TransGen.head'_iff.mp cycle
  rw [collected.same o edge.1]
  refine cyclic o (TransGen.mono (fun p q edge => ⟨collected.shrink edge.1, ?_⟩) _ _ cycle)
  have pointed : q ∈ (m'.heap p).pointers := edge.2
  rwa [HeapObject.pointers, collected.kept p edge.1] at pointed

/-- Every collection leaves less garbage. -/
theorem returns_collections {handles : Multiset Address} (orders : List (IterationOrder × IterationOrder)) {m : GcState}
    {holders garbage : Finset Address} (consistent : Consistent m holders handles) (cyclic : CyclesCyclic m holders)
    (exact : ∀ o, o ∈ garbage ↔ Garbage m handles o) :
    ∃ m', Returns (fun fuel => collections fuel orders m) m' ∧ (∃ holders', Consistent m' holders' handles) ∧
      (∀ o, Held m handles o ↔ Held m' handles o) ∧
      ∃ left : Finset Address, (∀ o, o ∈ left ↔ Garbage m' handles o) ∧ left.card ≤ garbage.card - orders.length := by
  induction orders generalizing m holders garbage with
  | nil => exact ⟨m, .pure m, ⟨holders, consistent⟩, fun _ => Iff.rfl, garbage, exact, le_rfl⟩
  | cons order orders ih =>
    obtain ⟨m₁, run, holders₁, kept, collected⟩ := returns_gcCollect consistent order.1 order.2
    have remains (o : Address) : o ∈ garbage.filter (fun o => (m₁.heap o).state ≠ .dead) ↔ Garbage m₁ handles o := by
      rw [Finset.mem_filter, exact, collected.garbage_iff kept]
    have fewer : (garbage.filter fun o => (m₁.heap o).state ≠ .dead).card ≤ garbage.card - 1 := by
      rcases garbage.eq_empty_or_nonempty with empty | ⟨o, member⟩
      · simp [empty]
      · obtain ⟨o, garbageO, dead⟩ := collected.progress_cycles consistent cyclic ⟨o, (exact o).mp member⟩
        have less : (garbage.filter fun o => (m₁.heap o).state ≠ .dead).card < garbage.card :=
          Finset.card_lt_card (Finset.filter_ssubset.mpr ⟨o, (exact o).mpr garbageO, not_not.mpr dead⟩)
        omega
    obtain ⟨m', rest, kept', held, left, final, size⟩ := ih kept (collected.cyclesCyclic cyclic) remains
    refine ⟨m', (run.bind rest).congr fun _ => List.foldlM_cons .., kept', fun o => ?_, left, final, ?_⟩
    · rw [← held o]
      exact ⟨fun before => (collected.held kept before).2, collected.held_back kept⟩
    · rw [List.length_cons]
      omega

/-- Types need not be cyclic as long as their objects are on no cycle: with `N`
objects of garbage, `N` collections leave what the handles lead to and nothing
else. -/
theorem reachable_collections {m : GcState} {handles : Multiset Address} (reach : Reachable (m, handles))
    (cyclic : ∀ o, TransGen (fun p q => (m.heap p).state = .live ∧ q ∈ (m.heap p).fields ∧ q ≠ 0) o o →
      (m.heap o).isCyclicType = true) :
    ∃ garbage : Finset Address, (∀ o, o ∈ garbage ↔ (m.heap o).state ≠ .dead ∧ ¬Held m handles o) ∧
      ∀ orders : List (IterationOrder × IterationOrder), ∃ m', Returns (fun fuel => collections fuel orders m) m' ∧
        (garbage.card ≤ orders.length → ∀ o, (m'.heap o).state ≠ .dead ↔ Held m handles o) := by
  obtain ⟨holders, consistent⟩ := reach.consistent
  have promise : CyclesCyclic m holders := fun o cycle => cyclic o <| TransGen.mono (fun p q edge =>
    ⟨(consistent.live p).mpr edge.1, HeapObject.mem_pointers.mp edge.2⟩) _ _ cycle
  have exact (o : Address) : o ∈ consistent.garbage_finite.toFinset ↔ Garbage m handles o := by
    rw [Set.Finite.mem_toFinset]
    rfl
  refine ⟨consistent.garbage_finite.toFinset, exact, fun orders => ?_⟩
  obtain ⟨m', run, ⟨holders', kept⟩, held, left, final, size⟩ := returns_collections orders consistent promise exact
  refine ⟨m', run, fun enough o => ?_⟩
  have none : left = ∅ := Finset.card_eq_zero.mp (by omega)
  rw [held o]
  constructor
  · intro alive
    by_contra unheld
    have garbage := (final o).mpr ⟨alive, unheld⟩
    rw [none] at garbage
    exact absurd garbage (Finset.notMem_empty o)
  · intro stays
    obtain ⟨x, handle, path⟩ := held_iff.mp stays
    simp [(kept.live o).mpr (kept.reach_holders (kept.exact.refs_mem x handle) path)]

/-- The tail is of a plain type. -/
theorem reachable_collections_droppedTail : ∃ orders m',
    Returns (fun fuel => collections fuel orders (droppedTail true false)) m' ∧ ∀ o ∈ [8, 16, 24], (m'.heap o).state = .dead := by
  obtain ⟨garbage, _, runs⟩ := reachable_collections (reachable_droppedTail true false) fun o cycle => by
    obtain ⟨q, ⟨live, pointed, nonnull⟩, _⟩ := TransGen.head'_iff.mp cycle
    have alive : ((droppedTail true false).heap o).state ≠ .dead := by
      rw [live]
      decide
    obtain rfl | rfl | rfl := tailState_alive alive
    · rfl
    · rfl
    · exact absurd (List.mem_singleton.mp pointed) nonnull
  obtain ⟨m', run, freed⟩ := runs (List.replicate garbage.card (⟨id, .refl⟩, ⟨List.reverse, List.reverse_perm⟩))
  refine ⟨_, m', run, fun o _ => ?_⟩
  by_contra alive
  obtain ⟨x, none, _⟩ := (freed (by simp) o).mp alive
  exact absurd none (Multiset.notMem_zero x)

end CatLa
