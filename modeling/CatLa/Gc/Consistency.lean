import CatLa.Gc.LockPhase
import CatLa.Gc.ReleaseCascade

namespace CatLa
open CountedGraph GraphSearch Relation

/-- A pointer between two counted objects of cyclic type that the collector
has never been told about. -/
def PlainEdge (h : Heap) (holders : Finset Address) (p q : Address) : Prop :=
  p ∈ holders ∧ q ∈ h.pointers p ∧ (h p).isCyclicType = true ∧ (h q).isCyclicType = true ∧
    (h p).asyncRelease = false ∧ (h q).asyncRelease = false

/-- The state between two operations, with `handles` held by the mutator:
`holders` are the live objects. -/
structure Consistent (m : GcState) (holders : Finset Address) (handles : Multiset Address) : Prop where
  exact : Exact holders m.heap handles
  live : ∀ o, (m.heap o).state = .live ↔ o ∈ holders
  idle : ∀ o, (m.heap o).state ≠ .processGc
  waiting : WaitingTree m.heap {o | (m.heap o).state = .waitingForGc}
  waitingFinite : {o | (m.heap o).state = .waitingForGc}.Finite
  unlocked : ∀ o, (m.heap o).lockFlag = false
  nodup : m.suspectedObjectList.Nodup
  listed : ∀ o, o ∈ m.suspectedObjectList ↔ (m.heap o).state ≠ .dead ∧ (m.heap o).asyncRelease = true
  cyclic : ∀ o, (m.heap o).state ≠ .dead → (m.heap o).asyncRelease = true → (m.heap o).isCyclicType = true
  shared : ∀ o ∈ holders, (m.heap o).isCyclicType = true → 2 ≤ (m.heap o).count → (m.heap o).asyncRelease = true
  acyclic : ∀ o, ¬TransGen (PlainEdge m.heap holders) o o
  proper : ∀ o ∈ holders, 1 < o

namespace Consistent
variable {m : GcState} {holders holders' : Finset Address} {handles handles' : Multiset Address}

/-- The empty heap. -/
theorem empty : Consistent { heap := fun _ => .zeroed, suspectedObjectList := [] } ∅ 0 where
  exact :=
    { count_eq := fun _ member => absurd member (Finset.notMem_empty _)
      positive := fun _ member => absurd member (Finset.notMem_empty _)
      refs_mem := fun _ member => absurd member (Multiset.notMem_zero _)
      pointers_mem := fun _ member => absurd member (Finset.notMem_empty _) }
  live o := ⟨fun state => by simp [HeapObject.zeroed] at state, fun member => absurd member (Finset.notMem_empty _)⟩
  idle o := by simp [HeapObject.zeroed]
  waiting := by
    have none : {o : Address | HeapObject.zeroed.state = .waitingForGc} = ∅ := by simp [HeapObject.zeroed]
    dsimp only
    rw [none]
    exact .empty _
  waitingFinite := by simp [HeapObject.zeroed]
  unlocked o := rfl
  nodup := List.nodup_nil
  listed o := by simp [HeapObject.zeroed]
  cyclic o state := by simp [HeapObject.zeroed] at state
  shared _ member := absurd member (Finset.notMem_empty _)
  acyclic o cycle := by
    obtain ⟨_, edge, _⟩ := TransGen.head'_iff.mp cycle
    exact absurd edge.1 (Finset.notMem_empty _)
  proper _ member := absurd member (Finset.notMem_empty _)

theorem state_cases (consistent : Consistent m holders handles) {o : Address} (alive : (m.heap o).state ≠ .dead) :
    o ∈ holders ∨ (m.heap o).state = .waitingForGc := by
  cases state : (m.heap o).state with
  | dead => exact absurd state alive
  | live => exact Or.inl ((consistent.live o).mp state)
  | processGc => exact absurd state (consistent.idle o)
  | waitingForGc => exact Or.inr rfl

theorem suspected_iff (consistent : Consistent m holders handles) {o : Address} (alive : (m.heap o).state ≠ .dead) :
    (m.heap o).Suspected ↔ (m.heap o).asyncRelease = true :=
  ⟨And.right, fun async => ⟨consistent.cyclic o alive async, async⟩⟩

/-- The objects below a live object are live, and those below a waiting one
are waiting; there are finitely many. -/
theorem reach_holders (consistent : Consistent m holders handles) {root x : Address} (member : root ∈ holders)
    (path : Reach m.heap.pointers root x) : x ∈ holders :=
  path.mem (· ∈ holders) member consistent.exact.pointers_mem

theorem reach_waiting (consistent : Consistent m holders handles) {root x : Address}
    (state : (m.heap root).state = .waitingForGc) (path : Reach m.heap.pointers root x) :
    (m.heap x).state = .waitingForGc :=
  path.mem (fun o => (m.heap o).state = .waitingForGc) state consistent.waiting.closed

/-- A state with fewer holders, where nothing but counts has changed in those
that stay, keeps the invariant when its waiting objects and its list do. -/
theorem shrink (consistent : Consistent m holders handles) (m' : GcState) (exact : Exact holders' m'.heap handles')
    (shrink : holders' ⊆ holders)
    (kept : ∀ o ∈ holders', m'.heap o = { m.heap o with count := (m'.heap o).count } ∧
      (m'.heap o).count ≤ (m.heap o).count)
    (gone : ∀ o, o ∉ holders' → (m'.heap o).state = .waitingForGc ∨ (m'.heap o).state = .dead)
    (header : ∀ o, (m'.heap o).asyncRelease = (m.heap o).asyncRelease ∧
      (m'.heap o).isCyclicType = (m.heap o).isCyclicType ∧ (m'.heap o).lockFlag = (m.heap o).lockFlag)
    (alive : ∀ o, (m'.heap o).state ≠ .dead → (m.heap o).state ≠ .dead)
    (waiting : WaitingTree m'.heap {o | (m'.heap o).state = .waitingForGc})
    (nodup : m'.suspectedObjectList.Nodup)
    (listed : ∀ o, o ∈ m'.suspectedObjectList ↔ (m'.heap o).state ≠ .dead ∧ (m'.heap o).asyncRelease = true) :
    Consistent m' holders' handles' := by
  have live (o : Address) (member : o ∈ holders') : (m'.heap o).state = .live := by
    rw [(kept o member).1]
    exact (consistent.live o).mpr (shrink member)
  refine ⟨exact, fun o => ⟨fun state => ?_, live o⟩, fun o => ?_, waiting, ?_, fun o => ?_, nodup, listed, ?_, ?_, ?_,
    fun o member => consistent.proper o (shrink member)⟩
  · by_contra outside
    rcases gone o outside with other | other <;> simp [state] at other
  · by_cases member : o ∈ holders'
    · simp [live o member]
    · rcases gone o member with other | other <;> simp [other]
  · refine ((Finset.finite_toSet holders).union consistent.waitingFinite).subset fun o state => ?_
    have state : (m'.heap o).state = .waitingForGc := state
    exact consistent.state_cases (alive o (by simp [state]))
  · rw [(header o).2.2]
    exact consistent.unlocked o
  · intro o notDead async
    rw [(header o).2.1]
    exact consistent.cyclic o (alive o notDead) ((header o).1 ▸ async)
  · intro o member cyclic two
    rw [(header o).1]
    exact consistent.shared o (shrink member) ((header o).2.1 ▸ cyclic) (two.trans (kept o member).2)
  · intro o cycle
    refine consistent.acyclic o (cycle_mono cycle fun p q edge _ _ => ?_)
    obtain ⟨member, pointed, cyclicP, cyclicQ, asyncP, asyncQ⟩ := edge
    refine ⟨shrink member, ?_, (header p).2.1 ▸ cyclicP, (header q).2.1 ▸ cyclicQ, (header p).1 ▸ asyncP,
      (header q).1 ▸ asyncQ⟩
    have same := (kept p member).1
    show q ∈ (m.heap p).pointers
    have pointed : q ∈ (m'.heap p).pointers := pointed
    rwa [same] at pointed

/-- A release keeps the invariant; the list of suspected objects is as it was. -/
theorem released (consistent : Consistent m holders handles) {h : Heap} (released : Released holders holders' m.heap h handles') :
    Consistent { m with heap := h } holders' handles' := by
  obtain ⟨tree, treeWaiting, inTree, covered⟩ := released.gone
  have old (o : Address) (outside : o ∉ holders) : h o = m.heap o :=
    released.evolves.settled o outside List.not_mem_nil
  have notLive (o : Address) (outside : o ∉ holders) : (m.heap o).state ≠ .live :=
    fun state => outside ((consistent.live o).mp state)
  have waitingOld (o : Address) (state : (m.heap o).state = .waitingForGc) : o ∉ holders := fun member => by
    rw [(consistent.live o).mpr member] at state
    exact absurd state (by simp)
  have waitingSet : {o | (h o).state = .waitingForGc} = {o | (m.heap o).state = .waitingForGc} ∪ tree := by
    ext o
    constructor
    · intro state
      have state : (h o).state = .waitingForGc := state
      by_cases member : o ∈ holders
      · by_cases stays : o ∈ holders'
        · rw [released.live o stays] at state
          exact absurd state (by simp)
        · rcases covered o member stays with inTree | ⟨dead, _⟩
          · exact Or.inr inTree
          · rw [dead] at state
            exact absurd state (by simp)
      · rw [old o member] at state
        exact Or.inl state
    · rintro (state | member)
      · show (h o).state = .waitingForGc
        rw [old o (waitingOld o state)]
        exact state
      · exact treeWaiting.state o member
  have cases (o : Address) (outside : o ∉ holders') :
      (h o).state = .waitingForGc ∨ (h o).state = .dead := by
    by_cases member : o ∈ holders
    · rcases covered o member outside with inTree | ⟨dead, _⟩
      · exact Or.inl (treeWaiting.state o inTree)
      · exact Or.inr dead
    · rw [old o member]
      cases state : (m.heap o).state with
      | dead => exact Or.inr rfl
      | live => exact absurd state (notLive o member)
      | processGc => exact absurd state (consistent.idle o)
      | waitingForGc => exact Or.inl rfl
  have alive (o : Address) (notDead : (h o).state ≠ .dead) : (m.heap o).state ≠ .dead := by
    by_cases member : o ∈ holders
    · rw [(consistent.live o).mpr member]
      simp
    · rwa [← old o member]
  refine consistent.shrink { m with heap := h } released.exact released.evolves.shrink released.evolves.kept cases
    (fun o => ?_) alive ?_ consistent.nodup fun o => ?_
  · obtain ⟨async, cyclic, lock, _⟩ := released.evolves.header o
    exact ⟨async, cyclic, lock⟩
  · dsimp only
    rw [waitingSet]
    exact (consistent.waiting.congr fun o state => old o (waitingOld o state)).union treeWaiting
  · rw [consistent.listed o]
    dsimp only
    rw [(released.evolves.header o).1]
    refine and_congr_left fun async => ⟨fun notDead dead => ?_, alive o⟩
    -- a suspected object is not freed by a release
    by_cases member : o ∈ holders
    · have unsuspected : ¬(h o).Suspected := by
        have outside : o ∉ holders' := fun stays => by
          rw [released.live o stays] at dead
          exact absurd dead (by simp)
        rcases covered o member outside with inTree | ⟨_, unsuspected⟩
        · rw [treeWaiting.state o inTree] at dead
          exact absurd dead (by simp)
        · exact unsuspected
      rw [released.evolves.suspected_iff, consistent.suspected_iff notDead] at unsuspected
      exact unsuspected async
    · rw [old o member] at dead
      exact notDead dead

end Consistent

end CatLa
