import Mathlib.Data.List.Chain
import CatLa.Gc.GarbageCollection
import CatLa.Gc.MutatorSteps

namespace CatLa
open CountedGraph FuelLoop GraphSearch Relation

/-- A state of a single-threaded run: the memory, and the handles that the
mutator holds. -/
abbrev RunState := GcState × Multiset Address

/-- One operation. The mutator uses objects it holds, and the parent of a move
is held by another handle than the one the move consumes. -/
inductive Step : RunState → RunState → Prop
  | malloc {m : GcState} {handles : Multiset Address} {cell : Address} (dead : (m.heap cell).state = .dead)
      (address : 1 < cell) (typeInfo : Address) (isCyclicType : Bool) (fieldLength : Nat) :
      Step (m, handles) (m.malloc cell typeInfo isCyclicType fieldLength, {cell} + handles)
  | getClone {m m' : GcState} {handles : Multiset Address} {parent word : Address} {i : Nat} (held : parent ∈ handles)
      (bound : i < (m.heap parent).fields.length) (run : getCloneObjectField m parent i = some (m', word)) :
      Step (m, handles) (m', wordRefs word + handles)
  | setClone {m m' : GcState} {handles : Multiset Address} {parent child : Address} {i : Nat} (held : parent ∈ handles)
      (childHeld : child ∈ handles) (bound : i < (m.heap parent).fields.length)
      (run : Returns (fun fuel => setCloneObjectField fuel m parent i child) m') : Step (m, handles) (m', handles)
  | getMove {m m' : GcState} {handles : Multiset Address} {parent word : Address} {i : Nat} (held : parent ∈ handles)
      (bound : i < (m.heap parent).fields.length) (run : getMoveObjectField m parent i = some (m', word)) :
      Step (m, handles) (m', wordRefs word + handles)
  | setMove {m m' : GcState} {handles : Multiset Address} {parent word : Address} {i : Nat} (held : parent ∈ handles)
      (bound : i < (m.heap parent).fields.length)
      (run : Returns (fun fuel => setMoveObjectField fuel m parent i word) m') :
      Step (m, wordRefs word + handles) (m', handles)
  | drop {m m' : GcState} {handles : Multiset Address} {object : Address}
      (run : Returns (fun fuel => dropReference fuel m object) m') : Step (m, {object} + handles) (m', handles)
  | collect {m m' : GcState} {handles : Multiset Address} (rootOrder releaseOrder : IterationOrder)
      (run : Returns (fun fuel => gcCollect rootOrder releaseOrder fuel m) m') : Step (m, handles) (m', handles)

/-- The states of the runs from an empty heap. -/
inductive Reachable : RunState → Prop
  | empty : Reachable ({ heap := fun _ => .zeroed, suspectedObjectList := [] }, 0)
  | step {s s' : RunState} (before : Reachable s) (step : Step s s') : Reachable s'

theorem Step.consistent {s s' : RunState} (step : Step s s') {holders : Finset Address}
    (consistent : Consistent s.1 holders s.2) : ∃ holders', Consistent s'.1 holders' s'.2 := by
  cases step with
  | malloc dead address typeInfo isCyclicType fieldLength =>
    exact ⟨_, consistent.malloc dead address typeInfo isCyclicType fieldLength⟩
  | getClone held bound run =>
    obtain ⟨m'', run', kept⟩ := consistent.getCloneObjectField held
    cases Option.some.inj (run'.symm.trans run)
    exact ⟨_, kept⟩
  | setClone held childHeld bound run =>
    obtain ⟨m'', run', kept⟩ := consistent.setCloneObjectField held childHeld bound
    cases run'.unique run
    exact kept
  | getMove held bound run =>
    obtain ⟨m'', run', kept⟩ := consistent.getMoveObjectField held bound
    cases Option.some.inj (run'.symm.trans run)
    exact ⟨_, kept⟩
  | setMove held bound run =>
    obtain ⟨m'', run', kept⟩ := consistent.setMoveObjectField held bound
    cases run'.unique run
    exact kept
  | drop run =>
    obtain ⟨m'', run', kept⟩ := consistent.dropReference
    cases run'.unique run
    exact kept
  | collect rootOrder releaseOrder run =>
    obtain ⟨m'', run', holders', kept, _⟩ := returns_gcCollect consistent rootOrder releaseOrder
    cases run'.unique run
    exact ⟨holders', kept⟩

theorem Reachable.consistent {s : RunState} (reach : Reachable s) : ∃ holders, Consistent s.1 holders s.2 := by
  induction reach with
  | empty => exact ⟨∅, .empty⟩
  | step _ step ih =>
    obtain ⟨holders, consistent⟩ := ih
    exact step.consistent consistent

/-- An object that a handle leads to. -/
def Held (m : GcState) (handles : Multiset Address) (o : Address) : Prop :=
  ∃ x ∈ handles, ReflTransGen (fun p q => q ∈ (m.heap p).fields ∧ q ≠ 0) x o

theorem held_iff {m : GcState} {handles : Multiset Address} {o : Address} :
    Held m handles o ↔ ∃ x ∈ handles, Reach m.heap.pointers x o := by
  have same : (fun p q => q ∈ (m.heap p).fields ∧ q ≠ 0) = fun p q => q ∈ m.heap.pointers p := by
    funext p q
    exact propext HeapObject.mem_pointers.symm
  rw [Held, same]

theorem Collected.held {m m' : GcState} {holders holders' : Finset Address} {handles : Multiset Address}
    (collected : Collected m m' holders holders' handles) (kept : Consistent m' holders' handles) {o : Address}
    (held : Held m handles o) : o ∈ holders' ∧ Held m' handles o := by
  obtain ⟨x, handle, path⟩ := held_iff.mp held
  rw [held_iff]
  induction path with
  | refl => exact ⟨kept.exact.refs_mem x handle, x, handle, .refl⟩
  | @tail p q _ edge ih =>
    obtain ⟨inside, y, handle', path'⟩ := ih (held_iff.mpr ⟨x, handle, ‹_›⟩)
    have same : m'.heap.pointers p = m.heap.pointers p := by
      show (m'.heap p).pointers = (m.heap p).pointers
      rw [HeapObject.pointers, HeapObject.pointers, collected.kept p inside]
    rw [← same] at edge
    exact ⟨kept.exact.pointers_mem p inside q edge, y, handle', path'.tail edge⟩

/-- Exact counts in every state of every run; and a collection frees nothing
that a handle leads to, whatever the order of its iterations. -/
theorem reachable_counts {m : GcState} {handles : Multiset Address} (reach : Reachable (m, handles)) :
    ∃ live : Finset Address, (∀ o, o ∈ live ↔ (m.heap o).state = .live) ∧
      (∀ o ∈ live, (m.heap o).count = handles.count o + ∑ p ∈ live, (m.heap p).fields.count o ∧ 1 ≤ (m.heap o).count) ∧
      (∀ o, (o ∈ handles ∨ ∃ p ∈ live, o ∈ (m.heap p).fields ∧ o ≠ 0) →
        (m.heap o).state ≠ .dead ∧ (m.heap o).state ≠ .waitingForGc) ∧
      (∀ o, (m.heap o).state = .waitingForGc → (m.heap o).count = 0 ∧
        ∀ w ∈ (m.heap o).fields, w ≠ 0 → (m.heap w).state = .waitingForGc) ∧
      ∀ rootOrder releaseOrder, ∃ m', Returns (fun fuel => gcCollect rootOrder releaseOrder fuel m) m' ∧
        ∀ o, Held m handles o → (m'.heap o).state ≠ .dead := by
  obtain ⟨holders, consistent⟩ := reach.consistent
  have nonnull (o : Address) (member : o ∈ holders) : o ≠ 0 := Nat.ne_zero_of_lt (consistent.proper o member)
  refine ⟨holders, fun o => (consistent.live o).symm, fun o member => ⟨?_, ?_⟩, fun o referred => ?_,
    fun o waiting => ⟨consistent.waiting.count o waiting, fun w member nonnull => ?_⟩, fun rootOrder releaseOrder => ?_⟩
  · have exact := consistent.exact.count_eq o member
    dsimp only at exact
    rw [exact, slots]
    exact congrArg _ (Finset.sum_congr rfl fun p _ => HeapObject.count_pointers (m.heap p) (nonnull o member))
  · exact Nat.one_le_iff_ne_zero.mpr (consistent.exact.positive o member)
  · have member : o ∈ holders := by
      rcases referred with handle | ⟨p, owner, pointed⟩
      · exact consistent.exact.refs_mem o handle
      · exact consistent.exact.pointers_mem p owner o (HeapObject.mem_pointers.mpr pointed)
    have live := (consistent.live o).mpr member
    simp only at live
    simp [live]
  · exact consistent.waiting.closed o waiting w (HeapObject.mem_pointers.mpr ⟨member, nonnull⟩)
  · obtain ⟨m', run, holders', kept, collected⟩ := returns_gcCollect consistent rootOrder releaseOrder
    refine ⟨m', run, fun o held => ?_⟩
    rw [(kept.live o).mpr (collected.held kept held).1]
    simp

/-- The cells that two objects and their common tail are in. -/
inductive TailCell
  | first
  | second
  | tail
  deriving DecidableEq

def TailCell.address : TailCell → Address
  | .first => 8
  | .second => 16
  | .tail => 24

/-- A memory with three cells in use. -/
def tailState (objects : TailCell → HeapObject) (list : List Address) : GcState :=
  { heap := fun o =>
      if o = 8 then objects .first else if o = 16 then objects .second else if o = 24 then objects .tail else .zeroed
    suspectedObjectList := list }

section TailState
variable {objects : TailCell → HeapObject} {list : List Address} {handles : Multiset Address} {o : Address} {k j : TailCell}

theorem tailState_empty : tailState (fun _ => .zeroed) [] = { heap := fun _ => .zeroed, suspectedObjectList := [] } := by
  simp only [tailState, ite_self]

theorem tailState_heap : (tailState objects list).heap k.address = objects k := by
  cases k <;> rfl

theorem tailState_alive (alive : ((tailState objects list).heap o).state ≠ .dead) : o = 8 ∨ o = 16 ∨ o = 24 := by
  by_contra outside
  simp only [not_or] at outside
  obtain ⟨first, second, third⟩ := outside
  refine alive ?_
  simp only [tailState, if_neg first, if_neg second, if_neg third]
  rfl

theorem tailState_modify (f : HeapObject → HeapObject) :
    (tailState objects list).heap.modify k.address f = (tailState (Function.update objects k (f (objects k))) list).heap := by
  funext o
  rw [Heap.modify_apply]
  by_cases here : o = k.address
  · rw [if_pos here, here, tailState_heap, tailState_heap, Function.update_self]
  · rw [if_neg here]
    cases k <;> simp_all [tailState, TailCell.address]

theorem tailState_increment : incrementReferenceCount (tailState objects list) k.address =
    if (objects k).count = 1 ∧ (objects k).isCyclicType = true ∧ (objects k).asyncRelease = false then
      tailState (Function.update objects k { objects k with count := (objects k).count + 1, asyncRelease := true })
        (list.insert k.address)
    else tailState (Function.update objects k (objects k).fetchAdd) list := by
  rw [incrementReferenceCount_eq, tailState_heap, tailState_modify, tailState_modify]
  rfl

/-- A cell is taken. -/
theorem Reachable.tailMalloc (before : Reachable (tailState objects list, handles)) (k : TailCell)
    (dead : (objects k).state = .dead) (isCyclicType : Bool) (fieldLength : Nat) {objects' : TailCell → HeapObject}
    (taken : objects' k = (objects k).allocate 0 isCyclicType fieldLength) (same : ∀ l ≠ k, objects' l = objects l) :
    Reachable (tailState objects' list, {k.address} + handles) := by
  have address : 1 < k.address := by
    cases k <;> decide
  have unused : ((tailState objects list).heap k.address).state = .dead := by rwa [tailState_heap]
  have made := before.step (.malloc unused address 0 isCyclicType fieldLength)
  rw [GcState.malloc, tailState_modify, ← taken, ← Function.eq_update_iff.mpr ⟨rfl, same⟩] at made
  exact made

/-- A cell is stored into a field that is null. -/
theorem Reachable.tailStore (before : Reachable (tailState objects list, handles)) (k j : TailCell) (i : Nat)
    (held : k.address ∈ handles) (held' : j.address ∈ handles) (bound : i < (objects k).fields.length) (apart : k ≠ j)
    (unlocked : (objects k).lockFlag = false) (null : (objects k).field i = 0) {grown : HeapObject} {list' : List Address}
    (child : (grown, list') =
      if (objects j).count = 1 ∧ (objects j).isCyclicType = true ∧ (objects j).asyncRelease = false then
        ({ objects j with count := (objects j).count + 1, asyncRelease := true }, list.insert j.address)
      else ((objects j).fetchAdd, list)) {objects' : TailCell → HeapObject} (shared : objects' j = grown)
    (owner : objects' k = (objects k).setField i j.address) (same : ∀ l, l ≠ k → l ≠ j → objects' l = objects l) :
    Reachable (tailState objects' list', handles) := by
  refine before.step (.setClone (i := i) held held' (by rwa [tailState_heap]) (.of_eq fun fuel => ?_))
  have counted : incrementReferenceCount (tailState objects list) j.address = tailState (Function.update objects j grown) list' := by
    rw [tailState_increment]
    split at child <;> obtain ⟨rfl, rfl⟩ := Prod.mk.inj child
    · rw [if_pos ‹_›]
    · rw [if_neg ‹_›]
  have stored : Function.update (Function.update objects j grown) k ((objects k).setField i j.address) = objects' := by
    refine (Function.eq_update_iff.mpr ⟨owner, fun l other => ?_⟩).symm
    rw [Function.update_apply]
    split
    · rw [‹l = j›, shared]
    · exact same l other ‹l ≠ j›
  rw [setCloneObjectField, counted, exchangeField_eq, tailState_modify, tailState_heap, Function.update_of_ne apart, unlocked, null, stored]
  rfl

/-- A handle is given up, and it is not the last reference. -/
theorem Reachable.tailDrop (before : Reachable (tailState objects list, {k.address} + handles))
    (more : (objects k).count ≠ 1) {objects' : TailCell → HeapObject} (counted : objects' k = (objects k).fetchSub)
    (same : ∀ l ≠ k, objects' l = objects l) : Reachable (tailState objects' list, handles) := by
  refine before.step (.drop (.of_eq fun fuel => ?_))
  simp only [dropReference, decrementReferenceCount, tailState_heap, if_neg more, tailState_modify]
  rw [← counted, ← Function.eq_update_iff.mpr ⟨rfl, same⟩]
  rfl

end TailState

section Tail
variable (cyclic tailCyclic : Bool)

def tailObjects (x y tail : HeapObject) : TailCell → HeapObject
  | .first => x
  | .second => y
  | .tail => tail

/-- A live object that nobody has locked. -/
def tailObject (isCyclicType : Bool) (count : Nat) (asyncRelease : Bool) (fields : List Address) : HeapObject :=
  { count, state := .live, asyncRelease, isCyclicType, lockFlag := false, typeInfo := 0, fields }

/-- Two objects refer to each other and share a tail, which may be of another
type. The program has dropped both of them and has a handle of the tail. -/
def heldTail : GcState :=
  tailState (tailObjects (tailObject cyclic 1 cyclic [16, 24]) (tailObject cyclic 1 cyclic [8, 24])
    (tailObject tailCyclic 3 tailCyclic [0])) ((if tailCyclic then [24] else []) ++ if cyclic then [8, 16] else [])

/-- It has dropped the tail as well. -/
def droppedTail : GcState :=
  tailState (tailObjects (tailObject cyclic 1 cyclic [16, 24]) (tailObject cyclic 1 cyclic [8, 24])
    (tailObject tailCyclic 2 tailCyclic [0])) ((if tailCyclic then [24] else []) ++ if cyclic then [8, 16] else [])

theorem reachable_heldTail : Reachable (heldTail cyclic tailCyclic, {24} + 0) := by
  have start : Reachable (tailState (tailObjects .zeroed .zeroed .zeroed) [], 0) := by
    have same : tailObjects .zeroed .zeroed .zeroed = fun _ => .zeroed := by
      funext k
      cases k <;> rfl
    rw [same, tailState_empty]
    exact .empty
  let x := tailObject cyclic
  let tail := tailObject tailCyclic
  have made₁ : Reachable (tailState (tailObjects (x 1 false [0, 0]) .zeroed .zeroed) [], {8} + 0) :=
    start.tailMalloc .first rfl cyclic 2 rfl (by rintro ⟨⟩ <;> simp [tailObjects])
  have made₂ : Reachable (tailState (tailObjects (x 1 false [0, 0]) (x 1 false [0, 0]) .zeroed) [], {16} + ({8} + 0)) :=
    made₁.tailMalloc .second rfl cyclic 2 rfl (by rintro ⟨⟩ <;> simp [tailObjects])
  have made₃ : Reachable (tailState (tailObjects (x 1 false [0, 0]) (x 1 false [0, 0]) (tail 1 false [0])) [],
      {24} + ({16} + ({8} + 0))) :=
    made₂.tailMalloc .tail rfl tailCyclic 1 rfl (by rintro ⟨⟩ <;> simp [tailObjects])
  have linked₁ : Reachable (tailState (tailObjects (x 1 false [16, 0]) (x 2 cyclic [0, 0]) (tail 1 false [0]))
      (if cyclic then [16] else []), {24} + ({16} + ({8} + 0))) :=
    made₃.tailStore .first .second 0 (by decide) (by decide) (show 0 < 2 by decide) (by decide) rfl rfl
      (by cases cyclic <;> rfl) rfl rfl (by rintro ⟨⟩ <;> simp [tailObjects])
  have linked₂ : Reachable (tailState (tailObjects (x 2 cyclic [16, 0]) (x 2 cyclic [8, 0]) (tail 1 false [0]))
      (if cyclic then [8, 16] else []), {24} + ({16} + ({8} + 0))) :=
    linked₁.tailStore .second .first 0 (by decide) (by decide) (show 0 < 2 by decide) (by decide) rfl rfl
      (by cases cyclic <;> rfl) rfl rfl (by rintro ⟨⟩ <;> simp [tailObjects])
  have shared₁ : Reachable (tailState (tailObjects (x 2 cyclic [16, 24]) (x 2 cyclic [8, 0]) (tail 2 tailCyclic [0]))
      ((if tailCyclic then [24] else []) ++ if cyclic then [8, 16] else []), {24} + ({16} + ({8} + 0))) :=
    linked₂.tailStore .first .tail 1 (by decide) (by decide) (show 1 < 2 by decide) (by decide) rfl rfl
      (by cases cyclic <;> cases tailCyclic <;> rfl) rfl rfl (by rintro ⟨⟩ <;> simp [tailObjects])
  have shared₂ : Reachable (tailState (tailObjects (x 2 cyclic [16, 24]) (x 2 cyclic [8, 24]) (tail 3 tailCyclic [0]))
      ((if tailCyclic then [24] else []) ++ if cyclic then [8, 16] else []), {24} + ({16} + ({8} + 0))) :=
    shared₁.tailStore .second .tail 1 (by decide) (by decide) (show 1 < 2 by decide) (by decide) rfl rfl
      (by cases cyclic <;> cases tailCyclic <;> rfl) rfl rfl (by rintro ⟨⟩ <;> simp [tailObjects])
  have order : ({24} + ({16} + ({8} + 0)) : Multiset Address) = {8} + ({16} + ({24} + 0)) := by decide
  rw [order] at shared₂
  have dropped : Reachable (tailState (tailObjects (x 1 cyclic [16, 24]) (x 2 cyclic [8, 24]) (tail 3 tailCyclic [0]))
      ((if tailCyclic then [24] else []) ++ if cyclic then [8, 16] else []), {16} + ({24} + 0)) :=
    Reachable.tailDrop (k := .first) shared₂ (show 2 ≠ 1 by decide) rfl (by rintro ⟨⟩ <;> simp [tailObjects])
  exact Reachable.tailDrop (k := .second) dropped (show 2 ≠ 1 by decide) rfl (by rintro ⟨⟩ <;> simp [tailObjects, x, tail])

theorem reachable_droppedTail : Reachable (droppedTail cyclic tailCyclic, 0) :=
  Reachable.tailDrop (k := .tail) (reachable_heldTail cyclic tailCyclic) (show 3 ≠ 1 by decide) rfl
    (by rintro ⟨⟩ <;> simp [tailObjects])

end Tail

theorem reachable_counts_droppedTail : ∃ live : Finset Address, 24 ∈ live ∧
    2 = (0 : Multiset Address).count 24 + ∑ p ∈ live, ((droppedTail true true).heap p).fields.count 24 := by
  obtain ⟨live, states, counts, _⟩ := reachable_counts (reachable_droppedTail true true)
  have member : 24 ∈ live := (states 24).mpr rfl
  exact ⟨live, member, (counts 24 member).1⟩

theorem transGen_of_isChain {r : Address → Address → Prop} {first last : Address} (inner : List Address)
    (chain : List.IsChain r (first :: inner ++ [last])) : TransGen r first last := by
  induction inner generalizing first with
  | nil => exact .single (by simpa using chain)
  | cons second rest ih =>
    simp only [List.cons_append, List.isChain_cons_cons] at chain
    exact .head chain.1 (ih chain.2)

/-- The list of suspected objects in every state of every run. -/
theorem reachable_suspected {m : GcState} {handles : Multiset Address} (reach : Reachable (m, handles)) :
    (∀ o ∈ m.suspectedObjectList, (m.heap o).state ≠ .dead) ∧
    (∀ o, o ∈ m.suspectedObjectList ↔ (m.heap o).state ≠ .dead ∧ (m.heap o).asyncRelease = true) ∧
    (∀ first inner, List.IsChain (fun p q => q ∈ (m.heap p).fields) (first :: inner ++ [first]) →
      (∀ o ∈ first :: inner, (m.heap o).state = .live ∧ (m.heap o).isCyclicType = true) →
      ∃ o ∈ first :: inner, o ∈ m.suspectedObjectList) ∧
    ∀ o, (m.heap o).state = .waitingForGc → ∃ r ∈ m.suspectedObjectList, (m.heap r).state = .waitingForGc ∧
      ReflTransGen (fun p q => (m.heap p).state = .waitingForGc ∧ q ∈ (m.heap p).fields ∧ q ≠ 0) r o := by
  obtain ⟨holders, consistent⟩ := reach.consistent
  have listed := consistent.listed
  dsimp only at listed
  refine ⟨fun o member => ((listed o).mp member).1, listed, fun first inner chain members => ?_, fun o waiting => ?_⟩
  · by_contra none
    have plain (o : Address) (member : o ∈ first :: inner) :
        o ∈ holders ∧ (m.heap o).isCyclicType = true ∧ (m.heap o).asyncRelease = false := by
      obtain ⟨live, cyclic⟩ := members o member
      refine ⟨(consistent.live o).mp live, cyclic, Bool.eq_false_of_not_eq_true fun async => ?_⟩
      exact none ⟨o, member, (listed o).mpr ⟨by simp [live], async⟩⟩
    refine consistent.acyclic first (transGen_of_isChain inner ?_)
    have inside (o : Address) (member : o ∈ first :: inner ++ [first]) : o ∈ first :: inner := by
      simp only [List.mem_append, List.mem_cons, List.not_mem_nil, or_false] at member ⊢
      tauto
    refine List.IsChain.imp_of_mem_imp (fun p q memberP memberQ pointed => ?_) chain
    obtain ⟨holderP, cyclicP, plainP⟩ := plain p (inside p memberP)
    obtain ⟨holderQ, cyclicQ, plainQ⟩ := plain q (inside q memberQ)
    have nonnull : q ≠ 0 := Nat.ne_zero_of_lt (consistent.proper q holderQ)
    exact ⟨holderP, HeapObject.mem_pointers.mpr ⟨pointed, nonnull⟩, cyclicP, cyclicQ, plainP, plainQ⟩
  · obtain ⟨r, atR, suspected, path⟩ := consistent.waiting.rooted o waiting
    have atR : (m.heap r).state = .waitingForGc := atR
    refine ⟨r, (listed r).mpr ⟨by simp [atR], suspected.2⟩, atR, ReflTransGen.mono (fun p q edge => ?_) _ _ path⟩
    exact ⟨edge.1, HeapObject.mem_pointers.mp edge.2⟩

theorem reachable_suspected_droppedTail : ∃ o ∈ [8, 16], o ∈ (droppedTail true true).suspectedObjectList := by
  obtain ⟨_, _, cycles, _⟩ := reachable_suspected (reachable_droppedTail true true)
  refine cycles 8 [16] (by decide) fun o member => ?_
  rcases List.mem_pair.mp member with rfl | rfl
  · exact ⟨rfl, rfl⟩
  · exact ⟨rfl, rfl⟩

end CatLa
