import Mathlib.Algebra.BigOperators.Group.Finset.Basic
import CatLa.Foundations.ObjectStore
import CatLa.Gc.CollectorRuns
import CatLa.Heap.HeapAllocator

namespace CatLa
open FuelLoop GraphSearch Relation

/-- A statement of a program that keeps its objects in variables. A variable
is empty when a new handle is put into it; a move and a drop empty theirs. -/
inductive Statement (σ : Type)
  | malloc (x : σ) (typeInfo : Address) (isCyclicType : Bool) (fieldLength : Nat)
  | getClone (x parent : σ) (i : Nat)
  | setClone (parent : σ) (i : Nat) (child : σ)
  | getMove (x parent : σ) (i : Nat)
  | setMove (parent : σ) (i : Nat) (child : σ)
  | setMoveUncheck (parent : σ) (i : Nat) (child : σ)
  | drop (x : σ)
  deriving DecidableEq, Repr

namespace Statement
variable {σ α β : Type} [Zero α] [Zero β] {s : ObjectStore σ α} {t : ObjectStore σ β}

/-- What the program has to see to. The size of an object is a `size_t`. -/
def Allowed (s : ObjectStore σ α) : Statement σ → Prop
  | .malloc x _ _ fieldLength => s.slots x = 0 ∧ objectSize fieldLength < 2 ^ 64
  | .getClone x parent i | .getMove x parent i =>
    s.slots x = 0 ∧ s.slots parent ≠ 0 ∧ i < (s.fields (s.slots parent)).length
  | .setClone parent i child => s.slots parent ≠ 0 ∧ s.slots child ≠ 0 ∧ i < (s.fields (s.slots parent)).length
  | .setMove parent i child => parent ≠ child ∧ s.slots parent ≠ 0 ∧ i < (s.fields (s.slots parent)).length
  | .setMoveUncheck parent i child =>
    parent ≠ child ∧ s.slots parent ≠ 0 ∧ i < (s.fields (s.slots parent)).length ∧ s.word parent i = 0
  | .drop x => s.slots x ≠ 0

instance [DecidableEq σ] [DecidableEq α] : DecidablePred (Allowed s)
  | .malloc .. => inferInstanceAs (Decidable (_ ∧ _))
  | .drop _ => inferInstanceAs (Decidable (_ ≠ _))
  | .setMoveUncheck .. => inferInstanceAs (Decidable (_ ∧ _ ∧ _ ∧ _))
  | .getClone .. | .getMove .. | .setClone .. | .setMove .. => inferInstanceAs (Decidable (_ ∧ _ ∧ _))

/-- What the statement does, when `o` is the object that a `malloc` returns.
There are no objects of more than 512 bytes: the variable stays empty. -/
def effect [DecidableEq σ] [DecidableEq α] (o : α) (s : ObjectStore σ α) : Statement σ → ObjectStore σ α
  | .malloc x _ _ fieldLength => if objectSize fieldLength ≤ 512 then s.alloc x o fieldLength else s.setSlot x 0
  | .getClone x parent i => s.setSlot x (s.word parent i)
  | .setClone parent i child => s.store parent i (s.slots child)
  | .getMove x parent i => (s.store parent i 0).setSlot x (s.word parent i)
  | .setMove parent i child | .setMoveUncheck parent i child => (s.store parent i (s.slots child)).setSlot child 0
  | .drop x => s.setSlot x 0

/-- Whether an object is of cyclic type, afterwards. -/
def flags [DecidableEq α] (o : α) (before : α → Bool) : Statement σ → α → Bool
  | .malloc _ _ isCyclicType _ => Function.update before o isCyclicType
  | _ => before

/-- The objects that there may be afterwards. -/
def grown [DecidableEq α] (o : α) (before : Finset α) : Statement σ → Finset α
  | .malloc .. => insert o before
  | _ => before

section Malloc
variable [DecidableEq σ] [DecidableEq α] {o : α} {x : σ} {typeInfo : Address} {isCyclicType : Bool} {fieldLength : Nat}

theorem effect_malloc (fits : objectSize fieldLength ≤ 512) :
    effect o s (.malloc x typeInfo isCyclicType fieldLength) = s.alloc x o fieldLength := if_pos fits

theorem effect_malloc_null (large : 512 < objectSize fieldLength) :
    effect o s (.malloc x typeInfo isCyclicType fieldLength) = s.setSlot x 0 := if_neg (Nat.not_le.mpr large)

end Malloc

theorem allowed_iff (same : ObjectStore.SameShape s t) (statement : Statement σ) : Allowed s statement ↔ Allowed t statement := by
  obtain ⟨r, naming⟩ := same
  have null (x : σ) : s.slots x = 0 ↔ t.slots x = 0 := naming.null_iff (naming.slots x)
  have bound (parent : σ) (i : Nat) : (s.slots parent ≠ 0 ∧ i < (s.fields (s.slots parent)).length) ↔
      (t.slots parent ≠ 0 ∧ i < (t.fields (t.slots parent)).length) := by
    rw [Ne, null parent]
    refine and_congr_right fun nonnull => ?_
    rw [(naming.fields (naming.slots parent) (mt (null parent).mp nonnull)).length_eq]
  cases statement with
  | malloc x => exact and_congr_left' (null x)
  | getClone x parent i => exact and_congr (null x) (bound parent i)
  | setClone parent i child =>
    exact and_left_comm.trans ((and_congr (not_congr (null child)) (bound parent i)).trans and_left_comm)
  | getMove x parent i => exact and_congr (null x) (bound parent i)
  | setMove parent i child => exact and_congr_right fun _ => bound parent i
  | setMoveUncheck parent i child =>
    refine and_congr_right fun _ => ?_
    rw [← and_assoc, ← and_assoc, ← bound parent i]
    exact and_congr_right fun inside => naming.null_iff (naming.word inside.1 i)
  | drop x => exact not_congr (null x)

/-- A statement does the same to two stores that differ in names. -/
theorem effect_sameShape [DecidableEq σ] [DecidableEq α] [DecidableEq β] {o : α} {o' : β} (same : ObjectStore.SameShape s t)
    (fresh : ¬s.Held o) (fresh' : ¬t.Held o') (nonnull : o ≠ 0) (nonnull' : o' ≠ 0) {statement : Statement σ}
    (allowed : Allowed s statement) : ObjectStore.SameShape (statement.effect o s) (statement.effect o' t) := by
  obtain ⟨r, naming⟩ := same
  cases statement with
  | malloc x _ _ fieldLength =>
    rcases Nat.lt_or_ge 512 (objectSize fieldLength) with large | fits
    · rw [effect_malloc_null large, effect_malloc_null large]
      exact ⟨r, naming.setSlot x naming.zero⟩
    · rw [effect_malloc fits, effect_malloc fits]
      exact naming.alloc x fresh fresh' nonnull nonnull' fieldLength
  | getClone x parent i => exact ⟨r, naming.setSlot x (naming.word allowed.2.1 i)⟩
  | setClone parent i child => exact ⟨r, naming.store allowed.1 i (naming.slots child)⟩
  | getMove x parent i => exact ⟨r, (naming.store allowed.2.1 i naming.zero).setSlot x (naming.word allowed.2.1 i)⟩
  | setMove parent i child | setMoveUncheck parent i child =>
    exact ⟨r, (naming.store allowed.2.1 i (naming.slots child)).setSlot child naming.zero⟩
  | drop x => exact ⟨r, naming.setSlot x naming.zero⟩

theorem effect_within [DecidableEq σ] [DecidableEq α] {P : α → Prop} {o : α} (within : s.Within P) (zero : P 0) (new : P o)
    (statement : Statement σ) : (statement.effect o s).Within P := by
  cases statement with
  | malloc x _ _ fieldLength =>
    rcases Nat.lt_or_ge 512 (objectSize fieldLength) with large | fits
    · rw [effect_malloc_null large]
      exact within.setSlot x zero
    · rw [effect_malloc fits]
      exact within.alloc zero x new fieldLength
  | getClone x parent i => exact within.setSlot x (within.word zero parent i)
  | setClone parent i child => exact within.store parent i (within.slots child)
  | getMove x parent i => exact (within.store parent i zero).setSlot x (within.word zero parent i)
  | setMove parent i child | setMoveUncheck parent i child =>
    exact (within.store parent i (within.slots child)).setSlot child zero
  | drop x => exact within.setSlot x zero

end Statement

/-- The memory, and the variables of the program: each one that is not empty
holds a counted handle. -/
structure Client (σ : Type) where
  memory : GcState
  slots : σ → Address

namespace Client
variable {σ : Type} {c c' : Client σ} {holders : Finset Address} {x y : σ} {w : Address}

def start (σ : Type) : Client σ := ⟨{ heap := fun _ => .zeroed, suspectedObjectList := [] }, fun _ => 0⟩

/-- What the program sees of the memory. -/
def store (c : Client σ) : ObjectStore σ Address := ⟨fun o => (c.memory.heap o).fields, c.slots⟩

def flags (c : Client σ) (o : Address) : Bool := (c.memory.heap o).isCyclicType

variable [DecidableEq σ]

def set (c : Client σ) (memory : GcState) (x : σ) (w : Address) : Client σ := ⟨memory, Function.update c.slots x w⟩

/-- One statement is executed. A `malloc` finds a dead cell, or it has no size
class for the object and returns null. -/
inductive Executes (c : Client σ) : Statement σ → Client σ → Prop
  | mallocNull {x typeInfo isCyclicType fieldLength}
      (allowed : Statement.Allowed c.store (.malloc x typeInfo isCyclicType fieldLength))
      (large : HeapAllocator.chooseBlock fieldLength = none) :
      Executes c (.malloc x typeInfo isCyclicType fieldLength) (c.set c.memory x 0)
  | malloc {x cell typeInfo isCyclicType fieldLength}
      (allowed : Statement.Allowed c.store (.malloc x typeInfo isCyclicType fieldLength))
      (fits : HeapAllocator.chooseBlock fieldLength ≠ none) (dead : (c.memory.heap cell).state = .dead) (address : 1 < cell) :
      Executes c (.malloc x typeInfo isCyclicType fieldLength)
        (c.set (c.memory.malloc cell typeInfo isCyclicType fieldLength) x cell)
  | getClone {x parent i m' word} (allowed : Statement.Allowed c.store (.getClone x parent i))
      (run : getCloneObjectField c.memory (c.slots parent) i = some (m', word)) :
      Executes c (.getClone x parent i) (c.set m' x word)
  | setClone {parent i child m'} (allowed : Statement.Allowed c.store (.setClone parent i child))
      (run : Returns (fun fuel => setCloneObjectField fuel c.memory (c.slots parent) i (c.slots child)) m') :
      Executes c (.setClone parent i child) ⟨m', c.slots⟩
  | getMove {x parent i m' word} (allowed : Statement.Allowed c.store (.getMove x parent i))
      (run : getMoveObjectField c.memory (c.slots parent) i = some (m', word)) :
      Executes c (.getMove x parent i) (c.set m' x word)
  | setMove {parent i child m'} (allowed : Statement.Allowed c.store (.setMove parent i child))
      (run : Returns (fun fuel => setMoveObjectField fuel c.memory (c.slots parent) i (c.slots child)) m') :
      Executes c (.setMove parent i child) (c.set m' child 0)
  | setMoveUncheck {parent i child m'} (allowed : Statement.Allowed c.store (.setMoveUncheck parent i child))
      (run : setMoveObjectFieldUncheck c.memory (c.slots parent) i (c.slots child) = some m') :
      Executes c (.setMoveUncheck parent i child) (c.set m' child 0)
  | drop {x m'} (allowed : Statement.Allowed c.store (.drop x))
      (run : Returns (fun fuel => dropReference fuel c.memory (c.slots x)) m') : Executes c (.drop x) (c.set m' x 0)

theorem Executes.allowed {statement : Statement σ} (executes : Executes c statement c') : statement.Allowed c.store := by
  cases executes <;> assumption

variable [Fintype σ]

def handles (c : Client σ) : Multiset Address := ∑ x, wordRefs (c.slots x)

/-- The handles in the other variables. -/
def others (c : Client σ) (x : σ) : Multiset Address := ∑ y ∈ Finset.univ.erase x, wordRefs (c.slots y)

theorem handles_eq (c : Client σ) (x : σ) : c.handles = wordRefs (c.slots x) + c.others x :=
  (Finset.add_sum_erase _ (fun y => wordRefs (c.slots y)) (Finset.mem_univ x)).symm

theorem handles_set (c : Client σ) (memory : GcState) (x : σ) (w : Address) :
    (c.set memory x w).handles = wordRefs w + c.others x := by
  have here : (c.set memory x w).slots x = w := Function.update_self ..
  rw [handles_eq _ x, here, others, others]
  refine congrArg _ (Finset.sum_congr rfl fun y member => congrArg wordRefs ?_)
  exact Function.update_of_ne (Finset.ne_of_mem_erase member) ..

theorem mem_wordRefs : w ∈ wordRefs w ↔ w ≠ 0 := by
  unfold wordRefs
  split <;> simp_all

theorem mem_others (apart : y ≠ x) (nonnull : c.slots y ≠ 0) : c.slots y ∈ c.others x :=
  Multiset.mem_sum.mpr ⟨y, Finset.mem_erase.mpr ⟨apart, Finset.mem_univ y⟩, mem_wordRefs.mpr nonnull⟩

omit [DecidableEq σ] in
theorem mem_handles : w ∈ c.handles ↔ w ≠ 0 ∧ ∃ x, c.slots x = w := by
  rw [handles, Multiset.mem_sum]
  constructor
  · rintro ⟨x, _, member⟩
    unfold wordRefs at member
    split at member
    · exact absurd member (Multiset.notMem_zero w)
    · rw [Multiset.mem_singleton.mp member]
      exact ⟨‹_›, x, rfl⟩
  · rintro ⟨nonnull, x, rfl⟩
    exact ⟨x, Finset.mem_univ x, mem_wordRefs.mpr nonnull⟩

omit [DecidableEq σ] in
/-- What the variables lead to is live. -/
theorem held_holders (consistent : Consistent c.memory holders c.handles) {o : Address} (held : c.store.Held o) : o ∈ holders := by
  obtain ⟨x, nonnull, path⟩ := held
  refine consistent.reach_holders (consistent.exact.refs_mem _ (mem_handles.mpr ⟨nonnull, x, rfl⟩)) ?_
  exact ReflTransGen.mono (fun p q pointer => HeapObject.mem_pointers.mpr pointer) _ _ path

theorem wordRefs_of_ne (nonnull : w ≠ 0) : wordRefs w = {w} := if_neg nonnull

theorem wordRefs_zero : wordRefs 0 = 0 := rfl

omit [DecidableEq σ] in
theorem slot_mem (nonnull : c.slots x ≠ 0) : c.slots x ∈ c.handles := mem_handles.mpr ⟨nonnull, x, rfl⟩

theorem others_of_null (null : c.slots x = 0) : c.others x = c.handles := by
  rw [c.handles_eq x, null, wordRefs_zero, zero_add]

theorem handles_take (c : Client σ) (memory : GcState) (null : c.slots x = 0) (w : Address) :
    (c.set memory x w).handles = wordRefs w + c.handles := by
  rw [handles_set, others_of_null null]

theorem handles_give (c : Client σ) (memory : GcState) (x : σ) :
    c.handles = wordRefs (c.slots x) + (c.set memory x 0).handles := by
  rw [handles_set, wordRefs_zero, zero_add, handles_eq]

theorem mem_give (c : Client σ) (memory : GcState) (apart : y ≠ x) (nonnull : c.slots y ≠ 0) :
    c.slots y ∈ (c.set memory x 0).handles := by
  rw [handles_set, wordRefs_zero, zero_add]
  exact mem_others apart nonnull

omit [DecidableEq σ] [Fintype σ] in
theorem modify_fields (c : Client σ) (parent : σ) (i : Nat) (w p : Address) :
    (c.memory.heap.modify (c.slots parent) (·.setField i w) p).fields = (c.store.store parent i w).fields p := by
  show _ = Function.update (fun o => (c.memory.heap o).fields) (c.slots parent) _ p
  by_cases here : p = c.slots parent
  · rw [here, Heap.modify_self, Function.update_self]
    rfl
  · rw [Heap.modify_of_ne _ _ here, Function.update_of_ne here]

/-- What a statement leaves, when `o` is the object that it may allocate: the
counts stay exact, and what is live has the fields that the statement gives it. -/
structure Agrees (c c' : Client σ) (statement : Statement σ) (o : Address) (holders holders' : Finset Address) : Prop where
  grow : holders' ⊆ statement.grown o holders
  consistent : Consistent c'.memory holders' c'.handles
  slots : c'.slots = (statement.effect o c.store).slots
  fields : ∀ p ∈ holders', c'.store.fields p = (statement.effect o c.store).fields p
  flags : ∀ p ∈ holders', c'.flags p = statement.flags o c.flags p

theorem Executes.agrees_malloc {cell typeInfo : Address} {isCyclicType : Bool} {fieldLength : Nat}
    (consistent : Consistent c.memory holders c.handles) (null : c.slots x = 0) (fits : objectSize fieldLength ≤ 512)
    (dead : (c.memory.heap cell).state = .dead) (address : 1 < cell) :
    Agrees c (c.set (c.memory.malloc cell typeInfo isCyclicType fieldLength) x cell)
      (.malloc x typeInfo isCyclicType fieldLength) cell holders (insert cell holders) where
  grow := Finset.Subset.refl _
  consistent := by
    rw [handles_take c _ null, wordRefs_of_ne (Nat.ne_zero_of_lt address)]
    exact consistent.malloc dead address typeInfo isCyclicType fieldLength
  slots := by
    rw [Statement.effect_malloc fits]
    rfl
  fields p _ := by
    rw [Statement.effect_malloc fits]
    show ((c.memory.malloc cell typeInfo isCyclicType fieldLength).heap p).fields =
      Function.update (fun o => (c.memory.heap o).fields) cell (List.replicate fieldLength 0) p
    by_cases here : p = cell
    · rw [here, GcState.malloc_self, Function.update_self]
      rfl
    · rw [GcState.malloc_of_ne _ _ _ _ here, Function.update_of_ne here]
  flags p _ := by
    show ((c.memory.malloc cell typeInfo isCyclicType fieldLength).heap p).isCyclicType =
      Function.update (fun o => (c.memory.heap o).isCyclicType) cell isCyclicType p
    by_cases here : p = cell
    · rw [here, GcState.malloc_self, Function.update_self]
      rfl
    · rw [GcState.malloc_of_ne _ _ _ _ here, Function.update_of_ne here]

/-- Where `malloc` returns null, the variable stays empty. -/
theorem Executes.agrees_null {typeInfo : Address} {isCyclicType : Bool} {fieldLength : Nat} {o : Address}
    (consistent : Consistent c.memory holders c.handles) (null : c.slots x = 0) (large : 512 < objectSize fieldLength)
    (outside : o ∉ holders) :
    Agrees c (c.set c.memory x 0) (.malloc x typeInfo isCyclicType fieldLength) o holders holders where
  grow := Finset.subset_insert o holders
  consistent := by
    rw [handles_take c _ null, wordRefs_zero, zero_add]
    exact consistent
  slots := by
    rw [Statement.effect_malloc_null large]
    rfl
  fields p _ := by
    rw [Statement.effect_malloc_null large]
    rfl
  flags p member := by
    have other : p ≠ o := fun same => outside (same ▸ member)
    exact (Function.update_of_ne other isCyclicType c.flags).symm

omit [DecidableEq σ] [Fintype σ] in
theorem modify_isCyclicType (h : Heap) (parent p : Address) (i : Nat) (w : Address) :
    (h.modify parent (·.setField i w) p).isCyclicType = (h p).isCyclicType := by
  rw [Heap.modify_apply]
  split <;> rfl

theorem Executes.agrees_setMove {parent child : σ} {i : Nat} {m' : GcState}
    (consistent : Consistent c.memory holders c.handles) (apart : parent ≠ child) (nonnull : c.slots parent ≠ 0)
    (bound : i < (c.store.fields (c.slots parent)).length)
    (run : Returns (fun fuel => setMoveObjectField fuel c.memory (c.slots parent) i (c.slots child)) m') (o : Address) :
    ∃ holders', Agrees c (c.set m' child 0) (.setMove parent i child) o holders holders' := by
  rw [c.handles_give m' child] at consistent
  obtain ⟨m'', run', holders', kept, remains⟩ :=
    consistent.setMoveObjectField_kept (c.mem_give m' apart nonnull) bound
  obtain rfl := run'.unique run
  refine ⟨holders', remains.shrink, kept, rfl, fun p member => ?_, fun p member => ?_⟩
  · exact (remains.fields p member).trans (c.modify_fields ..)
  · exact (remains.flags p member).trans (modify_isCyclicType ..)

/-- A statement does to the objects in use what it says. -/
theorem Executes.agrees {statement : Statement σ} (executes : Executes c statement c')
    (consistent : Consistent c.memory holders c.handles) :
    ∃ o ∉ holders, o ≠ 0 ∧ ∃ holders', Agrees c c' statement o holders holders' := by
  obtain ⟨fresh, outside⟩ := Infinite.exists_notMem_finset (insert 0 holders)
  rw [Finset.mem_insert, not_or] at outside
  cases executes with
  | @mallocNull x typeInfo isCyclicType fieldLength allowed large =>
    have large := (HeapAllocator.chooseBlock_none allowed.2).mp large
    exact ⟨fresh, outside.2, outside.1, holders, agrees_null consistent allowed.1 large outside.2⟩
  | @malloc x cell typeInfo isCyclicType fieldLength allowed fits dead address =>
    have free : cell ∉ holders := fun member => by simp [(consistent.live cell).mpr member] at dead
    have fits := Nat.not_lt.mp (mt (HeapAllocator.chooseBlock_none allowed.2).mpr fits)
    exact ⟨cell, free, Nat.ne_zero_of_lt address, _, agrees_malloc consistent allowed.1 fits dead address⟩
  | @getClone x parent i m' word allowed run =>
    obtain ⟨m'', run', kept⟩ := consistent.getCloneObjectField (i := i) (slot_mem allowed.2.1)
    obtain ⟨rfl, rfl⟩ := Prod.mk.inj (Option.some.inj (run'.symm.trans run))
    refine ⟨fresh, outside.2, outside.1, holders, Finset.Subset.refl _, ?_, rfl, fun p _ => ?_, fun p _ => ?_⟩
    · rw [handles_take c _ allowed.1]
      exact kept
    · exact getCloneObjectField_fields run p
    · exact getCloneObjectField_isCyclicType run p
  | @setClone parent i child m' allowed run =>
    obtain ⟨m'', run', holders', kept, remains⟩ :=
      consistent.setCloneObjectField_kept (slot_mem allowed.1) (slot_mem allowed.2.1) allowed.2.2
    obtain rfl := run'.unique run
    refine ⟨fresh, outside.2, outside.1, holders', remains.shrink, kept, rfl,
      fun p member => (remains.fields p member).trans ?_, fun p member => (remains.flags p member).trans ?_⟩
    · rw [incrementReferenceCount_modify_fields, c.modify_fields]
      rfl
    · rw [modify_isCyclicType, incrementReferenceCount_isCyclicType]
      rfl
  | @getMove x parent i m' word allowed run =>
    obtain ⟨m'', run', kept⟩ := consistent.getMoveObjectField (slot_mem allowed.2.1) allowed.2.2
    obtain ⟨rfl, rfl⟩ := Prod.mk.inj (Option.some.inj (run'.symm.trans run))
    refine ⟨fresh, outside.2, outside.1, holders, Finset.Subset.refl _, ?_, rfl, fun p _ => ?_, fun p _ => ?_⟩
    · rw [handles_take c _ allowed.1]
      exact kept
    · show (m''.heap p).fields = _
      rw [getMoveObjectField_heap run, c.modify_fields]
      rfl
    · show (m''.heap p).isCyclicType = _
      rw [getMoveObjectField_heap run, modify_isCyclicType]
      rfl
  | setMove allowed run =>
    exact ⟨fresh, outside.2, outside.1, agrees_setMove consistent allowed.1 allowed.2.1 allowed.2.2 run fresh⟩
  | setMoveUncheck allowed run =>
    obtain ⟨apart, nonnull, bound, null⟩ := allowed
    obtain ⟨holders', agrees⟩ :=
      agrees_setMove consistent apart nonnull bound (returns_setMoveObjectField null run) fresh
    exact ⟨fresh, outside.2, outside.1, holders', agrees.grow, agrees.consistent, agrees.slots, agrees.fields, agrees.flags⟩
  | @drop x m' allowed run =>
    rw [c.handles_give m' x, wordRefs_of_ne (w := c.slots x) allowed] at consistent
    obtain ⟨m'', run', holders', kept, remains⟩ := consistent.dropReference_kept
    obtain rfl := run'.unique run
    exact ⟨fresh, outside.2, outside.1, holders', remains.shrink, kept, rfl, remains.fields,
      remains.flags⟩

omit [DecidableEq σ] in
/-- There is always a dead cell: only finitely many objects are live or wait. -/
theorem exists_dead (consistent : Consistent c.memory holders c.handles) :
    ∃ cell, (c.memory.heap cell).state = .dead ∧ 1 < cell := by
  obtain ⟨cell, outside⟩ := Infinite.exists_notMem_finset (holders ∪ consistent.waitingFinite.toFinset ∪ {0, 1})
  simp only [Finset.mem_union, Set.Finite.mem_toFinset, Set.mem_ofPred_eq, Finset.mem_insert, Finset.mem_singleton,
    not_or] at outside
  obtain ⟨⟨notLive, notWaiting⟩, notNull, notOne⟩ := outside
  refine ⟨cell, ?_, Nat.one_lt_iff_ne_zero_and_ne_one.mpr ⟨notNull, notOne⟩⟩
  cases atCell : (c.memory.heap cell).state with
  | dead => rfl
  | live => exact absurd ((consistent.live cell).mp atCell) notLive
  | processGc => exact absurd atCell (consistent.idle cell)
  | waitingForGc => exact absurd atCell notWaiting

theorem exists_executes (consistent : Consistent c.memory holders c.handles) {statement : Statement σ}
    (allowed : statement.Allowed c.store) : ∃ c', Executes c statement c' := by
  cases statement with
  | malloc x typeInfo isCyclicType fieldLength =>
    by_cases large : HeapAllocator.chooseBlock fieldLength = none
    · exact ⟨_, .mallocNull allowed large⟩
    · obtain ⟨cell, dead, address⟩ := exists_dead consistent
      exact ⟨_, .malloc allowed large dead address⟩
  | getClone x parent i =>
    obtain ⟨m', run, _⟩ := consistent.getCloneObjectField (i := i) (slot_mem allowed.2.1)
    exact ⟨_, .getClone allowed run⟩
  | setClone parent i child =>
    obtain ⟨m', run, _⟩ := consistent.setCloneObjectField (slot_mem allowed.1) (slot_mem allowed.2.1) allowed.2.2
    exact ⟨_, .setClone allowed run⟩
  | getMove x parent i =>
    obtain ⟨m', run, _⟩ := consistent.getMoveObjectField (slot_mem allowed.2.1) allowed.2.2
    exact ⟨_, .getMove allowed run⟩
  | setMove parent i child =>
    rw [c.handles_give c.memory child] at consistent
    obtain ⟨m', run, _⟩ := consistent.setMoveObjectField (c.mem_give c.memory allowed.1 allowed.2.1) allowed.2.2
    exact ⟨_, .setMove allowed run⟩
  | setMoveUncheck parent i child =>
    have free : (c.memory.heap (c.slots parent)).lockFlag ≠ true := by simp [consistent.unlocked]
    have run : ∃ m', setMoveObjectFieldUncheck c.memory (c.slots parent) i (c.slots child) = some m' := by
      rw [setMoveObjectFieldUncheck, objectLock, if_neg free]
      exact ⟨_, rfl⟩
    obtain ⟨m', run⟩ := run
    exact ⟨_, .setMoveUncheck allowed run⟩
  | drop x =>
    rw [c.handles_give c.memory x, wordRefs_of_ne (w := c.slots x) allowed] at consistent
    obtain ⟨m', run, _⟩ := consistent.dropReference
    exact ⟨_, .drop allowed run⟩

/-- The memory that a program is meant to have: an object is named by the number
of the statement that allocates it, and none ever goes away. -/
structure Ideal (σ : Type) where
  store : ObjectStore σ Nat
  executed : Nat

namespace Ideal

def start (σ : Type) : Ideal σ := ⟨⟨fun _ => [], fun _ => 0⟩, 0⟩

def exec (s : Ideal σ) (statement : Statement σ) : Ideal σ := ⟨statement.effect (s.executed + 1) s.store, s.executed + 1⟩

def run (statements : List (Statement σ)) : Ideal σ := statements.foldl exec (start σ)

/-- The statements can be executed one after the other. -/
def Allows (s : Ideal σ) : List (Statement σ) → Prop
  | [] => True
  | statement :: rest => statement.Allowed s.store ∧ (s.exec statement).Allows rest

instance (s : Ideal σ) : DecidablePred s.Allows := go s
where
  go : ∀ s : Ideal σ, DecidablePred s.Allows
    | _, [] => .isTrue trivial
    | s, statement :: rest => haveI := go (s.exec statement) rest; inferInstanceAs (Decidable (_ ∧ _))

omit [Fintype σ] in
theorem run_append (statements : List (Statement σ)) (statement : Statement σ) :
    run (statements ++ [statement]) = (run statements).exec statement := by
  rw [run, List.foldl_append]
  rfl

omit [Fintype σ] in
/-- The number that the next object gets is not in use. -/
theorem run_within (statements : List (Statement σ)) :
    (run statements).store.Within (· ≤ (run statements).executed) := by
  induction statements using List.reverseRecOn with
  | nil => exact ⟨fun _ => Nat.zero_le 0, fun _ _ member => absurd member (List.not_mem_nil)⟩
  | append_singleton statements statement ih =>
    rw [run_append]
    exact Statement.effect_within (ih.mono fun _ => Nat.le_succ_of_le) (Nat.zero_le _) (Nat.le_refl _) statement

omit [Fintype σ] in
theorem next_unheld (statements : List (Statement σ)) : ¬(run statements).store.Held ((run statements).executed + 1) :=
  fun held => Nat.not_succ_le_self _ ((run_within statements).held held)

end Ideal

/-- A run of the program; collections come between its statements, at any time
and in any order of their iterations. -/
inductive Run : List (Statement σ) → Client σ → Prop
  | start : Run [] (start σ)
  | execute {statements statement c c'} (run : Run statements c) (executes : Executes c statement c') :
      Run (statements ++ [statement]) c'
  | collect {statements c m'} (run : Run statements c) (rootOrder releaseOrder : IterationOrder)
      (collected : Returns (fun fuel => gcCollect rootOrder releaseOrder fuel c.memory) m') : Run statements ⟨m', c.slots⟩

omit [DecidableEq σ] in
/-- A store that agrees with the program's on what is live has its shape. -/
theorem sameShape_of_live {t : ObjectStore σ Nat} {s : ObjectStore σ Address} (same : ObjectStore.SameShape s t)
    (consistent : Consistent c.memory holders c.handles) (slots : c.slots = s.slots)
    (fields : ∀ p ∈ holders, c.store.fields p = s.fields p) : ObjectStore.SameShape c.store t := by
  obtain ⟨r, naming⟩ := same
  exact ⟨_, naming.agree slots fun o held => fields o (held_holders consistent held)⟩

omit [DecidableEq σ] in
theorem start_consistent : Consistent (start σ).memory ∅ (start σ).handles := by
  have none : (start σ).handles = 0 := Finset.sum_eq_zero fun _ _ => rfl
  rw [none]
  exact .empty

theorem Run.sameShape {statements : List (Statement σ)} (run : Run statements c) :
    ∃ holders, Consistent c.memory holders c.handles ∧ ObjectStore.SameShape c.store (Ideal.run statements).store := by
  induction run with
  | start =>
    refine ⟨∅, start_consistent, Eq, fun _ => rfl, fun _ _ => ?_, rfl, fun h h' => h.symm.trans h', fun h h' => h.trans h'.symm⟩
    exact .nil
  | @execute statements statement c c' run executes ih =>
    obtain ⟨holders, consistent, same⟩ := ih
    obtain ⟨o, outside, nonnull, holders', agrees⟩ := executes.agrees consistent
    have unheld := mt (held_holders consistent) outside
    refine ⟨holders', agrees.consistent, ?_⟩
    rw [Ideal.run_append]
    exact sameShape_of_live (Statement.effect_sameShape same unheld (Ideal.next_unheld statements) nonnull
      (Nat.succ_ne_zero _) executes.allowed) agrees.consistent agrees.slots agrees.fields
  | @collect statements c m' run rootOrder releaseOrder collected ih =>
    obtain ⟨holders, consistent, same⟩ := ih
    obtain ⟨m'', run', holders', kept, result⟩ := returns_gcCollect consistent rootOrder releaseOrder
    obtain rfl := run'.unique collected
    exact ⟨holders', kept, sameShape_of_live (c := ⟨m'', c.slots⟩) same kept rfl result.kept⟩

theorem Run.executes_iff {statements : List (Statement σ)} (run : Run statements c) (statement : Statement σ) :
    (∃ c', Executes c statement c') ↔ statement.Allowed (Ideal.run statements).store := by
  obtain ⟨holders, consistent, same⟩ := run.sameShape
  rw [← Statement.allowed_iff same]
  refine ⟨?_, exists_executes consistent⟩
  rintro ⟨_, executes⟩
  exact executes.allowed

/-- What the ideal memory allows is executed. -/
theorem Run.extend {before : List (Statement σ)} (run : Run before c) {after : List (Statement σ)}
    (allows : (Ideal.run before).Allows after) : ∃ c', Run (before ++ after) c' := by
  induction after generalizing before c with
  | nil => exact ⟨c, by rwa [List.append_nil]⟩
  | cons statement after ih =>
    obtain ⟨c', executes⟩ := (run.executes_iff statement).mpr allows.1
    have later := allows.2
    rw [← Ideal.run_append] at later
    obtain ⟨c'', run'⟩ := ih (run.execute executes) later
    exact ⟨c'', by rwa [List.append_assoc] at run'⟩

/-- The program cannot tell its memory from the ideal one: counts, deferred
releases, collections and reused addresses make no difference to it, and it
gets as far as it would there. -/
theorem run_ideal {statements : List (Statement σ)} (run : Run statements c) :
    ObjectStore.Indistinguishable c.store (Ideal.run statements).store ∧
    (∀ statement : Statement σ, (∃ c', Executes c statement c') ↔ statement.Allowed (Ideal.run statements).store) ∧
    ∀ rootOrder releaseOrder, ∃ m', Returns (fun fuel => gcCollect rootOrder releaseOrder fuel c.memory) m' := by
  obtain ⟨holders, consistent, same⟩ := run.sameShape
  refine ⟨same.indistinguishable, run.executes_iff, fun rootOrder releaseOrder => ?_⟩
  obtain ⟨m', returned, _⟩ := returns_gcCollect consistent rootOrder releaseOrder
  exact ⟨m', returned⟩

/-- Two objects refer to each other and share a tail; only one of them stays in
a variable. -/
def tailStatements : List (Statement (Fin 4)) :=
  [.malloc 0 0 true 2, .malloc 1 0 true 2, .malloc 2 0 true 1, .setClone 0 0 1, .setClone 1 0 0, .setClone 0 1 2,
    .setClone 1 1 2, .drop 1, .drop 2]

/-- The program keeps the tail and gives the cycle up. -/
def dropStatements : List (Statement (Fin 4)) := [.getClone 1 0 1, .drop 0]

/-- The first object may get an address of the cycle; the second is too large. -/
def nextStatements : List (Statement (Fin 4)) := [.malloc 0 0 true 1, .malloc 3 0 true 60]

theorem run_ideal_sharedTail : ∃ c c' : Client (Fin 4), Run tailStatements c ∧ c.slots 0 ≠ 0 ∧
    c.store.follow (c.slots 0) [0, 1] = c.store.follow (c.slots 0) [1] ∧ c.store.follow (c.slots 0) [0, 1] ≠ 0 ∧
    Run (tailStatements ++ dropStatements ++ nextStatements) c' ∧ c'.slots 0 ≠ c'.slots 1 ∧ c'.slots 3 = 0 := by
  have allowed : (Ideal.run []).Allows tailStatements := by decide
  have later : (Ideal.run tailStatements).Allows dropStatements := by decide
  have last : (Ideal.run (tailStatements ++ dropStatements)).Allows nextStatements := by decide
  obtain ⟨c, run⟩ := Run.start.extend allowed
  obtain ⟨dropped, run'⟩ := run.extend later
  obtain ⟨m, returned⟩ := (run_ideal run').2.2 ⟨id, .refl⟩ ⟨List.reverse, List.reverse_perm⟩
  obtain ⟨c', run''⟩ := (run'.collect _ _ returned).extend last
  have seen := (run_ideal run).1
  have seen' := (run_ideal run'').1
  refine ⟨c, c', run, ?_, (seen.same 0 [0, 1] 0 [1]).mpr (by decide), ?_, run'', ?_, (seen'.null 3 []).mpr (by decide)⟩
  · exact (not_congr (seen.null 0 [])).mpr (by decide)
  · exact (not_congr (seen.null 0 [0, 1])).mpr (by decide)
  · exact (not_congr (seen'.same 0 [] 1 [])).mpr (by decide)

end Client
end CatLa
