import Mathlib.Data.Fintype.Sigma
import Mathlib.Data.Fintype.Sum
import Mathlib.Tactic.DeriveFintype
import Mathlib.Tactic.FinCases
import CatLa.Gc.ClientRuns
import CatLa.Gc.GarbageProgress

namespace CatLa
open FuelLoop GraphSearch Relation

/-- How far a program is that keeps its objects in one module: so many of the
ten fields of the module are set, and these variables are not empty. -/
structure Stage (σ : Type) where
  filled : Nat
  full : Finset σ

/-- What such a program may do. Nothing but the module is of a type that is not
cyclic, and nothing refers to it. -/
inductive Stage.Moves {σ : Type} [DecidableEq σ] (root : σ) : Stage σ → Statement σ → Stage σ → Prop
  | createModule {typeInfo} : Moves root ⟨0, ∅⟩ (.malloc root typeInfo false 10) ⟨0, {root}⟩
  | malloc {filled full x typeInfo n} (module : root ∈ full) (empty : x ∉ full) (two : 2 ≤ n) (few : n < 60) :
      Moves root ⟨filled, full⟩ (.malloc x typeInfo true n) ⟨filled, insert x full⟩
  | fill {filled full x} (module : root ∈ full) (held : x ∈ full) (other : x ≠ root) (bound : filled < 10) :
      Moves root ⟨filled, full⟩ (.setMoveUncheck root filled x) ⟨filled + 1, full.erase x⟩
  | take {filled full x i} (module : root ∈ full) (empty : x ∉ full) (set : i < filled) :
      Moves root ⟨filled, full⟩ (.getClone x root i) ⟨filled, insert x full⟩
  | put {filled full x i} (module : root ∈ full) (held : x ∈ full) (other : x ≠ root) (set : i < filled) :
      Moves root ⟨filled, full⟩ (.setMove root i x) ⟨filled, full.erase x⟩
  | link {filled full x y i} (module : root ∈ full) (held : x ∈ full) (other : x ≠ root) (held' : y ∈ full) (other' : y ≠ root)
      (two : i < 2) : Moves root ⟨filled, full⟩ (.setClone x i y) ⟨filled, full⟩
  | give {filled full x y i} (module : root ∈ full) (held : x ∈ full) (other : x ≠ root) (held' : y ∈ full) (other' : y ≠ root)
      (apart : x ≠ y) (two : i < 2) : Moves root ⟨filled, full⟩ (.setMove x i y) ⟨filled, full.erase y⟩
  | drop {filled full x} (held : x ∈ full) (last : x = root → filled = 10) :
      Moves root ⟨filled, full⟩ (.drop x) ⟨filled, full.erase x⟩

/-- The memory of a program in this stage; the module has the address `a`. -/
structure Tidy {σ : Type} (root : σ) (stage : Stage σ) (a : Address) (s : ObjectStore σ Address) (flags : Address → Bool)
    (holders : Finset Address) : Prop where
  address : a ≠ 0
  full : ∀ x, s.slots x ≠ 0 ↔ x ∈ stage.full
  module : root ∈ stage.full → s.slots root = a
  ten : root ∈ stage.full → (s.fields a).length = 10
  filled : root ∈ stage.full → ∀ i < 10, (s.fields a).getD i 0 = 0 ↔ stage.filled ≤ i
  bound : stage.filled ≤ 10
  slots : ∀ x, x ≠ root → s.slots x ≠ a
  fields : ∀ p ∈ holders, a ∉ s.fields p
  others : ∀ p ∈ holders, p ≠ a → flags p = true ∧ 2 ≤ (s.fields p).length
  start : root ∉ stage.full → stage.filled = 0 → holders = ∅

namespace Tidy
variable {σ : Type} {root x y : σ} {stage : Stage σ} {a w : Address} {s t : ObjectStore σ Address} {flags flags' : Address → Bool}
  {holders holders' : Finset Address} {i n filled : Nat} {full : Finset σ}

theorem start_empty (root : σ) {s : ObjectStore σ Address} (empty : ∀ x, s.slots x = 0) (flags : Address → Bool) :
    Tidy root ⟨0, ∅⟩ 1 s flags ∅ where
  address := one_ne_zero
  full x := by simp [empty x]
  module member := absurd member (Finset.notMem_empty root)
  ten member := absurd member (Finset.notMem_empty root)
  filled member := absurd member (Finset.notMem_empty root)
  bound := Nat.zero_le 10
  slots x _ := by simp [empty x]
  fields p member := absurd member (Finset.notMem_empty p)
  others p member := absurd member (Finset.notMem_empty p)
  start _ _ := rfl

/-- Nothing else matters than what is live. -/
theorem congr (tidy : Tidy root stage a s flags holders) (shrink : holders' ⊆ holders) (slots : t.slots = s.slots)
    (fields : ∀ p ∈ holders', t.fields p = s.fields p) (same : ∀ p ∈ holders', flags' p = flags p)
    (module : root ∈ stage.full → a ∈ holders') : Tidy root stage a t flags' holders' where
  address := tidy.address
  full x := by
    rw [slots]
    exact tidy.full x
  module member := by
    rw [slots]
    exact tidy.module member
  ten member := by
    rw [fields a (module member)]
    exact tidy.ten member
  filled member := by
    rw [fields a (module member)]
    exact tidy.filled member
  bound := tidy.bound
  slots x other := by
    rw [slots]
    exact tidy.slots x other
  fields p member := by
    rw [fields p member]
    exact tidy.fields p (shrink member)
  others p member other := by
    rw [fields p member, same p member]
    exact tidy.others p (shrink member) other
  start none zero := by
    rw [tidy.start none zero] at shrink
    exact Finset.subset_empty.mp shrink

/-- A variable gets an object that is not the module. -/
theorem hold [DecidableEq σ] (tidy : Tidy root stage a s flags holders) (module : root ∈ stage.full) (other : x ≠ root)
    (nonnull : w ≠ 0) (notModule : w ≠ a) : Tidy root ⟨stage.filled, insert x stage.full⟩ a (s.setSlot x w) flags holders where
  address := tidy.address
  full y := by
    rw [ObjectStore.setSlot_slots, Finset.mem_insert, ← tidy.full y]
    split <;> simp_all
  module _ := by
    rw [ObjectStore.setSlot_slots, if_neg (Ne.symm other)]
    exact tidy.module module
  ten _ := tidy.ten module
  filled _ := tidy.filled module
  bound := tidy.bound
  slots y apart := by
    rw [ObjectStore.setSlot_slots]
    split
    · exact notModule
    · exact tidy.slots y apart
  fields := tidy.fields
  others := tidy.others
  start none := absurd (Finset.mem_insert_of_mem module) none

theorem clear [DecidableEq σ] (tidy : Tidy root stage a s flags holders) (last : x = root → stage.filled = 10) :
    Tidy root ⟨stage.filled, stage.full.erase x⟩ a (s.setSlot x 0) flags holders where
  address := tidy.address
  full y := by
    rw [ObjectStore.setSlot_slots, Finset.mem_erase, ← tidy.full y]
    split <;> simp_all
  module member := by
    obtain ⟨other, member⟩ := Finset.mem_erase.mp member
    rw [ObjectStore.setSlot_slots, if_neg other]
    exact tidy.module member
  ten member := tidy.ten (Finset.mem_of_mem_erase member)
  filled member := tidy.filled (Finset.mem_of_mem_erase member)
  bound := tidy.bound
  slots y apart := by
    rw [ObjectStore.setSlot_slots]
    split
    · exact Ne.symm tidy.address
    · exact tidy.slots y apart
  fields := tidy.fields
  others := tidy.others
  start none zero := by
    refine tidy.start (fun member => none (Finset.mem_erase.mpr ⟨fun here => ?_, member⟩)) zero
    have ten := last here.symm
    have zero : stage.filled = 0 := zero
    omega

/-- The fields of an object change; if it is the module, one more may be set. -/
theorem setFields (tidy : Tidy root stage a s flags holders) (module : root ∈ stage.full) (p : Address)
    {words : List Address} (length : words.length = (s.fields p).length) (notModule : a ∉ words) (bound : filled ≤ 10)
    (atModule : p = a → ∀ i < 10, words.getD i 0 = 0 ↔ filled ≤ i) (elsewhere : p ≠ a → filled = stage.filled) :
    Tidy root ⟨filled, stage.full⟩ a (s.setFields p words) flags holders where
  address := tidy.address
  full := tidy.full
  module := tidy.module
  ten _ := by
    rw [ObjectStore.setFields_fields]
    split
    · rw [length, ← ‹a = p›]
      exact tidy.ten module
    · exact tidy.ten module
  filled _ := by
    rw [ObjectStore.setFields_fields]
    split
    · exact atModule (Eq.symm ‹a = p›)
    · rw [elsewhere (Ne.symm ‹a ≠ p›)]
      exact tidy.filled module
  bound := bound
  slots := tidy.slots
  fields q member := by
    rw [ObjectStore.setFields_fields]
    split
    · exact notModule
    · exact tidy.fields q member
  others q member other := by
    rw [ObjectStore.setFields_fields]
    split
    · rw [length, ← ‹q = p›]
      exact tidy.others q member other
    · exact tidy.others q member other
  start none := absurd module none

theorem alloc [DecidableEq σ] (tidy : Tidy root stage a s flags holders) (module : root ∈ stage.full) (other : x ≠ root)
    {o : Address} (nonnull : o ≠ 0) (notModule : o ≠ a) (two : 2 ≤ n) :
    Tidy root ⟨stage.filled, insert x stage.full⟩ a (s.alloc x o n) (Function.update flags o true) (insert o holders) := by
  have grown : Tidy root stage a (s.setFields o (List.replicate n 0)) (Function.update flags o true) (insert o holders) :=
    { tidy with
      ten := fun _ => by
        rw [ObjectStore.setFields_fields, if_neg (Ne.symm notModule)]
        exact tidy.ten module
      filled := fun _ => by
        rw [ObjectStore.setFields_fields, if_neg (Ne.symm notModule)]
        exact tidy.filled module
      fields := fun p member => by
        rw [ObjectStore.setFields_fields]
        split
        · exact fun member => tidy.address (List.eq_of_mem_replicate member)
        · exact tidy.fields p (Finset.mem_of_mem_insert_of_ne member ‹p ≠ o›)
      others := fun p member away => by
        rw [ObjectStore.setFields_fields]
        split
        · rw [‹p = o›, Function.update_self, List.length_replicate]
          exact ⟨rfl, two⟩
        · rw [Function.update_of_ne ‹p ≠ o›]
          exact tidy.others p (Finset.mem_of_mem_insert_of_ne member ‹p ≠ o›) away
      start := fun none => absurd module none }
  exact grown.hold module other nonnull notModule

/-- The module is created. -/
theorem create [DecidableEq σ] (tidy : Tidy root ⟨0, ∅⟩ a s flags holders) {o : Address} (nonnull : o ≠ 0)
    (isCyclicType : Bool) : Tidy root ⟨0, {root}⟩ o (s.alloc root o 10) (Function.update flags o isCyclicType) {o} := by
  have empty (x : σ) : s.slots x = 0 := not_not.mp fun held => Finset.notMem_empty x ((tidy.full x).mp held)
  have fields : (s.alloc root o 10).fields o = List.replicate 10 0 := Function.update_self ..
  refine ⟨nonnull, fun x => ?_, fun _ => Function.update_self .., fun _ => ?_, fun _ i ten => ?_, Nat.zero_le 10, fun x other => ?_,
    fun p member => ?_, fun p member away => ?_, fun none => absurd (Finset.mem_singleton_self root) none⟩
  · rw [ObjectStore.alloc, ObjectStore.setSlot_slots, Finset.mem_singleton]
    split <;> simp_all
  · rw [fields, List.length_replicate]
  · rw [fields, List.getD_eq_getElem _ _ (by simpa using ten), List.getElem_replicate]
    exact iff_of_true rfl (Nat.zero_le i)
  · rw [ObjectStore.alloc, ObjectStore.setSlot_slots, if_neg other, ObjectStore.setFields_slots, empty x]
    exact Ne.symm nonnull
  · rw [Finset.mem_singleton.mp member, fields]
    exact fun member => nonnull (List.eq_of_mem_replicate member)
  · exact absurd (Finset.mem_singleton.mp member) away

/-- An object with few fields has a size class. -/
theorem objectSize_few (few : n < 60) : objectSize n ≤ 512 := by
  rw [objectSize, sizeofHeapObject]
  omega

/-- What the program does next, it may do. -/
theorem allowed {c : Client σ} [DecidableEq σ] [Fintype σ] {stage' : Stage σ} {statement : Statement σ}
    (tidy : Tidy root stage a c.store c.flags holders) (consistent : Consistent c.memory holders c.handles)
    (moves : Stage.Moves root stage statement stage') : statement.Allowed c.store := by
  have empty {x : σ} (outside : x ∉ stage.full) : c.store.slots x = 0 := not_not.mp (mt (tidy.full x).mp outside)
  have inside {i : Nat} (module : root ∈ stage.full) (bound : i < 10) : i < (c.store.fields (c.store.slots root)).length := by
    rw [tidy.module module, tidy.ten module]
    exact bound
  have small {x : σ} {i : Nat} (held : x ∈ stage.full) (other : x ≠ root) (two : i < 2) :
      i < (c.store.fields (c.store.slots x)).length := by
    have live := consistent.exact.refs_mem _ (Client.slot_mem ((tidy.full x).mpr held))
    exact Nat.lt_of_lt_of_le two (tidy.others _ live (tidy.slots x other)).2
  cases moves with
  | createModule => exact ⟨empty (Finset.notMem_empty root), by decide⟩
  | malloc module outside two few => exact ⟨empty outside, Nat.lt_of_le_of_lt (objectSize_few few) (by norm_num)⟩
  | fill module held other bound =>
    refine ⟨Ne.symm other, (tidy.full root).mpr module, inside module bound, ?_⟩
    rw [ObjectStore.word, tidy.module module]
    exact (tidy.filled module _ bound).mpr le_rfl
  | take module outside set =>
    exact ⟨empty outside, (tidy.full root).mpr module, inside module (Nat.lt_of_lt_of_le set tidy.bound)⟩
  | put module held other set =>
    exact ⟨Ne.symm other, (tidy.full root).mpr module, inside module (Nat.lt_of_lt_of_le set tidy.bound)⟩
  | link module held other held' other' two => exact ⟨(tidy.full _).mpr held, (tidy.full _).mpr held', small held other two⟩
  | give module held other held' other' apart two => exact ⟨apart, (tidy.full _).mpr held, small held other two⟩
  | drop held last => exact (tidy.full _).mpr held

/-- A word of another object does not become the module. -/
theorem set_link (tidy : Tidy root stage a s flags holders) (module : root ∈ stage.full) {p : Address} (live : p ∈ holders)
    (away : p ≠ a) (notModule : w ≠ a) (i : Nat) :
    Tidy root stage a (s.setFields p ((s.fields p).set i w)) flags holders := by
  refine tidy.setFields module p (List.length_set ..) (fun member => ?_) tidy.bound (fun here => absurd here away) fun _ => rfl
  rcases List.mem_or_eq_of_mem_set member with member | same
  · exact tidy.fields p live member
  · exact notModule same.symm

/-- A word is stored into the module: over another one, or into the next field. -/
theorem set_module (tidy : Tidy root stage a s flags holders) (module : root ∈ stage.full) (live : a ∈ holders)
    (nonnull : w ≠ 0) (notModule : w ≠ a) (bound : filled ≤ 10) (i : Nat)
    (next : filled = stage.filled ∧ i < filled ∨ filled = stage.filled + 1 ∧ i = stage.filled) :
    Tidy root ⟨filled, stage.full⟩ a (s.store root i w) flags holders := by
  rw [ObjectStore.store, tidy.module module]
  refine tidy.setFields module a (List.length_set ..) (fun member => ?_) bound (fun _ j ten => ?_) fun away => absurd rfl away
  · rcases List.mem_or_eq_of_mem_set member with member | same
    · exact tidy.fields a live member
    · exact notModule same.symm
  · have before := tidy.filled module j ten
    have inside : j < (s.fields a).length := by
      rw [tidy.ten module]
      exact ten
    rw [List.getD_eq_getElem _ _ inside] at before
    rw [List.getD_eq_getElem _ _ (by simpa using inside), List.getElem_set]
    split
    · exact iff_of_false nonnull (by omega)
    · rw [before]
      omega

theorem effect {c : Client σ} [DecidableEq σ] [Fintype σ] {stage' : Stage σ} {statement : Statement σ}
    (tidy : Tidy root stage a c.store c.flags holders) (consistent : Consistent c.memory holders c.handles)
    (moves : Stage.Moves root stage statement stage') {o : Address} (outside : o ∉ holders) (nonnull : o ≠ 0) :
    ∃ a', Tidy root stage' a' (statement.effect o c.store) (statement.flags o c.flags) (statement.grown o holders) := by
  have live {x : σ} (held : x ∈ stage.full) : c.slots x ∈ holders :=
    consistent.exact.refs_mem _ (Client.slot_mem ((tidy.full x).mpr held))
  have liveModule (module : root ∈ stage.full) : a ∈ holders := tidy.module module ▸ live module
  have apart {x : σ} (module : root ∈ stage.full) (empty : x ∉ stage.full) : x ≠ root := fun here => empty (here ▸ module)
  cases moves with
  | createModule =>
    refine ⟨o, ?_⟩
    have created := tidy.create nonnull false
    rw [tidy.start (Finset.notMem_empty root) rfl, Statement.effect_malloc (by decide)]
    exact created
  | malloc module empty two few =>
    rw [Statement.effect_malloc (objectSize_few few)]
    exact ⟨a, tidy.alloc module (apart module empty) nonnull (fun here => outside (here ▸ liveModule module)) two⟩
  | fill module held other bound =>
    have word := (tidy.full _).mpr held
    have stored := tidy.set_module module (liveModule module) word (tidy.slots _ other) (Nat.succ_le_of_lt bound) _ (.inr ⟨rfl, rfl⟩)
    exact ⟨a, stored.clear fun here => absurd here other⟩
  | @take filled full x i module empty set =>
    have ten : i < 10 := Nat.lt_of_lt_of_le set tidy.bound
    have inside : i < (c.store.fields a).length := by
      rw [tidy.ten module]
      exact ten
    have word : c.store.word root i = (c.store.fields a).getD i 0 := by rw [ObjectStore.word, tidy.module module]
    refine ⟨a, tidy.hold module (apart module empty) ?_ ?_⟩
    · rw [word]
      exact fun null => absurd ((tidy.filled module i ten).mp null) (Nat.not_le.mpr set)
    · rw [word, List.getD_eq_getElem _ _ inside]
      intro here
      have member := List.getElem_mem inside
      rw [here] at member
      exact tidy.fields a (liveModule module) member
  | put module held other set =>
    have word := (tidy.full _).mpr held
    have stored := tidy.set_module module (liveModule module) word (tidy.slots _ other) tidy.bound _ (.inl ⟨rfl, set⟩)
    exact ⟨a, stored.clear fun here => absurd here other⟩
  | link module held other held' other' two =>
    exact ⟨a, tidy.set_link module (live held) (tidy.slots _ other) (tidy.slots _ other') _⟩
  | @give _ _ _ _ i module held other held' other' different two =>
    have stored := tidy.set_link module (live held) (tidy.slots _ other) (tidy.slots _ other') i
    exact ⟨a, stored.clear fun here => absurd here other'⟩
  | drop held last => exact ⟨a, tidy.clear last⟩

/-- A statement keeps the memory in order. -/
theorem executes {c c' : Client σ} [DecidableEq σ] [Fintype σ] {stage' : Stage σ} {statement : Statement σ}
    (tidy : Tidy root stage a c.store c.flags holders) (consistent : Consistent c.memory holders c.handles)
    (moves : Stage.Moves root stage statement stage') (executes : Client.Executes c statement c') :
    ∃ holders' a', Consistent c'.memory holders' c'.handles ∧ Tidy root stage' a' c'.store c'.flags holders' := by
  obtain ⟨o, outside, nonnull, holders', agrees⟩ := executes.agrees consistent
  obtain ⟨a', after⟩ := tidy.effect consistent moves outside nonnull
  refine ⟨holders', a', agrees.consistent, after.congr agrees.grow agrees.slots agrees.fields agrees.flags fun module => ?_⟩
  rw [← after.module module, ← agrees.slots]
  refine agrees.consistent.exact.refs_mem _ (Client.slot_mem ?_)
  rw [agrees.slots]
  exact (after.full root).mpr module

/-- And so does a collection. -/
theorem collected {c : Client σ} [DecidableEq σ] [Fintype σ] {m' : GcState}
    (tidy : Tidy root stage a c.store c.flags holders) (kept : Consistent m' holders' c.handles)
    (collected : Collected c.memory m' holders holders' c.handles) :
    Tidy root stage a (Client.store ⟨m', c.slots⟩) (Client.flags ⟨m', c.slots⟩) holders' := by
  refine tidy.congr collected.shrink rfl collected.kept (fun p member => ?_) fun module => ?_
  · show (m'.heap p).isCyclicType = (c.memory.heap p).isCyclicType
    rw [collected.same p member]
  · rw [← tidy.module module]
    exact kept.exact.refs_mem _ (Client.slot_mem ((tidy.full root).mpr module))

/-- The module is on no cycle. -/
theorem cyclesCyclic {c : Client σ} (tidy : Tidy root stage a c.store c.flags holders) : CyclesCyclic c.memory holders := by
  intro o cycle
  obtain ⟨q, edge, path⟩ := TransGen.head'_iff.mp cycle
  obtain ⟨p, _, into⟩ := TransGen.tail'_iff.mp cycle
  refine (tidy.others o edge.1 fun here => ?_).1
  exact tidy.fields p into.1 (here ▸ (HeapObject.mem_pointers.mp into.2).1)

end Tidy

/-- What a program does from one stage to another. -/
inductive Stage.Follows {σ : Type} [DecidableEq σ] (root : σ) : Stage σ → List (Statement σ) → Stage σ → Prop
  | done {stage} : Follows root stage [] stage
  | next {stage stage' last statement statements} (moves : Moves root stage statement stage')
      (rest : Follows root stage' statements last) : Follows root stage (statement :: statements) last

theorem Stage.follows_append {σ : Type} [DecidableEq σ] {root : σ} {first last : Stage σ} {before after : List (Statement σ)} :
    Follows root first (before ++ after) last ↔ ∃ middle, Follows root first before middle ∧ Follows root middle after last := by
  constructor
  · intro follows
    induction before generalizing first with
    | nil => exact ⟨first, .done, follows⟩
    | cons statement before ih =>
      cases follows with
      | next moves rest =>
        obtain ⟨middle, front, back⟩ := ih rest
        exact ⟨middle, .next moves front, back⟩
  · rintro ⟨middle, front, back⟩
    induction front with
    | done => exact back
    | next moves _ ih => exact .next moves (ih back)

namespace Client
variable {σ : Type} [DecidableEq σ] [Fintype σ] {root : σ} {stage : Stage σ} {c : Client σ}
  {before after statements : List (Statement σ)} {statement : Statement σ}

/-- Its memory is in order all the time. -/
theorem Run.tidy (run : Run statements c) (follows : Stage.Follows root ⟨0, ∅⟩ statements stage) :
    ∃ holders a, Consistent c.memory holders c.handles ∧ Tidy root stage a c.store c.flags holders := by
  induction run generalizing stage with
  | start =>
    cases follows with
    | done => exact ⟨∅, 1, start_consistent, Tidy.start_empty root (fun _ => rfl) _⟩
  | execute _ executes ih =>
    obtain ⟨middle, front, back⟩ := Stage.follows_append.mp follows
    obtain ⟨holders, a, consistent, tidy⟩ := ih front
    cases back with
    | next moves rest =>
      cases rest with
      | done => exact tidy.executes consistent moves executes
  | collect _ rootOrder releaseOrder collected ih =>
    obtain ⟨holders, a, consistent, tidy⟩ := ih follows
    obtain ⟨m', run, holders', kept, result⟩ := returns_gcCollect consistent rootOrder releaseOrder
    obtain rfl := run.unique collected
    exact ⟨holders', a, kept, tidy.collected kept result⟩

theorem Run.next (run : Run before c) (follows : Stage.Follows root ⟨0, ∅⟩ (before ++ statement :: after) stage) :
    ∃ c', Executes c statement c' := by
  obtain ⟨middle, front, back⟩ := Stage.follows_append.mp follows
  obtain ⟨holders, a, consistent, tidy⟩ := run.tidy front
  cases back with
  | next moves rest => exact exists_executes consistent (tidy.allowed consistent moves)

omit [Fintype σ] in
theorem follows_front (follows : Stage.Follows root ⟨0, ∅⟩ (before ++ after) stage) :
    ∃ middle, Stage.Follows root ⟨0, ∅⟩ before middle := by
  obtain ⟨middle, front, _⟩ := Stage.follows_append.mp follows
  exact ⟨middle, front⟩

/-- It comes to its end. -/
theorem exists_run (follows : Stage.Follows root ⟨0, ∅⟩ statements stage) : ∃ c, Run statements c := by
  induction statements using List.reverseRecOn generalizing stage with
  | nil => exact ⟨_, .start⟩
  | append_singleton before statement ih =>
    obtain ⟨_, front⟩ := follows_front follows
    obtain ⟨c, run⟩ := ih front
    obtain ⟨c', executes⟩ := run.next follows
    exact ⟨c', run.execute executes⟩

/-- When it has emptied its variables, collections free all that it has left. -/
theorem Run.ends (run : Run statements c) {filled : Nat} (follows : Stage.Follows root ⟨0, ∅⟩ statements ⟨filled, ∅⟩) :
    ∃ alive : Finset Address, (∀ o, o ∈ alive ↔ (c.memory.heap o).state ≠ .dead) ∧
      ∀ orders : List (IterationOrder × IterationOrder), ∃ m', Returns (fun fuel => collections fuel orders c.memory) m' ∧
        (alive.card ≤ orders.length → (∀ o, (m'.heap o).state = .dead) ∧ m'.suspectedObjectList = []) := by
  obtain ⟨holders, a, consistent, tidy⟩ := run.tidy follows
  have empty (x : σ) : c.slots x = 0 := not_not.mp fun held => Finset.notMem_empty x ((tidy.full x).mp held)
  have none : c.handles = 0 := Finset.sum_eq_zero fun x _ => by rw [empty x, wordRefs_zero]
  have unheld (m : GcState) (o : Address) : ¬Held m c.handles o := by
    rintro ⟨x, handle, _⟩
    rw [none] at handle
    exact absurd handle (Multiset.notMem_zero x)
  have exact (o : Address) : o ∈ consistent.garbage_finite.toFinset ↔ Garbage c.memory c.handles o := by
    rw [Set.Finite.mem_toFinset]
    rfl
  refine ⟨consistent.garbage_finite.toFinset, fun o => (exact o).trans (and_iff_left (unheld _ o)), fun orders => ?_⟩
  obtain ⟨m', returns, ⟨holders', kept⟩, _, left, final, size⟩ := returns_collections orders consistent tidy.cyclesCyclic exact
  refine ⟨m', returns, fun enough => ?_⟩
  have gone : left = ∅ := Finset.card_eq_zero.mp (by omega)
  have dead (o : Address) : (m'.heap o).state = .dead := by
    by_contra alive
    have stays := (final o).mpr ⟨alive, unheld _ o⟩
    rw [gone] at stays
    exact absurd stays (Finset.notMem_empty o)
  exact ⟨dead, List.eq_nil_iff_forall_not_mem.mpr fun o listed => ((kept.listed o).mp listed).1 (dead o)⟩

end Client

/-- The lists of several threads, one into the other. -/
inductive Interleaves {τ α : Type} [DecidableEq τ] : (τ → List α) → List α → Prop
  | done {lists} (ended : ∀ t, lists t = []) : Interleaves lists []
  | next {lists : τ → List α} {t a more l} (first : lists t = a :: more)
      (rest : Interleaves (Function.update lists t more) l) : Interleaves lists (a :: l)

/-- The variables of `main`, and those of each thread that runs `func1`. -/
inductive Variable (τ : Type)
  | moduleObject
  | object
  | obj (thread : τ) (j : Fin 3)
  deriving DecidableEq, Fintype

/-- What `get_10` decides in one round of `func1`: which branch is taken, and
which fields are used. -/
inductive Round
  | fresh (k : Fin 3 → Fin 10)
  | share (k : Fin 3 → Fin 10) (f₁ f₂ : Fin 2)
  | cycle (k : Fin 3 → Fin 10) (f : Fin 3 → Fin 2)

section Program
variable {τ : Type} (moduleType objectType2 : Address)

/-- One round of the loop of `func1`. -/
def func1Round (t : τ) : Round → List (Statement (Variable τ))
  | .fresh k =>
    [.malloc (.obj t 0) objectType2 true 3, .malloc (.obj t 1) objectType2 true 3, .malloc (.obj t 2) objectType2 true 3,
      .setMove .moduleObject (k 0) (.obj t 0), .setMove .moduleObject (k 1) (.obj t 1),
      .setMove .moduleObject (k 2) (.obj t 2)]
  | .share k f₁ f₂ =>
    [.getClone (.obj t 0) .moduleObject (k 0), .getClone (.obj t 1) .moduleObject (k 1),
      .getClone (.obj t 2) .moduleObject (k 2), .setClone (.obj t 0) f₁ (.obj t 1),
      .setMove (.obj t 1) f₂ (.obj t 2), .drop (.obj t 0), .drop (.obj t 1)]
  | .cycle k f =>
    [.getClone (.obj t 0) .moduleObject (k 0), .getClone (.obj t 1) .moduleObject (k 1),
      .getClone (.obj t 2) .moduleObject (k 2), .setClone (.obj t 0) (f 0) (.obj t 1),
      .setClone (.obj t 1) (f 1) (.obj t 2), .setClone (.obj t 2) (f 2) (.obj t 0),
      .drop (.obj t 0), .drop (.obj t 1), .drop (.obj t 2)]

def func1 (t : τ) (rounds : List Round) : List (Statement (Variable τ)) := rounds.flatMap (func1Round objectType2 t)

/-- `main` makes the module and fills its fields. -/
def setup : List (Statement (Variable τ)) :=
  .malloc .moduleObject moduleType false 10 ::
    (List.range 10).flatMap fun k => [.malloc .object objectType2 true 2, .setMoveUncheck .moduleObject k .object]

/-- `main`, whose threads do `threads`, up to the drop of the module. -/
def mainProgram (threads : List (Statement (Variable τ))) : List (Statement (Variable τ)) :=
  setup moduleType objectType2 ++ threads ++ [.drop .moduleObject]

end Program

section Threads
variable {τ : Type} [Fintype τ] [DecidableEq τ] {t : τ} {j i : Fin 3} {h : Finset (Fin 3)} {held : τ → Finset (Fin 3)}
  {rest : List (Statement (Variable τ))} {typeInfo : Address} {n k : Nat}

/-- The variables in use while the threads run. -/
def inUse (held : τ → Finset (Fin 3)) : Finset (Variable τ) :=
  insert .moduleObject (Finset.univ.biUnion fun t => (held t).image (.obj t))

theorem mem_inUse : .obj t j ∈ inUse held ↔ j ∈ held t := by simp [inUse]

theorem module_inUse (held : τ → Finset (Fin 3)) : .moduleObject ∈ inUse held := Finset.mem_insert_self ..

theorem inUse_empty : inUse (fun _ : τ => ∅) = {.moduleObject} := by
  ext x
  cases x <;> simp [inUse]

theorem inUse_put (held : τ → Finset (Fin 3)) (t : τ) (j : Fin 3) :
    insert (.obj t j) (inUse held) = inUse (Function.update held t (insert j (held t))) := by
  ext x
  cases x with
  | moduleObject => simp [inUse]
  | object => simp [inUse]
  | obj t' j' =>
    rw [Finset.mem_insert, mem_inUse, mem_inUse, Function.update_apply]
    split
    · simp [*]
    · simp [*]

theorem inUse_take (held : τ → Finset (Fin 3)) (t : τ) (j : Fin 3) :
    (inUse held).erase (.obj t j) = inUse (Function.update held t ((held t).erase j)) := by
  ext x
  cases x with
  | moduleObject => simp [inUse]
  | object => simp [inUse]
  | obj t' j' =>
    rw [Finset.mem_erase, mem_inUse, mem_inUse, Function.update_apply]
    split
    · simp [*]
    · simp [*]

/-- What a thread does that holds `h`, whatever the others hold. -/
def Serves (t : τ) : Finset (Fin 3) → List (Statement (Variable τ)) → Prop
  | h, [] => h = ∅
  | h, statement :: rest =>
    ∃ h', (∀ held, held t = h → Stage.Moves .moduleObject ⟨10, inUse held⟩ statement ⟨10, inUse (Function.update held t h')⟩) ∧
      Serves t h' rest

theorem serves_malloc (empty : j ∉ h) (two : 2 ≤ n) (few : n < 60) (served : Serves t (insert j h) rest) :
    Serves t h (.malloc (.obj t j) typeInfo true n :: rest) := by
  refine ⟨insert j h, fun held here => ?_, served⟩
  subst here
  rw [← inUse_put]
  exact .malloc (module_inUse held) (mt mem_inUse.mp empty) two few

theorem serves_take (empty : j ∉ h) (bound : k < 10) (served : Serves t (insert j h) rest) :
    Serves t h (.getClone (.obj t j) .moduleObject k :: rest) := by
  refine ⟨insert j h, fun held here => ?_, served⟩
  subst here
  rw [← inUse_put]
  exact .take (module_inUse held) (mt mem_inUse.mp empty) bound

theorem serves_put (full : j ∈ h) (bound : k < 10) (served : Serves t (h.erase j) rest) :
    Serves t h (.setMove .moduleObject k (.obj t j) :: rest) := by
  refine ⟨h.erase j, fun held here => ?_, served⟩
  subst here
  rw [← inUse_take]
  exact .put (module_inUse held) (mem_inUse.mpr full) (by simp) bound

theorem serves_link (full : i ∈ h) (full' : j ∈ h) (two : k < 2) (served : Serves t h rest) :
    Serves t h (.setClone (.obj t i) k (.obj t j) :: rest) := by
  refine ⟨h, fun held here => ?_, served⟩
  subst here
  rw [Function.update_eq_self]
  exact .link (module_inUse held) (mem_inUse.mpr full) (by simp) (mem_inUse.mpr full') (by simp) two

theorem serves_give (full : i ∈ h) (full' : j ∈ h) (apart : i ≠ j) (two : k < 2) (served : Serves t (h.erase j) rest) :
    Serves t h (.setMove (.obj t i) k (.obj t j) :: rest) := by
  refine ⟨h.erase j, fun held here => ?_, served⟩
  subst here
  rw [← inUse_take]
  exact .give (module_inUse held) (mem_inUse.mpr full) (by simp) (mem_inUse.mpr full') (by simp) (by simpa using apart) two

theorem serves_drop (full : j ∈ h) (served : Serves t (h.erase j) rest) : Serves t h (.drop (.obj t j) :: rest) := by
  refine ⟨h.erase j, fun held here => ?_, served⟩
  subst here
  rw [← inUse_take]
  exact .drop (mem_inUse.mpr full) (by simp)

/-- A round of `func1` ends with nothing in its variables. -/
theorem serves_func1Round (objectType2 : Address) (t : τ) (round : Round) (served : Serves t ∅ rest) :
    Serves t ∅ (func1Round objectType2 t round ++ rest) := by
  cases round with
  | fresh k =>
    refine serves_malloc (by decide) (by decide) (by decide) (serves_malloc (by decide) (by decide) (by decide)
      (serves_malloc (by decide) (by decide) (by decide) ?_))
    refine serves_put (by decide) (k 0).isLt (serves_put (by decide) (k 1).isLt (serves_put (by decide) (k 2).isLt ?_))
    exact served
  | share k f₁ f₂ =>
    refine serves_take (by decide) (k 0).isLt (serves_take (by decide) (k 1).isLt (serves_take (by decide) (k 2).isLt ?_))
    refine serves_link (by decide) (by decide) f₁.isLt (serves_give (by decide) (by decide) (by decide) f₂.isLt ?_)
    refine serves_drop (by decide) (serves_drop (by decide) ?_)
    exact served
  | cycle k f =>
    refine serves_take (by decide) (k 0).isLt (serves_take (by decide) (k 1).isLt (serves_take (by decide) (k 2).isLt ?_))
    refine serves_link (by decide) (by decide) (f 0).isLt (serves_link (by decide) (by decide) (f 1).isLt
      (serves_link (by decide) (by decide) (f 2).isLt ?_))
    refine serves_drop (by decide) (serves_drop (by decide) (serves_drop (by decide) ?_))
    exact served

theorem serves_func1 (objectType2 : Address) (t : τ) (rounds : List Round) : Serves t ∅ (func1 objectType2 t rounds) := by
  induction rounds with
  | nil => exact rfl
  | cons round rounds ih => exact serves_func1Round objectType2 t round ih

/-- Threads that keep to their own variables do not disturb each other. -/
theorem Interleaves.follows {lists : τ → List (Statement (Variable τ))} {l : List (Statement (Variable τ))}
    (interleaved : Interleaves lists l) (served : ∀ t, Serves t (held t) (lists t)) :
    Stage.Follows .moduleObject ⟨10, inUse held⟩ l ⟨10, inUse fun _ => ∅⟩ := by
  induction interleaved generalizing held with
  | done ended =>
    have none : held = fun _ => ∅ := funext fun t => by
      have at_end := served t
      rw [ended t] at at_end
      exact at_end
    rw [none]
    exact .done
  | @next lists t a more l first _ ih =>
    have here := served t
    rw [first] at here
    obtain ⟨h', moves, rest⟩ := here
    refine .next (moves held rfl) (ih fun u => ?_)
    by_cases same : u = t
    · subst same
      rw [Function.update_self, Function.update_self]
      exact rest
    · rw [Function.update_of_ne same, Function.update_of_ne same]
      exact served u

theorem follows_setup (moduleType objectType2 : Address) :
    Stage.Follows (.moduleObject : Variable τ) ⟨0, ∅⟩ (setup moduleType objectType2) ⟨10, inUse fun _ => ∅⟩ := by
  have module : (Variable.moduleObject : Variable τ) ∈ ({.moduleObject} : Finset (Variable τ)) := Finset.mem_singleton_self _
  have fill (n : Nat) (bound : n ≤ 10) : Stage.Follows .moduleObject ⟨0, {.moduleObject}⟩
      ((List.range n).flatMap fun k =>
        [.malloc .object objectType2 true 2, .setMoveUncheck .moduleObject k (.object : Variable τ)]) ⟨n, {.moduleObject}⟩ := by
    induction n with
    | zero => exact .done
    | succ n ih =>
      rw [List.range_succ, List.flatMap_append]
      refine Stage.follows_append.mpr ⟨_, ih (Nat.le_of_succ_le bound), ?_⟩
      have back : (insert .object {.moduleObject} : Finset (Variable τ)).erase .object = {.moduleObject} :=
        Finset.erase_insert (by simp)
      have filled : Stage.Moves .moduleObject ⟨n, insert .object {.moduleObject}⟩
          (.setMoveUncheck .moduleObject n (.object : Variable τ)) ⟨n + 1, {.moduleObject}⟩ := by
        have filled := Stage.Moves.fill (Finset.mem_insert_of_mem module)
          (Finset.mem_insert_self (Variable.object : Variable τ) _) (by simp) bound
        rwa [back] at filled
      exact .next (.malloc module (by simp) le_rfl (by decide)) (.next filled .done)
  rw [inUse_empty]
  exact .next .createModule (fill 10 le_rfl)

/-- `main` up to the drop of the module, whatever the threads do in between. -/
theorem follows_mainProgram (moduleType objectType2 : Address) {rounds : τ → List Round}
    {l : List (Statement (Variable τ))} (interleaved : Interleaves (fun t => func1 objectType2 t (rounds t)) l) :
    Stage.Follows .moduleObject ⟨0, ∅⟩ (mainProgram moduleType objectType2 l) ⟨10, ∅⟩ := by
  have threads : Stage.Follows .moduleObject ⟨10, inUse fun _ => ∅⟩ l ⟨10, inUse fun _ => ∅⟩ :=
    interleaved.follows fun t => serves_func1 objectType2 t (rounds t)
  refine Stage.follows_append.mpr ⟨_, Stage.follows_append.mpr ⟨_, follows_setup moduleType objectType2, threads⟩, ?_⟩
  have dropped : Stage.Moves .moduleObject ⟨10, {.moduleObject}⟩ (.drop (.moduleObject : Variable τ)) ⟨10, ∅⟩ := by
    rw [← Finset.erase_singleton (.moduleObject : Variable τ)]
    exact .drop (Finset.mem_singleton_self _) fun _ => rfl
  rw [inUse_empty]
  exact .next dropped .done

/-- The program of `main` and its threads, in any interleaving, with collections
at any time: every call finds what it needs, so that the program gets to its end,
and as many collections as there are objects left free all of them. -/
theorem mainProgram_runs (moduleType objectType2 : Address) {rounds : τ → List Round} {l : List (Statement (Variable τ))}
    (interleaved : Interleaves (fun t => func1 objectType2 t (rounds t)) l) :
    (∀ before statement after, mainProgram moduleType objectType2 l = before ++ statement :: after →
      ∀ c, Client.Run before c → ∃ c', Client.Executes c statement c') ∧
    (∃ c, Client.Run (mainProgram moduleType objectType2 l) c) ∧
    ∀ c, Client.Run (mainProgram moduleType objectType2 l) c →
      ∃ alive : Finset Address, (∀ o, o ∈ alive ↔ (c.memory.heap o).state ≠ .dead) ∧
        ∀ orders : List (IterationOrder × IterationOrder), ∃ m', Returns (fun fuel => collections fuel orders c.memory) m' ∧
          (alive.card ≤ orders.length → (∀ o, (m'.heap o).state = .dead) ∧ m'.suspectedObjectList = []) := by
  have follows := follows_mainProgram moduleType objectType2 interleaved
  refine ⟨fun before statement after split c run => ?_, Client.exists_run follows, fun c run => run.ends follows⟩
  rw [split] at follows
  exact run.next follows

end Threads

/-- One thread puts three objects into the module while another one ties a
cycle. -/
theorem mainProgram_runs_twoThreads : ∃ (l : List (Statement (Variable (Fin 3)))) (c : Client (Variable (Fin 3))) (m' : GcState),
    Client.Run (mainProgram 16 24 l) c ∧ (∃ orders, Returns (fun fuel => collections fuel orders c.memory) m') ∧
      ∀ o, (m'.heap o).state = .dead := by
  have interleaved : Interleaves
      (fun t : Fin 3 => func1 24 t (if t = 0 then [.fresh fun _ => 4] else if t = 1 then [.share (fun _ => 4) 0 0] else []))
      [.malloc (.obj 0 0) 24 true 3, .getClone (.obj 1 0) .moduleObject 4, .malloc (.obj 0 1) 24 true 3,
        .malloc (.obj 0 2) 24 true 3, .setMove .moduleObject 4 (.obj 0 0), .getClone (.obj 1 1) .moduleObject 4,
        .setMove .moduleObject 4 (.obj 0 1), .getClone (.obj 1 2) .moduleObject 4, .setClone (.obj 1 0) 0 (.obj 1 1),
        .setMove (.obj 1 1) 0 (.obj 1 2), .drop (.obj 1 0), .setMove .moduleObject 4 (.obj 0 2), .drop (.obj 1 1)] := by
    refine .next (t := 0) rfl (.next (t := 1) rfl (.next (t := 0) rfl (.next (t := 0) rfl (.next (t := 0) rfl ?_))))
    refine .next (t := 1) rfl (.next (t := 0) rfl (.next (t := 1) rfl (.next (t := 1) rfl (.next (t := 1) rfl ?_))))
    refine .next (t := 1) rfl (.next (t := 0) rfl (.next (t := 1) rfl (.done fun t => ?_)))
    fin_cases t <;> rfl
  obtain ⟨_, ⟨c, run⟩, ends⟩ := mainProgram_runs 16 24 interleaved
  obtain ⟨alive, _, frees⟩ := ends c run
  obtain ⟨m', returns, freed⟩ := frees (List.replicate alive.card (⟨id, .refl⟩, ⟨id, .refl⟩))
  exact ⟨_, c, m', run, ⟨_, returns⟩, (freed (by simp)).1⟩

end CatLa
