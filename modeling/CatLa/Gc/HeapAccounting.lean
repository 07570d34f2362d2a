import CatLa.Foundations.CountedGraph
import CatLa.Gc.HeapObject

namespace CatLa
open CountedGraph

/-- The counts of a heap are exact for the objects in `holders`, with `refs`
the references to them from outside the heap. -/
abbrev Exact (holders : Finset Address) (h : Heap) (refs : Multiset Address) : Prop :=
  Accounted holders (fun o => (h o).count) (fun o => (h o).pointers) refs

/-- The pointers of one object that its release has not yet given back. -/
def HeapObject.remaining (o : HeapObject) (i : Nat) : Multiset Address := ↑((o.fields.drop i).filter (· ≠ 0))

/-- The pointers of the objects on a stack. -/
def pendingPointers (h : Heap) (stack : List Address) : Multiset Address :=
  (stack.map fun o => (h o).pointers).sum

theorem HeapObject.remaining_zero (o : HeapObject) : o.remaining 0 = o.pointers := rfl

theorem HeapObject.remaining_end (o : HeapObject) : o.remaining o.fields.length = 0 := by
  simp [remaining]

theorem HeapObject.remaining_null {o : HeapObject} {i : Nat} (null : o.field i = 0) :
    o.remaining i = o.remaining (i + 1) := by
  by_cases bound : i < o.fields.length
  · rw [field, List.getD_eq_getElem _ _ bound] at null
    simp [remaining, List.drop_eq_getElem_cons bound, null]
  · simp [remaining, List.drop_of_length_le, Nat.le_of_not_lt bound, Nat.le_succ_of_le]

theorem HeapObject.remaining_step {o : HeapObject} {i : Nat} (nonnull : o.field i ≠ 0) :
    o.remaining i = {o.field i} + o.remaining (i + 1) := by
  by_cases bound : i < o.fields.length
  · have atI : o.field i = o.fields[i] := List.getD_eq_getElem _ _ bound
    rw [atI] at nonnull ⊢
    rw [remaining, List.drop_eq_getElem_cons bound, List.filter_cons_of_pos (by simpa using nonnull)]
    rfl
  · exact absurd (List.getD_eq_default _ _ (Nat.le_of_not_lt bound)) nonnull

theorem HeapObject.remaining_setField (o : HeapObject) (i : Nat) (w : Address) :
    (o.setField i w).remaining (i + 1) = o.remaining (i + 1) := by
  simp [remaining, setField, List.drop_set]

theorem HeapObject.setField_length (o : HeapObject) (i : Nat) (w : Address) :
    (o.setField i w).fields.length = o.fields.length := List.length_set

@[simp] theorem pendingPointers_nil (h : Heap) : pendingPointers h [] = 0 := rfl

@[simp] theorem pendingPointers_cons (h : Heap) (o : Address) (stack : List Address) :
    pendingPointers h (o :: stack) = (h o).pointers + pendingPointers h stack := rfl

theorem pendingPointers_append (h : Heap) (left right : List Address) :
    pendingPointers h (left ++ right) = pendingPointers h left + pendingPointers h right := by
  simp [pendingPointers]

theorem pendingPointers_congr {h h' : Heap} {stack : List Address}
    (same : ∀ o ∈ stack, (h' o).pointers = (h o).pointers) : pendingPointers h' stack = pendingPointers h stack := by
  rw [pendingPointers, pendingPointers, List.map_congr_left same]

namespace Exact
variable {holders : Finset Address} {h : Heap} {refs : Multiset Address} {x o : Address}

theorem modify_outside (exact : Exact holders h refs) (outside : o ∉ holders) (f : HeapObject → HeapObject) :
    Exact holders (h.modify o f) refs := by
  have same : ∀ p ∈ holders, h.modify o f p = h p := fun p member =>
    h.modify_of_ne f fun equal => outside (equal ▸ member)
  exact exact.congr (fun p member => by rw [same p member]) fun p member => by rw [same p member]

theorem fetchSub_shared (exact : Exact holders h ({x} + refs)) (shared : (h x).count ≠ 1) :
    Exact holders (h.modify x .fetchSub) refs := by
  have member := exact.refs_mem x (Multiset.mem_add.mpr (Or.inl (Multiset.mem_singleton_self x)))
  have positive : (h x).count ≠ 0 := exact.positive x member
  refine (exact.drop_shared shared).congr (fun p _ => ?_) (fun p _ => ?_)
  · by_cases same : p = x
    · subst same
      rw [Heap.modify_self, Function.update_self, HeapObject.fetchSub, HeapObject.sizePred_of_pos positive]
    · rw [Heap.modify_of_ne _ _ same, Function.update_of_ne same]
  · by_cases same : p = x
    · subst same
      rw [Heap.modify_self]
      rfl
    · rw [Heap.modify_of_ne _ _ same]

theorem fetchSub_last (exact : Exact holders h ({x} + refs)) (last : (h x).count = 1) :
    Exact (holders.erase x) (h.modify x .fetchSub) ((h x).pointers + refs) := by
  have dropped : Accounted (holders.erase x) (fun o => (h.modify x .fetchSub o).count) (fun o => (h o).pointers)
      ((h x).pointers + refs) :=
    exact.drop_last last fun y different => by rw [Heap.modify_of_ne _ _ different]
  refine dropped.congr (fun p _ => rfl) fun p member => ?_
  rw [Heap.modify_of_ne _ _ (Finset.ne_of_mem_erase member)]

end Exact

/-- What a release may do to a heap: the holders shrink, an object that stays
among them only has its count lowered, and an object that was no holder and
is not in `touched` is left alone. -/
structure Evolves (holders holders' : Finset Address) (touched : List Address) (h h' : Heap) : Prop where
  shrink : holders' ⊆ holders
  kept : ∀ o ∈ holders', h' o = { h o with count := (h' o).count } ∧ (h' o).count ≤ (h o).count
  header : ∀ o, (h' o).asyncRelease = (h o).asyncRelease ∧ (h' o).isCyclicType = (h o).isCyclicType ∧
    (h' o).lockFlag = (h o).lockFlag ∧ (h' o).typeInfo = (h o).typeInfo
  fields : ∀ o, ∀ w ∈ (h' o).fields, w = 0 ∨ w ∈ (h o).fields
  settled : ∀ o, o ∉ holders → o ∉ touched → h' o = h o

namespace Evolves
variable {holders holders' holders'' : Finset Address} {touched touched' : List Address} {h h' h'' : Heap}

theorem refl (holders : Finset Address) (touched : List Address) (h : Heap) :
    Evolves holders holders touched h h where
  shrink := Finset.Subset.refl _
  kept _ _ := ⟨rfl, le_rfl⟩
  header _ := ⟨rfl, rfl, rfl, rfl⟩
  fields _ _ member := Or.inr member
  settled _ _ _ := rfl

theorem trans (first : Evolves holders holders' touched h h') (second : Evolves holders' holders'' touched' h' h'')
    (inside : ∀ o ∈ touched', o ∈ touched ∨ o ∈ holders) : Evolves holders holders'' touched h h'' where
  shrink := second.shrink.trans first.shrink
  kept o member := by
    obtain ⟨same, lower⟩ := second.kept o member
    obtain ⟨same', lower'⟩ := first.kept o (second.shrink member)
    refine ⟨?_, lower.trans lower'⟩
    rw [same, same']
  header o := by
    obtain ⟨async, cyclic, lock, type⟩ := first.header o
    obtain ⟨async', cyclic', lock', type'⟩ := second.header o
    exact ⟨async'.trans async, cyclic'.trans cyclic, lock'.trans lock, type'.trans type⟩
  fields o w member := by
    rcases second.fields o w member with null | member
    · exact Or.inl null
    · exact first.fields o w member
  settled o outside untouched := by
    have outside' : o ∉ holders' := fun member => outside (first.shrink member)
    have untouched' : o ∉ touched' := fun member => (inside o member).elim untouched outside
    rw [second.settled o outside' untouched', first.settled o outside untouched]

theorem weaken (step : Evolves holders holders' touched h h') (more : ∀ o ∈ touched, o ∈ touched') :
    Evolves holders holders' touched' h h' :=
  { step with settled := fun o outside untouched => step.settled o outside fun member => untouched (more o member) }

theorem suspected_iff (step : Evolves holders holders' touched h h') (o : Address) :
    (h' o).Suspected ↔ (h o).Suspected := by
  obtain ⟨async, cyclic, _, _⟩ := step.header o
  rw [HeapObject.Suspected, HeapObject.Suspected, async, cyclic]

theorem fields_eq (step : Evolves holders holders' touched h h') {o : Address} (member : o ∈ holders') :
    (h' o).fields = (h o).fields := by
  rw [(step.kept o member).1]

theorem pointers_eq (step : Evolves holders holders' touched h h') {o : Address} (member : o ∈ holders') :
    (h' o).pointers = (h o).pointers := by
  rw [HeapObject.pointers, HeapObject.pointers, step.fields_eq member]

theorem pointers_subset (step : Evolves holders holders' touched h h') {o w : Address}
    (member : w ∈ (h' o).pointers) : w ∈ (h o).pointers := by
  obtain ⟨member, nonnull⟩ := HeapObject.mem_pointers.mp member
  exact HeapObject.mem_pointers.mpr ⟨(step.fields o w member).resolve_left nonnull, nonnull⟩

/-- An update of one object that is not a holder, and that keeps its header. -/
theorem outside {o : Address} (notHolder : o ∉ holders) {f : HeapObject → HeapObject}
    (async : (f (h o)).asyncRelease = (h o).asyncRelease) (cyclic : (f (h o)).isCyclicType = (h o).isCyclicType)
    (lock : (f (h o)).lockFlag = (h o).lockFlag) (type : (f (h o)).typeInfo = (h o).typeInfo)
    (fields : ∀ w ∈ (f (h o)).fields, w = 0 ∨ w ∈ (h o).fields) :
    Evolves holders holders [o] h (h.modify o f) where
  shrink := Finset.Subset.refl _
  kept p member := by
    have different : p ≠ o := fun equal => notHolder (equal ▸ member)
    rw [Heap.modify_of_ne _ _ different]
    exact ⟨rfl, le_rfl⟩
  header p := by
    by_cases same : p = o
    · subst same
      rw [Heap.modify_self]
      exact ⟨async, cyclic, lock, type⟩
    · rw [Heap.modify_of_ne _ _ same]
      exact ⟨rfl, rfl, rfl, rfl⟩
  fields p w member := by
    by_cases same : p = o
    · subst same
      rw [Heap.modify_self] at member
      exact fields w member
    · rw [Heap.modify_of_ne _ _ same] at member
      exact Or.inr member
  settled p _ untouched := h.modify_of_ne f fun equal => untouched (equal ▸ List.mem_singleton_self _)

theorem setState {o : Address} (notHolder : o ∉ holders) (s : ObjectState) :
    Evolves holders holders [o] h (h.modify o (·.setState s)) :=
  outside notHolder rfl rfl rfl rfl fun _ member => Or.inr member

theorem clearField {o : Address} (notHolder : o ∉ holders) (i : Nat) :
    Evolves holders holders [o] h (h.modify o (·.setField i 0)) :=
  outside notHolder rfl rfl rfl rfl fun _ member => HeapObject.setField_mem member

/-- `fetch_sub` on a holder, which may drop out of the holders by it. -/
theorem fetchSub {x : Address} (member : x ∈ holders) (positive : (h x).count ≠ 0) (shrink : holders' ⊆ holders) :
    Evolves holders holders' [] h (h.modify x .fetchSub) where
  shrink := shrink
  kept p _ := by
    by_cases same : p = x
    · subst same
      rw [Heap.modify_self, HeapObject.fetchSub, HeapObject.sizePred_of_pos positive]
      exact ⟨rfl, Nat.sub_le _ _⟩
    · rw [Heap.modify_of_ne _ _ same]
      exact ⟨rfl, le_rfl⟩
  header p := by
    by_cases same : p = x
    · subst same
      rw [Heap.modify_self]
      exact ⟨rfl, rfl, rfl, rfl⟩
    · rw [Heap.modify_of_ne _ _ same]
      exact ⟨rfl, rfl, rfl, rfl⟩
  fields p w inside := by
    by_cases same : p = x
    · subst same
      rw [Heap.modify_self] at inside
      exact Or.inr inside
    · rw [Heap.modify_of_ne _ _ same] at inside
      exact Or.inr inside
  settled p outside _ := h.modify_of_ne _ fun equal => outside (equal ▸ member)

end Evolves

end CatLa
