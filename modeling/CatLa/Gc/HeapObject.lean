import Mathlib.Algebra.Group.Nat.Defs
import Mathlib.Data.List.GetD
import Mathlib.Data.Multiset.AddSub
import Mathlib.Logic.Function.Basic

namespace CatLa

/-- `object_state`, in the order of the enumeration: a zeroed cell is dead. -/
inductive ObjectState
  | dead
  | live
  | processGc
  | waitingForGc
  deriving DecidableEq, Repr

/-- The address of a `HeapObject`, or any other word a field can hold. Null
is 0, and 1 marks a borrowed field. -/
abbrev Address := Nat

/-- The header of a cell and the `field_length` words behind it. `count`
counts pointers that are held in memory, so it stays far below `2^64`; only
the wrap below zero is modelled. -/
structure HeapObject where
  count : Nat
  state : ObjectState
  asyncRelease : Bool
  isCyclicType : Bool
  lockFlag : Bool
  typeInfo : Address
  fields : List Address
  deriving DecidableEq, Repr

namespace HeapObject

/-- A cell as `calloc` leaves it. -/
def zeroed : HeapObject :=
  { count := 0, state := .dead, asyncRelease := false, isCyclicType := false, lockFlag := false,
    typeInfo := 0, fields := [] }

def field (o : HeapObject) (i : Nat) : Address := o.fields.getD i 0

def setField (o : HeapObject) (i : Nat) (w : Address) : HeapObject := { o with fields := o.fields.set i w }

def setState (o : HeapObject) (s : ObjectState) : HeapObject := { o with state := s }

def setLock (o : HeapObject) (b : Bool) : HeapObject := { o with lockFlag := b }

/-- `size_t` subtraction of one. -/
def sizePred (n : Nat) : Nat := if n = 0 then 2 ^ 64 - 1 else n - 1

/-- `count.fetch_add(1)`; the previous value is read from the object before. -/
def fetchAdd (o : HeapObject) : HeapObject := { o with count := o.count + 1 }

/-- `count.fetch_sub(1)`; the previous value is read from the object before. -/
def fetchSub (o : HeapObject) : HeapObject := { o with count := sizePred o.count }

/-- The test of the release paths that sends an object to the collector
instead of freeing it at once. -/
def Suspected (o : HeapObject) : Prop := o.isCyclicType = true ∧ o.asyncRelease = true

instance (o : HeapObject) : Decidable o.Suspected := inferInstanceAs (Decidable (_ ∧ _))

/-- The non-null words among the fields, with repetitions. -/
def pointers (o : HeapObject) : Multiset Address := ↑(o.fields.filter (· ≠ 0))

theorem mem_pointers {o : HeapObject} {w : Address} : w ∈ o.pointers ↔ w ∈ o.fields ∧ w ≠ 0 := by
  simp [pointers, List.mem_filter]

theorem count_pointers (o : HeapObject) {w : Address} (nonnull : w ≠ 0) :
    o.pointers.count w = o.fields.count w := by
  rw [pointers, Multiset.coe_count, List.count_filter (by simpa using nonnull)]

theorem field_mem {o : HeapObject} {i : Nat} (nonnull : o.field i ≠ 0) : o.field i ∈ o.fields := by
  unfold field at nonnull ⊢
  by_cases bound : i < o.fields.length
  · rw [List.getD_eq_getElem _ _ bound]
    exact List.getElem_mem bound
  · rw [List.getD_eq_default _ _ (Nat.le_of_not_lt bound)] at nonnull
    exact absurd rfl nonnull

theorem setField_mem {o : HeapObject} {i : Nat} {w x : Address} (member : x ∈ (o.setField i w).fields) :
    x = w ∨ x ∈ o.fields := (List.mem_or_eq_of_mem_set member).symm

theorem setField_keeps {o : HeapObject} {i : Nat} {q : Address} (member : q ∈ o.pointers) (different : q ≠ o.field i) :
    q ∈ (o.setField i 0).pointers := by
  obtain ⟨member, nonnull⟩ := mem_pointers.mp member
  refine mem_pointers.mpr ⟨?_, nonnull⟩
  obtain ⟨j, bound, atJ⟩ := List.getElem_of_mem member
  have apart : i ≠ j := by
    rintro rfl
    exact different (by rw [field, List.getD_eq_getElem _ _ bound, atJ])
  refine List.mem_iff_getElem.mpr ⟨j, by simpa [setField] using bound, ?_⟩
  simp only [setField, List.getElem_set_ne apart, atJ]

/-- A word that is still there after a field was cleared. -/
theorem field_setField (o : HeapObject) {i j : Nat} (nonnull : (o.setField j 0).field i ≠ 0) :
    j ≠ i ∧ (o.setField j 0).field i = o.field i := by
  have differs : j ≠ i := by
    rintro rfl
    refine nonnull ?_
    simp only [field, setField, List.getD_eq_getElem?_getD, List.getElem?_set_self']
    cases o.fields[j]? <;> rfl
  refine ⟨differs, ?_⟩
  simp only [field, setField, List.getD_eq_getElem?_getD, List.getElem?_set_ne differs]

theorem field_bound {o : HeapObject} {i : Nat} (nonnull : o.field i ≠ 0) : i < o.fields.length := by
  by_contra beyond
  exact nonnull (List.getD_eq_default _ _ (Nat.le_of_not_lt beyond))

theorem exists_field {o : HeapObject} {w : Address} (member : w ∈ o.fields) : ∃ i, o.field i = w := by
  obtain ⟨i, bound, value⟩ := List.getElem_of_mem member
  exact ⟨i, (List.getD_eq_getElem _ _ bound).trans value⟩

theorem sizePred_of_pos {n : Nat} (positive : n ≠ 0) : sizePred n = n - 1 := if_neg positive

end HeapObject

/-- The memory of every cell of every chunk, by address. -/
abbrev Heap := Address → HeapObject

namespace Heap

/-- One object is changed, every other one is left alone. -/
def modify (h : Heap) (a : Address) (f : HeapObject → HeapObject) : Heap := Function.update h a (f (h a))

@[simp] theorem modify_self (h : Heap) (a : Address) (f : HeapObject → HeapObject) :
    h.modify a f a = f (h a) := Function.update_self ..

theorem modify_of_ne (h : Heap) {a b : Address} (f : HeapObject → HeapObject) (different : b ≠ a) :
    h.modify a f b = h b := Function.update_of_ne different ..

theorem modify_apply (h : Heap) (a b : Address) (f : HeapObject → HeapObject) :
    h.modify a f b = if b = a then f (h b) else h b := by
  by_cases same : b = a
  · subst same; simp
  · rw [modify_of_ne h f same, if_neg same]

theorem modify_comm (h : Heap) (a b : Address) {f g : HeapObject → HeapObject} (commute : ∀ o, f (g o) = g (f o)) :
    (h.modify b g).modify a f = (h.modify a f).modify b g := by
  funext c
  simp only [modify_apply]
  split <;> split <;> simp only [commute]

end Heap

end CatLa
