import Mathlib.Data.List.Forall2
import Mathlib.Logic.Function.Basic
import Mathlib.Logic.Relation

/-- Objects with fields, and the variables of a program that uses them; the
word 0 refers to nothing. -/
structure ObjectStore (σ α : Type*) where
  fields : α → List α
  slots : σ → α

namespace ObjectStore
open List Relation

variable {σ α β γ : Type*}

theorem forall₂_set {r : α → β → Prop} {l : List α} {l' : List β} {a : α} {b : β} (words : Forall₂ r l l') (i : Nat)
    (same : r a b) : Forall₂ r (l.set i a) (l'.set i b) := by
  induction words generalizing i with
  | nil => exact .nil
  | cons here rest ih =>
    cases i with
    | zero => exact .cons same rest
    | succ i => exact .cons here (ih i)

theorem forall₂_replicate {r : α → β → Prop} {a : α} {b : β} (same : r a b) (n : Nat) :
    Forall₂ r (List.replicate n a) (List.replicate n b) := by
  induction n with
  | zero => exact .nil
  | succ n ih => exact .cons same ih

variable [Zero α] [Zero β] [Zero γ]

/-- A pointer between two objects. -/
def Points (s : ObjectStore σ α) (p q : α) : Prop := q ∈ s.fields p ∧ q ≠ 0

/-- What the variables lead to. -/
def Held (s : ObjectStore σ α) (o : α) : Prop := ∃ x, s.slots x ≠ 0 ∧ ReflTransGen s.Points (s.slots x) o

/-- The word in a field of the object in a variable. -/
def word (s : ObjectStore σ α) (p : σ) (i : Nat) : α := (s.fields (s.slots p)).getD i 0

section Operations
variable [DecidableEq σ] [DecidableEq α]

def setSlot (s : ObjectStore σ α) (x : σ) (w : α) : ObjectStore σ α := { s with slots := Function.update s.slots x w }

def setFields (s : ObjectStore σ α) (o : α) (words : List α) : ObjectStore σ α :=
  { s with fields := Function.update s.fields o words }

/-- A new object, with `n` fields that refer to nothing. -/
def alloc (s : ObjectStore σ α) (x : σ) (o : α) (n : Nat) : ObjectStore σ α :=
  (s.setFields o (List.replicate n 0)).setSlot x o

/-- A word is stored in a field of the object in a variable. -/
def store (s : ObjectStore σ α) (p : σ) (i : Nat) (w : α) : ObjectStore σ α :=
  s.setFields (s.slots p) ((s.fields (s.slots p)).set i w)

end Operations

omit [Zero α] in
@[simp] theorem setSlot_fields [DecidableEq σ] (s : ObjectStore σ α) (x : σ) (w : α) : (s.setSlot x w).fields = s.fields := rfl

omit [Zero α] in
@[simp] theorem setFields_slots [DecidableEq α] (s : ObjectStore σ α) (o : α) (words : List α) :
    (s.setFields o words).slots = s.slots := rfl

omit [Zero α] in
theorem setSlot_slots [DecidableEq σ] (s : ObjectStore σ α) (x : σ) (w : α) (y : σ) :
    (s.setSlot x w).slots y = if y = x then w else s.slots y :=
  Function.update_apply ..

omit [Zero α] in
theorem setFields_fields [DecidableEq α] (s : ObjectStore σ α) (o : α) (words : List α) (p : α) :
    (s.setFields o words).fields p = if p = o then words else s.fields p :=
  Function.update_apply ..

/-- Where a path of field indices leads to from a word. -/
def follow (s : ObjectStore σ α) [DecidableEq α] (w : α) : List Nat → α
  | [] => w
  | i :: path => if w = 0 then 0 else s.follow ((s.fields w).getD i 0) path

theorem Held.tail {s : ObjectStore σ α} {p q : α} (held : s.Held p) (member : q ∈ s.fields p) (nonnull : q ≠ 0) :
    s.Held q := by
  obtain ⟨x, root, path⟩ := held
  exact ⟨x, root, path.tail ⟨member, nonnull⟩⟩

theorem held_slot {s : ObjectStore σ α} {x : σ} (nonnull : s.slots x ≠ 0) : s.Held (s.slots x) := ⟨x, nonnull, .refl⟩

/-- Every word of the store satisfies `P`. -/
structure Within (s : ObjectStore σ α) (P : α → Prop) : Prop where
  slots : ∀ x, P (s.slots x)
  fields : ∀ p, ∀ w ∈ s.fields p, P w

namespace Within
variable {s : ObjectStore σ α} {P Q : α → Prop}

omit [Zero α] in
theorem mono (within : s.Within P) (weaker : ∀ w, P w → Q w) : s.Within Q :=
  ⟨fun x => weaker _ (within.slots x), fun p w member => weaker w (within.fields p w member)⟩

theorem held (within : s.Within P) {o : α} (held : s.Held o) : P o := by
  obtain ⟨x, _, path⟩ := held
  rcases path.cases_tail with same | ⟨p, _, pointer⟩
  · exact same ▸ within.slots x
  · exact within.fields p o pointer.1

theorem word (within : s.Within P) (zero : P 0) (p : σ) (i : Nat) : P (s.word p i) := by
  rw [ObjectStore.word, List.getD_eq_getElem?_getD]
  rcases h : (s.fields (s.slots p))[i]? with - | w
  · exact zero
  · exact within.fields _ w (List.mem_of_getElem? h)

omit [Zero α] in
theorem setSlot [DecidableEq σ] (within : s.Within P) (x : σ) {w : α} (word : P w) : (s.setSlot x w).Within P where
  slots y := by
    rw [setSlot_slots]
    split
    · exact word
    · exact within.slots y
  fields := within.fields

omit [Zero α] in
theorem setFields [DecidableEq α] (within : s.Within P) (o : α) {words : List α} (all : ∀ w ∈ words, P w) :
    (s.setFields o words).Within P where
  slots := within.slots
  fields p := by
    rw [setFields_fields]
    split
    · exact all
    · exact within.fields p

omit [Zero α] in
theorem store [DecidableEq α] (within : s.Within P) (p : σ) (i : Nat) {w : α} (word : P w) : (s.store p i w).Within P :=
  within.setFields _ fun v member => (List.mem_or_eq_of_mem_set member).elim (within.fields _ v) fun same => same ▸ word

theorem alloc [DecidableEq σ] [DecidableEq α] (within : s.Within P) (zero : P 0) (x : σ) {o : α} (new : P o) (n : Nat) :
    (s.alloc x o n).Within P :=
  (within.setFields o fun _ member => List.eq_of_mem_replicate member ▸ zero).setSlot x new

end Within

/-- Two stores under different names: `r` relates the names of one object. -/
structure Naming (s : ObjectStore σ α) (t : ObjectStore σ β) (r : α → β → Prop) : Prop where
  slots : ∀ x, r (s.slots x) (t.slots x)
  fields : ∀ {a b}, r a b → a ≠ 0 → Forall₂ r (s.fields a) (t.fields b)
  zero : r 0 0
  left : ∀ {a b b'}, r a b → r a b' → b = b'
  right : ∀ {a a' b}, r a b → r a' b → a = a'

/-- What the variables lead to is the same in both stores, up to names. -/
def SameShape (s : ObjectStore σ α) (t : ObjectStore σ β) : Prop := ∃ r, Naming s t r

namespace Naming
variable {s : ObjectStore σ α} {t : ObjectStore σ β} {r : α → β → Prop} {a a' : α} {b b' : β}

theorem null_iff (naming : Naming s t r) (same : r a b) : a = 0 ↔ b = 0 := by
  constructor
  · rintro rfl
    exact naming.left same naming.zero
  · rintro rfl
    exact naming.right same naming.zero

theorem eq_iff (naming : Naming s t r) (same : r a b) (same' : r a' b') : a = a' ↔ b = b' := by
  constructor
  · rintro rfl
    exact naming.left same same'
  · rintro rfl
    exact naming.right same same'

theorem getD (naming : Naming s t r) {words : List α} {words' : List β} (same : Forall₂ r words words') (i : Nat) :
    r (words.getD i 0) (words'.getD i 0) := by
  induction same generalizing i with
  | nil => exact naming.zero
  | cons here _ ih =>
    cases i with
    | zero => exact here
    | succ i => exact ih i

theorem word (naming : Naming s t r) {p : σ} (nonnull : s.slots p ≠ 0) (i : Nat) : r (s.word p i) (t.word p i) :=
  naming.getD (naming.fields (naming.slots p) nonnull) i

theorem flip (naming : Naming s t r) : Naming t s (flip r) where
  slots := naming.slots
  fields same nonnull := (naming.fields same fun null => nonnull ((naming.null_iff same).mp null)).flip
  zero := naming.zero
  left := naming.right
  right := naming.left

/-- The names of the objects that are held suffice, and a store may lose what
is not held. -/
theorem agree (naming : Naming s t r) {s' : ObjectStore σ α} (slots : s'.slots = s.slots)
    (fields : ∀ o, s'.Held o → s'.fields o = s.fields o) : Naming s' t fun a b => (a = 0 ∨ s'.Held a) ∧ r a b where
  slots x := ⟨(em _).imp_right held_slot, by rw [slots]; exact naming.slots x⟩
  fields := by
    rintro a b ⟨null | held, same⟩ nonnull
    · exact absurd null nonnull
    · rw [forall₂_and_left]
      refine ⟨fun q member => (em _).imp_right (held.tail member), ?_⟩
      rw [fields a held]
      exact naming.fields same nonnull
  zero := ⟨Or.inl rfl, naming.zero⟩
  left same same' := naming.left same.2 same'.2
  right same same' := naming.right same.2 same'.2

theorem setSlot [DecidableEq σ] (naming : Naming s t r) (x : σ) (same : r a b) :
    Naming (s.setSlot x a) (t.setSlot x b) r where
  slots y := by
    by_cases here : y = x
    · subst here
      simpa [ObjectStore.setSlot] using same
    · simpa [ObjectStore.setSlot, here] using naming.slots y
  fields := naming.fields
  zero := naming.zero
  left := naming.left
  right := naming.right

section Fields
variable [DecidableEq α] [DecidableEq β]

theorem setFields (naming : Naming s t r) {words : List α} {words' : List β} (same : r a b)
    (fields : Forall₂ r words words') : Naming (s.setFields a words) (t.setFields b words') r where
  slots := naming.slots
  fields := by
    intro a' b' same' nonnull
    have both := naming.eq_iff same' same
    by_cases here : a' = a
    · obtain rfl := both.mp here
      subst here
      simpa [ObjectStore.setFields] using fields
    · simpa [ObjectStore.setFields, here, mt both.mpr here] using naming.fields same' nonnull
  zero := naming.zero
  left := naming.left
  right := naming.right

theorem store (naming : Naming s t r) {p : σ} (nonnull : s.slots p ≠ 0) (i : Nat) (same : r a b) :
    Naming (s.store p i a) (t.store p i b) r :=
  naming.setFields (naming.slots p) (forall₂_set (naming.fields (naming.slots p) nonnull) i same)

/-- A name that no object has yet, on both sides, is given to the same object. -/
theorem extend (naming : Naming s t r) {o : α} {o' : β} (fresh : ∀ {a b}, r a b → a ≠ o ∧ b ≠ o') {words : List α}
    {words' : List β} (fields : Forall₂ r words words') :
    Naming (s.setFields o words) (t.setFields o' words') fun a b => r a b ∨ a = o ∧ b = o' where
  slots x := Or.inl (naming.slots x)
  fields := by
    rintro a b (same | ⟨rfl, rfl⟩) nonnull
    · simp only [ObjectStore.setFields, Function.update_of_ne (fresh same).1, Function.update_of_ne (fresh same).2]
      exact (naming.fields same nonnull).imp fun _ _ => Or.inl
    · simp only [ObjectStore.setFields, Function.update_self]
      exact fields.imp fun _ _ => Or.inl
  zero := Or.inl naming.zero
  left := by
    rintro a b b' (same | ⟨rfl, rfl⟩) (same' | ⟨here, rfl⟩)
    · exact naming.left same same'
    · exact absurd here (fresh same).1
    · exact absurd rfl (fresh same').1
    · rfl
  right := by
    rintro a a' b (same | ⟨rfl, rfl⟩) (same' | ⟨rfl, here⟩)
    · exact naming.right same same'
    · exact absurd here (fresh same).2
    · exact absurd rfl (fresh same').2
    · rfl

/-- Two objects that nothing leads to become the same new object. -/
theorem alloc [DecidableEq σ] (naming : Naming s t r) (x : σ) {o : α} {o' : β} (fresh : ¬s.Held o) (fresh' : ¬t.Held o')
    (nonnull : o ≠ 0) (nonnull' : o' ≠ 0) (n : Nat) : SameShape (s.alloc x o n) (t.alloc x o' n) := by
  have held := ((naming.agree rfl fun _ _ => rfl).flip.agree rfl fun _ _ => rfl).flip
  refine ⟨_, (held.extend (o := o) ?_ (forall₂_replicate held.zero n)).setSlot x (Or.inr ⟨rfl, rfl⟩)⟩
  rintro a b ⟨atB, atA, _⟩
  constructor
  · rintro rfl
    exact atA.elim nonnull fresh
  · rintro rfl
    exact atB.elim nonnull' fresh'

end Fields

theorem follow [DecidableEq α] [DecidableEq β] (naming : Naming s t r) (same : r a b) (path : List Nat) :
    r (s.follow a path) (t.follow b path) := by
  induction path generalizing a b with
  | nil => exact same
  | cons i path ih =>
    have null := naming.null_iff same
    by_cases here : a = 0
    · simpa [ObjectStore.follow, here, null.mp here] using naming.zero
    · simp only [ObjectStore.follow, here, mt null.mpr here, if_false]
      exact ih (naming.getD (naming.fields same here) i)

end Naming

/-- What a program can tell about a store: which paths lead to the same object,
which lead nowhere, and how many fields an object has. -/
structure Indistinguishable [DecidableEq α] [DecidableEq β] (s : ObjectStore σ α) (t : ObjectStore σ β) : Prop where
  same : ∀ x path y path', s.follow (s.slots x) path = s.follow (s.slots y) path' ↔
    t.follow (t.slots x) path = t.follow (t.slots y) path'
  null : ∀ x path, s.follow (s.slots x) path = 0 ↔ t.follow (t.slots x) path = 0
  length : ∀ x path, s.follow (s.slots x) path ≠ 0 →
    (s.fields (s.follow (s.slots x) path)).length = (t.fields (t.follow (t.slots x) path)).length

theorem SameShape.indistinguishable [DecidableEq α] [DecidableEq β] {s : ObjectStore σ α} {t : ObjectStore σ β}
    (same : SameShape s t) : Indistinguishable s t := by
  obtain ⟨r, naming⟩ := same
  have related (x : σ) (path : List Nat) := naming.follow (naming.slots x) path
  exact ⟨fun x path y path' => naming.eq_iff (related x path) (related y path'),
    fun x path => naming.null_iff (related x path),
    fun x path nonnull => (naming.fields (related x path) nonnull).length_eq⟩

end ObjectStore
