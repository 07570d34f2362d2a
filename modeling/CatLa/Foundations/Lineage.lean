import Mathlib.Logic.Relation

/-- The line of ancestors of a node, by the labels that they carry: `parent`
gives the parent and the label of the nodes that exist. -/
inductive Lineage {α β : Type*} (parent : α → Option (Option α × β)) : Option α → List β → Prop
  | root : Lineage parent none []
  | child {node up label labels} : parent node = some (up, label) → Lineage parent up labels →
      Lineage parent (some node) (label :: labels)

namespace Lineage
open Relation

variable {α β : Type*} {parent : α → Option (Option α × β)}

theorem unique {node : Option α} {labels labels' : List β} (line : Lineage parent node labels)
    (line' : Lineage parent node labels') : labels = labels' := by
  induction line generalizing labels' with
  | root => cases line'; rfl
  | child here _ ih =>
    cases line' with
    | child here' later =>
      obtain ⟨rfl, rfl⟩ := Prod.mk.inj (Option.some.inj (here.symm.trans here'))
      rw [ih later]

theorem mono {parent' : α → Option (Option α × β)} (kept : ∀ node up, parent node = some up → parent' node = some up)
    {node : Option α} {labels : List β} (line : Lineage parent node labels) : Lineage parent' node labels := by
  induction line with
  | root => exact .root
  | child here _ ih => exact .child (kept _ _ here) ih

/-- A node and its parent. -/
def IsParent (parent : α → Option (Option α × β)) (node up : α) : Prop := ∃ label, parent node = some (some up, label)

theorem ancestor {node up : α} {labels : List β} (line : Lineage parent (some node) labels)
    (above : TransGen (IsParent parent) node up) : ∃ labels', Lineage parent (some up) labels' ∧ labels'.length < labels.length := by
  induction above with
  | single step =>
    obtain ⟨label, here⟩ := step
    cases line with
    | child here' later =>
      obtain ⟨rfl, rfl⟩ := Prod.mk.inj (Option.some.inj (here.symm.trans here'))
      exact ⟨_, later, Nat.lt_succ_self _⟩
  | tail _ step ih =>
    obtain ⟨labels', line', shorter⟩ := ih
    obtain ⟨label, here⟩ := step
    cases line' with
    | child here' later =>
      obtain ⟨rfl, rfl⟩ := Prod.mk.inj (Option.some.inj (here.symm.trans here'))
      exact ⟨_, later, Nat.lt_of_succ_lt shorter⟩

/-- A node with a line of ancestors is not among them. -/
theorem acyclic {node : α} {labels : List β} (line : Lineage parent (some node) labels) :
    ¬TransGen (IsParent parent) node node := fun above => by
  obtain ⟨labels', line', shorter⟩ := line.ancestor above
  exact absurd (congrArg List.length (line.unique line')) (Nat.ne_of_gt shorter)

/-- The labels are those of the node and its ancestors. -/
theorem mem_iff {node : α} {labels : List β} (line : Lineage parent (some node) labels) {label : β} :
    label ∈ labels ↔ ∃ up next, ReflTransGen (IsParent parent) node up ∧ parent up = some (next, label) := by
  generalize found : some node = start at line
  induction line generalizing node with
  | root => simp at found
  | @child first up own labels here later ih =>
    obtain rfl := Option.some.inj found
    rw [List.mem_cons]
    constructor
    · rintro (rfl | member)
      · exact ⟨node, up, .refl, here⟩
      · cases up with
        | none => cases later; simp at member
        | some up =>
          obtain ⟨top, next, above, atTop⟩ := (ih rfl).mp member
          exact ⟨top, next, .head ⟨own, here⟩ above, atTop⟩
    · rintro ⟨top, next, above, atTop⟩
      rcases above.cases_head with rfl | ⟨up', ⟨own', here'⟩, above⟩
      · obtain ⟨_, rfl⟩ := Prod.mk.inj (Option.some.inj (here.symm.trans atTop))
        exact .inl rfl
      · obtain ⟨rfl, rfl⟩ := Prod.mk.inj (Option.some.inj (here.symm.trans here'))
        exact .inr ((ih rfl).mpr ⟨top, next, above, atTop⟩)

/-- The labels behind the first are those of the ancestors. -/
theorem mem_ancestors {node : α} {own : β} {labels : List β} (line : Lineage parent (some node) (own :: labels)) {label : β} :
    label ∈ labels ↔ ∃ up next, TransGen (IsParent parent) node up ∧ parent up = some (next, label) := by
  cases line with
  | @child _ up _ _ here later =>
    cases up with
    | none =>
      cases later
      refine iff_of_false List.not_mem_nil ?_
      rintro ⟨top, next, above, _⟩
      obtain ⟨first, ⟨own', here'⟩, _⟩ := TransGen.head'_iff.mp above
      exact absurd (here.symm.trans here') (by simp)
    | some up =>
      rw [later.mem_iff]
      refine exists_congr fun top => exists_congr fun next => and_congr_left fun _ => ?_
      constructor
      · exact fun above => TransGen.head'_iff.mpr ⟨up, ⟨own, here⟩, above⟩
      · intro above
        obtain ⟨first, ⟨own', here'⟩, above⟩ := TransGen.head'_iff.mp above
        obtain ⟨same, _⟩ := Prod.mk.inj (Option.some.inj (here.symm.trans here'))
        obtain rfl := Option.some.inj same
        exact above

/-- Two of the values that a node and its ancestors carry are the same, and one
of them is the node's own. -/
def Repeats {γ : Type*} (parent : α → Option (Option α × β)) (values : β → List γ) (node : α) : Prop :=
  ∃ next own, parent node = some (next, own) ∧ (¬(values own).Nodup ∨
    ∃ up next' label, TransGen (IsParent parent) node up ∧ parent up = some (next', label) ∧
      ∃ x ∈ values own, x ∈ values label)

theorem repeats_iff {γ : Type*} {values : β → List γ} {node : α} {own : β} {labels : List β}
    (line : Lineage parent (some node) (own :: labels)) :
    Repeats parent values node ↔ ¬(values own).Nodup ∨ ∃ x ∈ values own, ∃ label ∈ labels, x ∈ values label := by
  have here : ∃ next, parent node = some (next, own) := by
    cases line with
    | child here _ => exact ⟨_, here⟩
  obtain ⟨next, here⟩ := here
  constructor
  · rintro ⟨_, own', here', repeated⟩
    obtain ⟨_, rfl⟩ := Prod.mk.inj (Option.some.inj (here.symm.trans here'))
    refine repeated.imp id ?_
    rintro ⟨up, next', label, above, atUp, x, member, member'⟩
    exact ⟨x, member, label, line.mem_ancestors.mpr ⟨up, next', above, atUp⟩, member'⟩
  · intro repeated
    refine ⟨next, own, here, repeated.imp id ?_⟩
    rintro ⟨x, member, label, listed, member'⟩
    obtain ⟨up, next', above, atUp⟩ := line.mem_ancestors.mp listed
    exact ⟨up, next', label, above, atUp, x, member, member'⟩

/-- The values along a line are distinct if no node of it repeats one. -/
theorem nodup_iff {γ : Type*} {values : β → List γ} {node : α} {labels : List β} (line : Lineage parent (some node) labels) :
    (labels.reverse.flatMap values).Nodup ↔
      ∀ up, ReflTransGen (IsParent parent) node up → ¬Repeats parent values up := by
  generalize found : some node = start at line
  induction line generalizing node with
  | root => simp at found
  | @child first next own labels here later ih =>
    obtain rfl := Option.some.inj found
    have own_iff := @repeats_iff _ _ _ _ values node own labels (.child here later)
    have split : ((own :: labels).reverse.flatMap values).Nodup ↔
        (labels.reverse.flatMap values).Nodup ∧ ¬Repeats parent values node := by
      rw [own_iff, List.reverse_cons, List.flatMap_append, List.nodup_append, List.flatMap_singleton, not_or, Classical.not_not]
      refine and_congr_right fun _ => and_congr_right fun _ => ?_
      simp only [List.mem_flatMap, List.mem_reverse, not_exists, not_and]
      constructor
      · intro apart x member label listed member'
        exact apart x ⟨label, listed, member'⟩ x member rfl
      · rintro apart x ⟨label, listed, member'⟩ y member rfl
        exact apart x member label listed member'
    rw [split]
    cases next with
    | none =>
      cases later
      constructor
      · rintro ⟨_, alone⟩ up path
        rcases path.cases_head with rfl | ⟨up', ⟨label, here'⟩, _⟩
        · exact alone
        · exact absurd (here.symm.trans here') (by simp)
      · exact fun all => ⟨List.nodup_nil, all node .refl⟩
    | some next =>
      rw [ih rfl]
      constructor
      · rintro ⟨above, alone⟩ up path
        rcases path.cases_head with rfl | ⟨up', ⟨label, here'⟩, path⟩
        · exact alone
        · obtain ⟨same, _⟩ := Prod.mk.inj (Option.some.inj (here.symm.trans here'))
          obtain rfl := Option.some.inj same
          exact above up path
      · exact fun all => ⟨fun up path => all up (.head ⟨own, here⟩ path), all node .refl⟩

/-- The line of ancestors of a node, if it has one. -/
noncomputable def of (parent : α → Option (Option α × β)) (node : α) : List β :=
  open Classical in if h : ∃ labels, Lineage parent (some node) labels then h.choose else []

theorem of_eq {node : α} {labels : List β} (line : Lineage parent (some node) labels) : of parent node = labels := by
  have known : ∃ labels, Lineage parent (some node) labels := ⟨labels, line⟩
  rw [of, dif_pos known]
  exact known.choose_spec.unique line

end Lineage
