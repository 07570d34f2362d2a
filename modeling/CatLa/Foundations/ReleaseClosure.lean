import CatLa.Foundations.CountedGraph

namespace CountedGraph

universe u
variable {α : Type u}

/-- The nodes with a reference. -/
def counted (nodes : Finset α) (count : α → Nat) : Finset α := nodes.filter (count · ≠ 0)

/-- The pointers of the nodes without one, which nothing will ever drop. -/
def floating (nodes : Finset α) (count : α → Nat) (pointers : α → Multiset α) : Multiset α :=
  ∑ z ∈ nodes.filter (count · = 0), pointers z

/-- The nodes that lose their last reference when `dropped` is dropped and
`kept` is kept: the least set with a node when nothing outside the set refers
to it any more, and something did. -/
inductive Lost (nodes : Finset α) (pointers : α → Multiset α) (dropped kept : Multiset α) : α → Prop
  | lose {x : α} (inside : x ∈ nodes) (unheld : x ∉ kept) (referred : x ∈ dropped ∨ ∃ p ∈ nodes, x ∈ pointers p)
      (below : ∀ p ∈ nodes, x ∈ pointers p → Lost nodes pointers dropped kept p) : Lost nodes pointers dropped kept x

/-- Nodes that stay: each one is held, or one of them points to it. -/
def Sustained (pointers : α → Multiset α) (kept : Multiset α) (s : Set α) : Prop :=
  ∀ x ∈ s, x ∈ kept ∨ ∃ p ∈ s, x ∈ pointers p

/-- A release at any point: the nodes that have left so far had to. -/
structure Losing (nodes : Finset α) (count : α → Nat) (pointers : α → Multiset α) (dropped kept : Multiset α)
    (holders : Finset α) : Prop where
  shrink : holders ⊆ counted nodes count
  gone : ∀ x ∈ counted nodes count, x ∉ holders → Lost nodes pointers dropped kept x

variable {nodes holders : Finset α} {count count' : α → Nat} {pointers pointers' : α → Multiset α}
  {refs dropped kept pending : Multiset α} {x : α}

theorem mem_counted : x ∈ counted nodes count ↔ x ∈ nodes ∧ count x ≠ 0 := Finset.mem_filter

theorem mem_floating : x ∈ floating nodes count pointers ↔ ∃ z ∈ nodes, count z = 0 ∧ x ∈ pointers z := by
  simp [floating, Multiset.mem_sum, and_assoc]

theorem Losing.start : Losing nodes count pointers dropped kept (counted nodes count) :=
  ⟨Finset.Subset.refl _, fun _ member outside => absurd member outside⟩

theorem Sustained.congr {s : Set α} (sustained : Sustained pointers kept s) (same : ∀ p ∈ s, pointers' p = pointers p)
    (more : ∀ y ∈ kept, y ∈ refs) : Sustained pointers' refs s := fun y member =>
  (sustained y member).imp (more y) fun ⟨p, inside, pointed⟩ => ⟨p, inside, (same p inside).symm ▸ pointed⟩

/-- What stays is not lost. -/
theorem Lost.not_mem {s : Set α} (lost : Lost nodes pointers dropped kept x) (sustained : Sustained pointers kept s)
    (inside : ∀ y ∈ s, y ∈ nodes) : x ∉ s := by
  induction lost with
  | lose member unheld referred below ih =>
    intro stays
    obtain held | ⟨p, keeper, pointed⟩ := sustained _ stays
    · exact unheld held
    · exact ih p (inside p keeper) pointed keeper

variable [DecidableEq α]

/-- Counts that equal references plus pointers. A node without any is allowed;
nobody can ever drop a reference to it. -/
structure Counts (nodes : Finset α) (count : α → Nat) (pointers : α → Multiset α) (refs : Multiset α) : Prop where
  count_eq : ∀ x ∈ nodes, count x = refs.count x + slots nodes pointers x
  refs_mem : ∀ x ∈ refs, x ∈ nodes
  pointers_mem : ∀ o ∈ nodes, ∀ x ∈ pointers o, x ∈ nodes

theorem count_floating (x : α) :
    (floating nodes count pointers).count x = slots (nodes.filter (count · = 0)) pointers x :=
  Multiset.count_sum'

theorem Accounted.counts (exact : Accounted nodes count pointers refs) : Counts nodes count pointers refs :=
  ⟨exact.count_eq, exact.refs_mem, exact.pointers_mem⟩

namespace Counts

theorem slots_split (count : α → Nat) (x : α) : slots nodes pointers x =
    (floating nodes count pointers).count x + slots (counted nodes count) pointers x := by
  rw [count_floating]
  exact (Finset.sum_filter_add_sum_filter_not nodes (count · = 0) fun o => (pointers o).count x).symm

theorem positive_of_pointer (counts : Counts nodes count pointers refs) {p : α} (member : p ∈ nodes)
    (pointed : x ∈ pointers p) : count x ≠ 0 := by
  have exact := counts.count_eq x (counts.pointers_mem p member x pointed)
  have positive : 0 < slots nodes pointers x := slots_pos.mpr ⟨p, member, pointed⟩
  omega

theorem positive_of_ref (counts : Counts nodes count pointers refs) (referred : x ∈ refs) : count x ≠ 0 := by
  have exact := counts.count_eq x (counts.refs_mem x referred)
  have positive := Multiset.count_pos.mpr referred
  omega

/-- The nodes with a reference have exact counts; the pointers of the other
ones are references to them from outside. -/
theorem accounted (counts : Counts nodes count pointers refs) :
    Accounted (counted nodes count) count pointers (refs + floating nodes count pointers) where
  count_eq x member := by
    rw [counts.count_eq x (mem_counted.mp member).1, slots_split count, Multiset.count_add, Nat.add_assoc]
  positive x member := (mem_counted.mp member).2
  refs_mem x member := by
    rcases Multiset.mem_add.mp member with referred | floats
    · exact mem_counted.mpr ⟨counts.refs_mem x referred, counts.positive_of_ref referred⟩
    · obtain ⟨z, inside, _, pointed⟩ := mem_floating.mp floats
      exact mem_counted.mpr ⟨counts.pointers_mem z inside x pointed, counts.positive_of_pointer inside pointed⟩
  pointers_mem o member x pointed := by
    have inside := (mem_counted.mp member).1
    exact mem_counted.mpr ⟨counts.pointers_mem o inside x pointed, counts.positive_of_pointer inside pointed⟩

end Counts

namespace Losing

/-- The node whose last reference is dropped had to go. -/
theorem last (losing : Losing nodes count pointers dropped kept holders)
    (counts : Counts nodes count pointers (dropped + kept))
    (exact : Accounted holders count' pointers' (pending + (kept + floating nodes count pointers)))
    (same : ∀ p ∈ holders, pointers' p = pointers p) (referred : x ∈ pending) (one : count' x = 1) :
    Losing nodes count pointers dropped kept (holders.erase x) := by
  have holder : x ∈ holders := exact.refs_mem x (Multiset.mem_add.mpr (Or.inl referred))
  have first := mem_counted.mp (losing.shrink holder)
  have now := exact.count_eq x holder
  have here := Multiset.count_pos.mpr referred
  rw [one, Multiset.count_add, Multiset.count_add] at now
  have unheld : x ∉ kept := fun held => by
    have := Multiset.count_pos.mpr held
    omega
  have unfloated : x ∉ floating nodes count pointers := fun floats => by
    have := Multiset.count_pos.mpr floats
    omega
  have unpointed (p : α) (member : p ∈ holders) : x ∉ pointers p := fun pointed => by
    have : 0 < slots holders pointers' x := slots_pos.mpr ⟨p, member, by rwa [same p member]⟩
    omega
  have lost : Lost nodes pointers dropped kept x := by
    refine .lose first.1 unheld ?_ fun p inside pointed => losing.gone p (mem_counted.mpr ⟨inside, fun zero => ?_⟩)
      fun member => unpointed p member pointed
    · have initial := counts.count_eq x first.1
      by_contra none
      obtain ⟨notDropped, notPointed⟩ := not_or.mp none
      have noSlots : slots nodes pointers x = 0 := Nat.eq_zero_of_not_pos fun positive => notPointed (slots_pos.mp positive)
      rw [Multiset.count_add, Multiset.count_eq_zero.mpr notDropped, Multiset.count_eq_zero.mpr unheld, noSlots] at initial
      exact first.2 initial
    · exact unfloated (mem_floating.mpr ⟨p, inside, zero, pointed⟩)
  refine ⟨(Finset.erase_subset x holders).trans losing.shrink, fun y member outside => ?_⟩
  by_cases different : y = x
  · exact different ▸ lost
  · exact losing.gone y member fun again => outside (Finset.mem_erase.mpr ⟨different, again⟩)

/-- When nothing is left to drop, exactly the lost nodes are gone. -/
theorem finish (losing : Losing nodes count pointers dropped kept holders)
    (counts : Counts nodes count pointers (dropped + kept))
    (exact : Accounted holders count' pointers' (kept + floating nodes count pointers))
    (same : ∀ p ∈ holders, pointers' p = pointers p) :
    Lost nodes pointers dropped kept x ↔ x ∈ counted nodes count ∧ x ∉ holders := by
  refine ⟨fun lost => ?_, fun gone => losing.gone x gone.1 gone.2⟩
  induction lost with
  | @lose x inside unheld referred below ih =>
    have positive : count x ≠ 0 := by
      rcases referred with dropped | ⟨p, member, pointed⟩
      · exact counts.positive_of_ref (Multiset.mem_add.mpr (Or.inl dropped))
      · exact counts.positive_of_pointer member pointed
    refine ⟨mem_counted.mpr ⟨inside, positive⟩, fun holder => exact.positive x holder ?_⟩
    have unfloated : x ∉ floating nodes count pointers := fun floats => by
      obtain ⟨z, member, zero, pointed⟩ := mem_floating.mp floats
      exact (mem_counted.mp (ih z member pointed).1).2 zero
    have unpointed : slots holders pointers' x = 0 := Nat.eq_zero_of_not_pos fun some => by
      obtain ⟨p, member, pointed⟩ := slots_pos.mp some
      rw [same p member] at pointed
      exact (ih p (mem_counted.mp (losing.shrink member)).1 pointed).2 member
    rw [exact.count_eq x holder, Multiset.count_add, Multiset.count_eq_zero.mpr unheld,
      Multiset.count_eq_zero.mpr unfloated, unpointed]

end Losing

/-- With one dropped reference the lost nodes are the least set that contains
the node if that reference was the only one, and every node without references
that is pointed to, and only from the set. -/
theorem lost_least {o : α} (counts : Counts nodes count pointers ({o} + kept)) {others : Set α}
    (first : count o = 1 → o ∈ others)
    (next : ∀ x ∈ nodes, x ∉ ({o} + kept : Multiset α) → (∃ p ∈ nodes, x ∈ pointers p) →
      (∀ p ∈ nodes, x ∈ pointers p → p ∈ others) → x ∈ others)
    (lost : Lost nodes pointers {o} kept x) : x ∈ others := by
  have inside : o ∈ nodes := counts.refs_mem o (Multiset.mem_add.mpr (Or.inl (Multiset.mem_singleton_self o)))
  have atO := counts.count_eq o inside
  rw [Multiset.count_add, Multiset.count_singleton_self] at atO
  -- without a pointer to it only `o` itself can be lost first
  have alone {x : α} (unheld : x ∉ kept) (referred : x ∈ ({o} : Multiset α)) (unpointed : ¬∃ p ∈ nodes, x ∈ pointers p) :
      x = o ∧ count o = 1 := by
    obtain rfl := Multiset.mem_singleton.mp referred
    have noSlots : slots nodes pointers x = 0 := Nat.eq_zero_of_not_pos fun some => unpointed (slots_pos.mp some)
    rw [noSlots, Multiset.count_eq_zero.mpr unheld] at atO
    exact ⟨rfl, atO⟩
  have only {x : α} (lost : Lost nodes pointers {o} kept x) : count o = 1 := by
    induction lost with
    | @lose x member unheld referred below ih =>
      by_cases pointed : ∃ p ∈ nodes, x ∈ pointers p
      · obtain ⟨p, owner, edge⟩ := pointed
        exact ih p owner edge
      · exact (alone unheld (referred.resolve_right pointed) pointed).2
  have one := only lost
  have unpointed : slots nodes pointers o = 0 := by omega
  induction lost with
  | @lose x member unheld referred below ih =>
    by_cases pointed : ∃ p ∈ nodes, x ∈ pointers p
    · refine next x member (fun held => ?_) pointed ih
      rcases Multiset.mem_add.mp held with here | held
      · obtain rfl := Multiset.mem_singleton.mp here
        have some := slots_pos.mpr pointed
        omega
      · exact unheld held
    · rw [(alone unheld (referred.resolve_right pointed) pointed).1]
      exact first one

/-- And the lost nodes are such a set. -/
theorem lost_closed {o : α} (counts : Counts nodes count pointers ({o} + kept)) :
    (count o = 1 → Lost nodes pointers {o} kept o) ∧
      ∀ x ∈ nodes, x ∉ ({o} + kept : Multiset α) → (∃ p ∈ nodes, x ∈ pointers p) →
        (∀ p ∈ nodes, x ∈ pointers p → Lost nodes pointers {o} kept p) → Lost nodes pointers {o} kept x := by
  have inside : o ∈ nodes := counts.refs_mem o (Multiset.mem_add.mpr (Or.inl (Multiset.mem_singleton_self o)))
  have atO := counts.count_eq o inside
  rw [Multiset.count_add, Multiset.count_singleton_self] at atO
  refine ⟨fun one => ?_, fun x member unheld pointed below => ?_⟩
  · have unheld : kept.count o = 0 := by omega
    refine .lose inside (Multiset.count_eq_zero.mp unheld) (Or.inl (Multiset.mem_singleton_self o)) fun p owner pointed => ?_
    have some : 0 < slots nodes pointers o := slots_pos.mpr ⟨p, owner, pointed⟩
    omega
  · exact .lose member (fun held => unheld (Multiset.mem_add.mpr (Or.inr held))) (Or.inr pointed) below

end CountedGraph
