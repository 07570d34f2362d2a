import Mathlib.Algebra.BigOperators.Group.Finset.Basic
import Mathlib.Algebra.Order.BigOperators.Group.Finset
import Mathlib.Data.Multiset.Filter
import Mathlib.Algebra.Order.Group.Multiset

namespace CountedGraph

universe u
variable {α : Type u} [DecidableEq α]

/-- The number of pointers from the nodes in `holders` to `x`. -/
def slots (holders : Finset α) (pointers : α → Multiset α) (x : α) : Nat :=
  ∑ o ∈ holders, (pointers o).count x

/-- Exact reference counts. A node in `holders` still owns its pointers; its
count is the number of references in `refs` to it and of pointers to it from
other holders, and it is not zero. No reference and no pointer of a holder
leads out of the holders. -/
structure Accounted (holders : Finset α) (count : α → Nat) (pointers : α → Multiset α)
    (refs : Multiset α) : Prop where
  count_eq : ∀ x ∈ holders, count x = refs.count x + slots holders pointers x
  positive : ∀ x ∈ holders, count x ≠ 0
  refs_mem : ∀ x ∈ refs, x ∈ holders
  pointers_mem : ∀ o ∈ holders, ∀ x ∈ pointers o, x ∈ holders

theorem slots_congr {holders : Finset α} {pointers pointers' : α → Multiset α}
    (same : ∀ o ∈ holders, pointers' o = pointers o) (x : α) :
    slots holders pointers' x = slots holders pointers x :=
  Finset.sum_congr rfl fun o member => by rw [same o member]

theorem slots_erase {holders : Finset α} {o : α} (member : o ∈ holders) (pointers : α → Multiset α) (x : α) :
    slots holders pointers x = (pointers o).count x + slots (holders.erase o) pointers x :=
  (Finset.add_sum_erase holders (fun p => (pointers p).count x) member).symm

theorem count_le_slots {holders : Finset α} {o : α} (member : o ∈ holders) (pointers : α → Multiset α) (x : α) :
    (pointers o).count x ≤ slots holders pointers x := by
  rw [slots_erase member]
  exact Nat.le_add_right _ _

theorem slots_pos {holders : Finset α} {pointers : α → Multiset α} {x : α} :
    0 < slots holders pointers x ↔ ∃ o ∈ holders, x ∈ pointers o := by
  rw [slots, Finset.sum_pos_iff_of_nonneg fun _ _ => Nat.zero_le _]
  simp only [Multiset.count_pos]

namespace Accounted
variable {holders : Finset α} {count count' : α → Nat} {pointers pointers' : α → Multiset α}
  {refs refs' : Multiset α} {x : α}

theorem congr (exact : Accounted holders count pointers refs)
    (sameCount : ∀ o ∈ holders, count' o = count o) (samePointers : ∀ o ∈ holders, pointers' o = pointers o) :
    Accounted holders count' pointers' refs where
  count_eq x member := by
    rw [sameCount x member, exact.count_eq x member, slots_congr samePointers]
  positive x member := by
    rw [sameCount x member]
    exact exact.positive x member
  refs_mem := exact.refs_mem
  pointers_mem o member x pointed := exact.pointers_mem o member x (samePointers o member ▸ pointed)

/-- A reference is dropped that is not the last one. -/
theorem drop_shared (exact : Accounted holders count pointers ({x} + refs)) (shared : count x ≠ 1) :
    Accounted holders (Function.update count x (count x - 1)) pointers refs where
  count_eq y member := by
    have atY := exact.count_eq y member
    rw [Multiset.count_add, Multiset.count_singleton] at atY
    by_cases same : y = x
    · subst same
      rw [if_pos rfl] at atY
      rw [Function.update_self]
      omega
    · rw [if_neg same] at atY
      rw [Function.update_of_ne same]
      omega
  positive y member := by
    have nonzero := exact.positive y member
    by_cases same : y = x
    · subst same
      rw [Function.update_self]
      omega
    · rwa [Function.update_of_ne same]
  refs_mem y member := exact.refs_mem y (Multiset.mem_add.mpr (Or.inr member))
  pointers_mem := exact.pointers_mem

/-- The only reference to a node, seen from the accounting: nothing else
refers to it, so none of its own pointers does either. -/
theorem last_unreferenced (exact : Accounted holders count pointers ({x} + refs)) (last : count x = 1) :
    x ∉ refs ∧ ∀ o ∈ holders, x ∉ pointers o := by
  have member := exact.refs_mem x (Multiset.mem_add.mpr (Or.inl (Multiset.mem_singleton_self x)))
  have atX := exact.count_eq x member
  rw [last, Multiset.count_add, Multiset.count_singleton_self] at atX
  constructor
  · rw [← Multiset.count_eq_zero]
    omega
  · intro o owner pointed
    have bound := count_le_slots owner pointers x
    have positive := Multiset.count_pos.mpr pointed
    omega

/-- The last reference to a node is dropped: the node leaves the holders and
its pointers become references that are still to be dropped. -/
theorem drop_last (exact : Accounted holders count pointers ({x} + refs)) (last : count x = 1)
    (same : ∀ y, y ≠ x → count' y = count y) :
    Accounted (holders.erase x) count' pointers (pointers x + refs) := by
  have member := exact.refs_mem x (Multiset.mem_add.mpr (Or.inl (Multiset.mem_singleton_self x)))
  obtain ⟨notRef, notPointed⟩ := exact.last_unreferenced last
  refine ⟨?_, ?_, ?_, ?_⟩
  · intro y owner
    obtain ⟨different, owner⟩ := Finset.mem_erase.mp owner
    have atY := exact.count_eq y owner
    rw [Multiset.count_add, Multiset.count_singleton, if_neg different, slots_erase member] at atY
    rw [same y different, Multiset.count_add]
    omega
  · intro y owner
    obtain ⟨different, owner⟩ := Finset.mem_erase.mp owner
    rw [same y different]
    exact exact.positive y owner
  · intro y referred
    rcases Multiset.mem_add.mp referred with pointed | referred
    · exact Finset.mem_erase.mpr
        ⟨fun equal => notPointed x member (equal ▸ pointed), exact.pointers_mem x member y pointed⟩
    · exact Finset.mem_erase.mpr
        ⟨fun equal => notRef (equal ▸ referred), exact.refs_mem y (Multiset.mem_add.mpr (Or.inr referred))⟩
  · intro o owner y pointed
    have owner := Finset.mem_of_mem_erase owner
    exact Finset.mem_erase.mpr
      ⟨fun equal => notPointed o owner (equal ▸ pointed), exact.pointers_mem o owner y pointed⟩

/-- A new reference to a holder. -/
theorem acquire (exact : Accounted holders count pointers refs) (member : x ∈ holders) :
    Accounted holders (Function.update count x (count x + 1)) pointers ({x} + refs) where
  count_eq y owner := by
    have atY := exact.count_eq y owner
    rw [Multiset.count_add, Multiset.count_singleton]
    by_cases same : y = x
    · subst same
      rw [Function.update_self, if_pos rfl]
      omega
    · rw [Function.update_of_ne same, if_neg same]
      omega
  positive y owner := by
    by_cases same : y = x
    · subst same
      rw [Function.update_self]
      omega
    · rw [Function.update_of_ne same]
      exact exact.positive y owner
  refs_mem y referred := by
    rcases Multiset.mem_add.mp referred with here | referred
    · exact (Multiset.mem_singleton.mp here) ▸ member
    · exact exact.refs_mem y referred
  pointers_mem := exact.pointers_mem

/-- A store into a holder, or a load out of it: what its pointers lose or gain
the references gain or lose, so no count changes. -/
theorem exchange (exact : Accounted holders count pointers refs) {o : α} (owner : o ∈ holders)
    (elsewhere : ∀ p, p ≠ o → pointers' p = pointers p) (balance : pointers' o + refs' = pointers o + refs) :
    Accounted holders count pointers' refs' := by
  have inside (y : α) (moved : y ∈ pointers' o + refs') : y ∈ holders := by
    rcases Multiset.mem_add.mp (balance ▸ moved) with pointed | referred
    · exact exact.pointers_mem o owner y pointed
    · exact exact.refs_mem y referred
  refine ⟨?_, exact.positive, fun y member => inside y (Multiset.mem_add.mpr (Or.inr member)), ?_⟩
  · intro y member
    have atY := exact.count_eq y member
    have total := congrArg (Multiset.count y) balance
    rw [Multiset.count_add, Multiset.count_add] at total
    rw [slots_erase owner] at atY ⊢
    rw [slots_congr (fun p other => elsewhere p (Finset.ne_of_mem_erase other))]
    omega
  · intro p member y pointed
    by_cases same : p = o
    · subst same
      exact inside y (Multiset.mem_add.mpr (Or.inl pointed))
    · exact exact.pointers_mem p member y (elsewhere p same ▸ pointed)

/-- A fresh node without pointers, held by one reference. -/
theorem insert_fresh (exact : Accounted holders count pointers refs) (fresh : x ∉ holders)
    (sameCount : ∀ y, y ≠ x → count' y = count y) (one : count' x = 1)
    (samePointers : ∀ y, y ≠ x → pointers' y = pointers y) (empty : pointers' x = 0) :
    Accounted (insert x holders) count' pointers' ({x} + refs) := by
  have slotsSame (y : α) : slots (insert x holders) pointers' y = slots holders pointers y := by
    rw [slots, Finset.sum_insert fresh, empty, Multiset.count_zero, Nat.zero_add]
    exact slots_congr (fun o member => samePointers o fun equal => fresh (equal ▸ member)) y
  have unreferenced : refs.count x = 0 := Multiset.count_eq_zero.mpr fun member => fresh (exact.refs_mem x member)
  have unpointed : slots holders pointers x = 0 := by
    refine Nat.eq_zero_of_not_pos fun positive => ?_
    obtain ⟨o, member, pointed⟩ := slots_pos.mp positive
    exact fresh (exact.pointers_mem o member x pointed)
  refine ⟨?_, ?_, ?_, ?_⟩
  · intro y member
    rw [slotsSame, Multiset.count_add, Multiset.count_singleton]
    by_cases same : y = x
    · subst same
      rw [one, if_pos rfl, unreferenced, unpointed]
    · rw [if_neg same, sameCount y same, exact.count_eq y ((Finset.mem_insert.mp member).resolve_left same)]
      omega
  · intro y member
    by_cases same : y = x
    · rw [same, one]
      exact Nat.one_ne_zero
    · rw [sameCount y same]
      exact exact.positive y ((Finset.mem_insert.mp member).resolve_left same)
  · intro y member
    rcases Multiset.mem_add.mp member with here | referred
    · exact (Multiset.mem_singleton.mp here) ▸ Finset.mem_insert_self _ _
    · exact Finset.mem_insert_of_mem (exact.refs_mem y referred)
  · intro o member y pointed
    by_cases same : o = x
    · rw [same, empty] at pointed
      exact absurd pointed (Multiset.notMem_zero y)
    · rw [samePointers o same] at pointed
      exact Finset.mem_insert_of_mem
        (exact.pointers_mem o ((Finset.mem_insert.mp member).resolve_left same) y pointed)

/-- A set of nodes that no reference and no pointer from outside leads into
can leave the holders together: what they point to outside the set becomes
references that are still to be dropped. -/
theorem discard (exact : Accounted holders count pointers refs) {gone : Finset α} (inside : gone ⊆ holders)
    (unreferenced : ∀ x ∈ gone, x ∉ refs) (closed : ∀ o ∈ holders, o ∉ gone → ∀ x ∈ gone, x ∉ pointers o) :
    Accounted (holders \ gone) count pointers
      ((∑ o ∈ gone, (pointers o).filter (· ∉ gone)) + refs) := by
  have split (x : α) : slots holders pointers x = slots gone pointers x + slots (holders \ gone) pointers x := by
    rw [Nat.add_comm]
    exact (Finset.sum_sdiff inside).symm
  refine ⟨?_, ?_, ?_, ?_⟩
  · intro x member
    obtain ⟨owner, kept⟩ := Finset.mem_sdiff.mp member
    have leaving : Multiset.count x (∑ o ∈ gone, (pointers o).filter (· ∉ gone)) = slots gone pointers x := by
      rw [Multiset.count_sum']
      exact Finset.sum_congr rfl fun o _ => Multiset.count_filter_of_pos kept
    rw [Multiset.count_add, leaving, exact.count_eq x owner, split x]
    omega
  · exact fun x member => exact.positive x (Finset.mem_sdiff.mp member).1
  · intro x member
    rcases Multiset.mem_add.mp member with leaving | referred
    · obtain ⟨o, owner, pointed⟩ := Multiset.mem_sum.mp leaving
      obtain ⟨pointed, kept⟩ := Multiset.mem_filter.mp pointed
      exact Finset.mem_sdiff.mpr ⟨exact.pointers_mem o (inside owner) x pointed, kept⟩
    · exact Finset.mem_sdiff.mpr ⟨exact.refs_mem x referred, fun member => unreferenced x member referred⟩
  · intro o member x pointed
    obtain ⟨owner, kept⟩ := Finset.mem_sdiff.mp member
    exact Finset.mem_sdiff.mpr
      ⟨exact.pointers_mem o owner x pointed, fun gone => closed o owner kept x gone pointed⟩

end Accounted

end CountedGraph
