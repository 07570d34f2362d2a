import CatLa.Gc.HeapAccounting

namespace CatLa
open CountedGraph

/-- A thread inside a release: `refs` are the references it still has to drop,
`rest` all others, and `owned` are objects that no other thread touches. -/
structure Cascade (holders : Finset Address) (h : Heap) (owned : List Address) (refs rest : Multiset Address) : Prop where
  exact : Exact holders h (refs + rest)
  alive : ∀ o ∈ holders, (h o).state ≠ .dead
  nodup : owned.Nodup
  apart : ∀ o ∈ owned, o ∉ holders ∧ (h o).state ≠ .dead

namespace Cascade
variable {holders : Finset Address} {h : Heap} {owned owned' : List Address} {refs rest : Multiset Address}
  {w c : Address}

theorem congr (cascade : Cascade holders h owned refs rest) {refs' : Multiset Address} (same : refs' = refs) :
    Cascade holders h owned refs' rest := same ▸ cascade

theorem own (cascade : Cascade holders h owned refs rest) (nodup : owned'.Nodup) (fewer : ∀ o ∈ owned', o ∈ owned) :
    Cascade holders h owned' refs rest :=
  { cascade with nodup := nodup, apart := fun o member => cascade.apart o (fewer o member) }

theorem modify (cascade : Cascade holders h owned refs rest) (outside : c ∉ holders) (f : HeapObject → HeapObject)
    (alive : c ∈ owned → (f (h c)).state ≠ .dead) : Cascade holders (h.modify c f) owned refs rest where
  exact := cascade.exact.modify_outside outside f
  alive o member := by
    rw [Heap.modify_of_ne _ _ fun here : o = c => outside (here ▸ member)]
    exact cascade.alive o member
  nodup := cascade.nodup
  apart o member := by
    refine ⟨(cascade.apart o member).1, ?_⟩
    by_cases here : o = c
    · subst here
      rw [Heap.modify_self]
      exact alive member
    · rw [Heap.modify_of_ne _ _ here]
      exact (cascade.apart o member).2

theorem target (cascade : Cascade holders h owned ({w} + refs) rest) : w ∈ holders :=
  cascade.exact.refs_mem w (Multiset.mem_add.mpr (Or.inl (Multiset.mem_add.mpr (Or.inl (Multiset.mem_singleton_self w)))))

theorem fresh (cascade : Cascade holders h owned ({w} + refs) rest) : w ∉ owned := fun member =>
  (cascade.apart w member).1 cascade.target

theorem shared (cascade : Cascade holders h owned ({w} + refs) rest) (shared : (h w).count ≠ 1) :
    Cascade holders (h.modify w .fetchSub) owned refs rest := by
  have holder := cascade.target
  have exact := cascade.exact
  rw [add_assoc] at exact
  refine ⟨exact.fetchSub_shared shared, fun o member => ?_, cascade.nodup, fun o member => ?_⟩
  · rw [Heap.modify_apply]
    split <;> exact cascade.alive o member
  · rw [Heap.modify_of_ne _ _ fun here : o = w => cascade.fresh (here ▸ member)]
    exact cascade.apart o member

theorem last (cascade : Cascade holders h owned ({w} + refs) rest) (last : (h w).count = 1) :
    Cascade (holders.erase w) (h.modify w .fetchSub) (w :: owned) ((h w).pointers + refs) rest := by
  have holder := cascade.target
  have exact := cascade.exact
  rw [add_assoc] at exact
  have dropped := exact.fetchSub_last last
  rw [← add_assoc] at dropped
  refine ⟨dropped, fun o member => ?_, List.nodup_cons.mpr ⟨cascade.fresh, cascade.nodup⟩, fun o member => ?_⟩
  · rw [Heap.modify_of_ne _ _ (Finset.ne_of_mem_erase member)]
    exact cascade.alive o (Finset.mem_of_mem_erase member)
  · rcases List.mem_cons.mp member with rfl | old
    · refine ⟨Finset.notMem_erase o holders, ?_⟩
      rw [Heap.modify_self]
      exact cascade.alive o holder
    · rw [Heap.modify_of_ne _ _ fun here : o = w => cascade.fresh (here ▸ old)]
      exact ⟨fun again => (cascade.apart o old).1 (Finset.mem_of_mem_erase again), (cascade.apart o old).2⟩

end Cascade

/-- One step inside a release, seen from outside: what is counted shrinks by
at most the object whose last reference the step drops. -/
structure CascadeStep (holders : Finset Address) (h : Heap) (owned outer : List Address) (refs rest : Multiset Address)
    (holders' : Finset Address) (h' : Heap) (owned' : List Address) (refs' : Multiset Address) : Prop where
  after : Cascade holders' h' (owned' ++ outer) refs' rest
  evolves : Evolves holders holders' owned h h'
  origin : ∀ o ∈ owned', o ∈ owned ∨ o ∈ holders
  leaves : ∀ o ∈ holders, o ∉ holders' → (h o).count = 1 ∧ o ∈ refs
  keeps : ∀ o, o ∈ owned ∨ o ∈ holders → o ∉ holders' → (h' o).state = .live → o ∈ owned'

namespace CascadeStep
variable {holders : Finset Address} {h : Heap} {owned owned' outer : List Address} {refs rest refs' : Multiset Address}
  {w c : Address}

/-- A step that writes at most owned objects. -/
theorem own {h' : Heap} (after : Cascade holders h' (owned ++ outer) refs rest)
    (evolves : Evolves holders holders owned h h') (nodup : (owned' ++ outer).Nodup) (fewer : ∀ o ∈ owned', o ∈ owned)
    (keeps : ∀ o ∈ owned, (h' o).state = .live → o ∈ owned') (same : refs' = refs) :
    CascadeStep holders h owned outer refs rest holders h' owned' refs' where
  after := (after.own nodup fun o member => by
    rw [List.mem_append] at member ⊢
    exact member.imp_left (fewer o)).congr same
  evolves := evolves
  origin o member := Or.inl (fewer o member)
  leaves o member outside := absurd member outside
  keeps o member outside := keeps o (member.resolve_right outside)

/-- A step that drops a reference which is not the last one, and then may
write an owned object. -/
theorem shared (cascade : Cascade holders h (owned ++ outer) ({w} + refs) rest) {h' : Heap}
    (after : Cascade holders h' (owned ++ outer) refs rest)
    (evolves : Evolves holders holders owned (h.modify w .fetchSub) h') (same : refs' = refs) :
    CascadeStep holders h owned outer ({w} + refs) rest holders h' owned refs' where
  after := after.congr same
  evolves := by
    have positive := cascade.exact.positive w cascade.target
    have first : Evolves holders holders owned h (h.modify w .fetchSub) :=
      (Evolves.fetchSub cascade.target positive (Finset.Subset.refl holders)).weaken fun o member =>
        absurd member List.not_mem_nil
    exact first.trans evolves fun o member => Or.inl member
  origin o member := Or.inl member
  leaves o member outside := absurd member outside
  keeps o member outside _ := member.resolve_right outside

/-- A step that drops the last reference to an object, which the thread takes
over. -/
theorem last (cascade : Cascade holders h (owned ++ outer) ({w} + refs) rest) (last : (h w).count = 1)
    (perm : owned'.Perm (w :: owned)) (same : refs' = (h w).pointers + refs) :
    CascadeStep holders h owned outer ({w} + refs) rest (holders.erase w) (h.modify w .fetchSub) owned' refs' where
  after := by
    have after := cascade.last last
    refine (after.own ?_ fun o member => ?_).congr same
    · exact (perm.append_right outer).nodup_iff.mpr after.nodup
    · exact (perm.append_right outer).mem_iff.mp member
  evolves := by
    have positive := cascade.exact.positive w cascade.target
    exact (Evolves.fetchSub cascade.target positive (Finset.erase_subset w holders)).weaken fun o member =>
      absurd member List.not_mem_nil
  origin o member := by
    rcases List.mem_cons.mp (perm.mem_iff.mp member) with rfl | old
    · exact Or.inr cascade.target
    · exact Or.inl old
  leaves o member outside := by
    have here : o = w := by
      by_contra different
      exact outside (Finset.mem_erase.mpr ⟨different, member⟩)
    rw [here]
    exact ⟨last, Multiset.mem_add.mpr (Or.inl (Multiset.mem_singleton_self w))⟩
  keeps o member outside _ := by
    refine perm.mem_iff.mpr (List.mem_cons.mpr ?_)
    by_cases here : o = w
    · exact Or.inl here
    · exact Or.inr (member.resolve_right fun holder => outside (Finset.mem_erase.mpr ⟨here, holder⟩))

end CascadeStep

/-- What is left of a release after a step, when it may have returned. -/
def refsLeft {φ : Type} (refs : Heap → φ → Multiset Address) (h : Heap) (frame : Option φ) : Multiset Address :=
  frame.elim 0 (refs h)

def objectsLeft {φ : Type} (objects : φ → List Address) (frame : Option φ) : List Address := frame.elim [] objects

theorem pendingPointers_modify {h : Heap} {stack : List Address} {c : Address} (f : HeapObject → HeapObject)
    (apart : c ∉ stack) : pendingPointers (h.modify c f) stack = pendingPointers h stack :=
  pendingPointers_congr fun o member => by
    rw [Heap.modify_of_ne _ _ fun here : o = c => apart (here ▸ member)]

theorem HeapObject.remaining_of_le {o : HeapObject} {i : Nat} (bound : o.fields.length ≤ i) : o.remaining i = 0 := by
  simp [remaining, List.drop_of_length_le bound]

/-- The field of `current` that a release reads next, as a reference. -/
theorem HeapObject.reads {o : HeapObject} {i : Nat} {w : Address} (reads : o.field i = w) (nonnull : w ≠ 0)
    (pending : Multiset Address) : o.remaining i + pending = {w} + (o.remaining (i + 1) + pending) := by
  subst reads
  rw [remaining_step nonnull, add_assoc]

/-- No step brings an object that was visited back to life. -/
theorem visited_modify {h : Heap} {list : List Address} {c : Address} {f : HeapObject → HeapObject}
    (visited : ∀ o ∈ list, (h o).state ≠ .live) (keeps : (f (h c)).state = (h c).state ∨ (f (h c)).state ≠ .live) :
    ∀ o ∈ list, (h.modify c f o).state ≠ .live := by
  intro o member
  by_cases here : o = c
  · subst here
    rw [Heap.modify_self]
    rcases keeps with same | other
    · rw [same]
      exact visited o member
    · exact other
  · rw [Heap.modify_of_ne _ _ here]
    exact visited o member

end CatLa
