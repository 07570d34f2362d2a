import CatLa.Gc.CollectorRuns

namespace CatLa
open CountedGraph FuelLoop GraphSearch Relation

/-- What a collection finds dead by itself: objects below a suspected root on a
cycle that nothing else leads to. -/
def Doomed (m : GcState) (live : Finset Address) (handles : Multiset Address) (o : Address) : Prop :=
  ∃ r ∈ m.suspectedObjectList, r ∈ live ∧ Secluded m.heap live handles r o

/-- What a collection has to leave alone: none of these objects is doomed, and
each one has a handle or is pointed to by another one. -/
def Stays (m : GcState) (live : Finset Address) (handles : Multiset Address) (stay : Set Address) : Prop :=
  Sustained m.heap.pointers handles stay ∧ ∀ o ∈ stay, o ∈ live ∧ ¬Doomed m live handles o

variable {m m' : GcState} {live live' : Finset Address} {handles : Multiset Address} {o : Address}

theorem Collected.stays (collected : Collected m m' live live' handles) (kept : Consistent m' live' handles) :
    Stays m live handles live' := by
  refine ⟨fun o member => ?_, fun o member => ⟨collected.shrink member, ?_⟩⟩
  · have exact := kept.exact.count_eq o member
    have positive := kept.exact.positive o member
    by_cases handle : o ∈ handles
    · exact Or.inl handle
    · have none := Multiset.count_eq_zero.mpr handle
      obtain ⟨p, owner, pointed⟩ := slots_pos.mp (show 0 < slots live' (fun p => (m'.heap p).pointers) o by omega)
      rw [HeapObject.pointers, collected.kept p owner] at pointed
      exact Or.inr ⟨p, owner, pointed⟩
  · rintro ⟨r, listed, holder, secluded⟩
    exact collected.secluded o member r listed holder secluded

/-- What is live after a collection is the largest set that stays. -/
theorem Collected.live_iff (collected : Collected m m' live live' handles) (kept : Consistent m' live' handles) :
    o ∈ live' ↔ ∃ stay, Stays m live handles stay ∧ o ∈ stay := by
  constructor
  · intro member
    exact ⟨live', collected.stays kept, member⟩
  · rintro ⟨stay, ⟨sustained, inside⟩, member⟩
    refine collected.spared stay sustained (fun p stays => ⟨(inside p stays).1, fun r listed holder secluded => ?_⟩) o member
    exact (inside p stays).2 ⟨r, listed, holder, secluded⟩

theorem Collected.object_eq (collected : Collected m m' live live' handles) (kept : Consistent m' live' handles)
    (member : o ∈ live') :
    m'.heap o = { m.heap o with count := handles.count o + ∑ p ∈ live', (m.heap p).fields.count o } := by
  have nonnull : o ≠ 0 := Nat.ne_zero_of_lt (kept.proper o member)
  have exact : (m'.heap o).count = handles.count o + slots live' (fun p => (m'.heap p).pointers) o :=
    kept.exact.count_eq o member
  have fields : slots live' (fun p => (m'.heap p).pointers) o = ∑ p ∈ live', (m.heap p).fields.count o := by
    refine Finset.sum_congr rfl fun p owner => ?_
    rw [HeapObject.count_pointers _ nonnull, collected.kept p owner]
  rw [collected.same o member, exact, fields]

/-- What `gc_collect` leaves alive, and how, is decided before it begins: the
largest set of live objects that are not doomed and that keep each other alive.
The orders in which it iterates over its sets make no difference. -/
theorem reachable_collection (reach : Reachable (m, handles)) :
    ∃ live live' : Finset Address, (∀ o, o ∈ live ↔ (m.heap o).state = .live) ∧
      (∀ o, o ∈ live' ↔ ∃ stay, Stays m live handles stay ∧ o ∈ stay) ∧
      ∀ rootOrder releaseOrder, ∃ m', Returns (fun fuel => gcCollect rootOrder releaseOrder fuel m) m' ∧
        (∀ o, (m'.heap o).state = .live ↔ o ∈ live') ∧
        ∀ o ∈ live', m'.heap o = { m.heap o with count := handles.count o + ∑ p ∈ live', (m.heap p).fields.count o } := by
  classical
  obtain ⟨live, consistent⟩ := reach.consistent
  have largest (o : Address) : o ∈ live.filter (fun o => ∃ stay, Stays m live handles stay ∧ o ∈ stay) ↔
      ∃ stay, Stays m live handles stay ∧ o ∈ stay := by
    rw [Finset.mem_filter, and_iff_right_iff_imp]
    rintro ⟨stay, stays, member⟩
    exact (stays.2 o member).1
  refine ⟨live, _, fun o => (consistent.live o).symm, largest, fun rootOrder releaseOrder => ?_⟩
  obtain ⟨m', run, live', kept, collected⟩ := returns_gcCollect consistent rootOrder releaseOrder
  obtain rfl : live' = live.filter fun o => ∃ stay, Stays m live handles stay ∧ o ∈ stay := by
    ext o
    rw [largest, collected.live_iff kept]
  exact ⟨m', run, kept.live, fun o => collected.object_eq kept⟩

/-- The two objects go, and the tail stays with the handle of the program. -/
theorem reachable_collection_heldTail : ∃ live' : Finset Address, 8 ∉ live' ∧ 24 ∈ live' ∧ ∀ rootOrder releaseOrder, ∃ m',
    Returns (fun fuel => gcCollect rootOrder releaseOrder fuel (heldTail true true)) m' ∧
      ((m'.heap 8).state = .live ↔ 8 ∈ live') ∧
      (m'.heap 24).count = Multiset.count 24 ({24} + 0) + ∑ p ∈ live', ((heldTail true true).heap p).fields.count 24 := by
  obtain ⟨live, live', states, largest, runs⟩ := reachable_collection (reachable_heldTail true true)
  have inside (o : Address) (member : o ∈ live) : o = 8 ∨ o = 16 ∨ o = 24 := by
    have alive : ((heldTail true true).heap o).state ≠ .dead := by
      rw [(states o).mp member]
      decide
    exact tailState_alive alive
  have forth : 16 ∈ (heldTail true true).heap.pointers 8 := by decide
  have back : 8 ∈ (heldTail true true).heap.pointers 16 := by decide
  have ends (y : Address) : y ∉ (heldTail true true).heap.pointers 24 := Multiset.notMem_zero y
  have stays : 24 ∈ live' := by
    refine (largest 24).mpr ⟨{24}, ⟨fun o member => Or.inl ?_, fun o member => ?_⟩, rfl⟩
    · rw [Set.mem_singleton_iff.mp member]
      decide
    · rw [Set.mem_singleton_iff.mp member]
      have holder : 24 ∈ live := (states 24).mpr rfl
      refine ⟨holder, ?_⟩
      rintro ⟨r, -, -, -, path, closed⟩
      exact (closed 24 holder path .refl).1 (by decide)
  refine ⟨live', fun member => ?_, stays, fun rootOrder releaseOrder => ?_⟩
  · obtain ⟨stay, stays, kept⟩ := (largest 8).mp member
    refine (stays.2 8 kept).2 ⟨8, by decide, (states 8).mpr rfl, .head forth (.single back), .refl, fun y holder _ path => ?_⟩
    have other : y ≠ 24 := by
      rintro rfl
      rcases path.cases_head with same | ⟨q, pointed, _⟩
      · exact absurd same (by decide)
      · exact ends q pointed
    refine ⟨fun handle => other ?_, fun p owner pointed => ?_⟩
    · simpa using handle
    · obtain rfl | rfl | rfl := inside p owner
      · exact .refl
      · exact .single forth
      · exact absurd pointed (ends y)
  · obtain ⟨m', run, state, object⟩ := runs rootOrder releaseOrder
    refine ⟨m', run, state 8, ?_⟩
    rw [object 24 stays]

end CatLa
