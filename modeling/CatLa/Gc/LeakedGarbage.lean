import CatLa.Gc.ExactCollection
import CatLa.Gc.GarbageProgress

namespace CatLa
open CountedGraph FuelLoop GraphSearch Relation

/-- Live objects without handles, none of them suspected: each is pointed to from
among them, and from nowhere else. -/
structure Leaked (m : GcState) (handles : Multiset Address) (leak : Set Address) : Prop where
  live : ∀ x ∈ leak, (m.heap x).state = .live
  unheld : ∀ x ∈ handles, x ∉ leak
  unsuspected : ∀ x ∈ leak, (m.heap x).asyncRelease = false
  pointed : ∀ x ∈ leak, ∃ p ∈ leak, x ∈ m.heap.pointers p
  only : ∀ p, (m.heap p).state = .live → ∀ x ∈ m.heap.pointers p, x ∈ leak → p ∈ leak

namespace Leaked
variable {m m' : GcState} {holders holders' : Finset Address} {handles handles' : Multiset Address} {leak : Set Address}
  {parent x : Address} {i : Nat}

theorem sustained (leaked : Leaked m handles leak) (handles' : Multiset Address) : Sustained m.heap.pointers handles' leak :=
  fun x member => Or.inr (leaked.pointed x member)

theorem inside (leaked : Leaked m handles leak) (consistent : Consistent m holders handles) (o : Address) (member : o ∈ leak) :
    o ∈ holders :=
  (consistent.live o).mp (leaked.live o member)

/-- What a field of a held object leads to is not leaked. -/
theorem field_notMem (leaked : Leaked m handles leak) (consistent : Consistent m holders handles) (held : parent ∈ handles)
    (i : Nat) : (m.heap parent).field i ∉ leak := by
  intro member
  have nonnull : (m.heap parent).field i ≠ 0 :=
    Nat.ne_zero_of_lt (consistent.proper _ (leaked.inside consistent _ member))
  have live := (consistent.live parent).mpr (consistent.exact.refs_mem parent held)
  have pointed := HeapObject.mem_pointers.mpr ⟨HeapObject.field_mem nonnull, nonnull⟩
  exact leaked.unheld parent held (leaked.only parent live _ pointed member)

theorem wordRefs_notMem (leaked : Leaked m handles leak) {w : Address} (away : w ∉ leak) :
    ∀ x ∈ wordRefs w + handles, x ∉ leak := by
  intro x handle
  rcases Multiset.mem_add.mp handle with here | old
  · unfold wordRefs at here
    split at here
    · exact absurd here (Multiset.notMem_zero x)
    · rwa [Multiset.mem_singleton.mp here]
  · exact leaked.unheld x old

/-- Where a word outside the leak is stored into a held object. -/
theorem store_same (leaked : Leaked m handles leak) (held : parent ∈ handles) (h : Heap) (f : HeapObject → HeapObject) :
    ∀ x ∈ leak, h.modify parent f x = h x :=
  fun _ member => Heap.modify_of_ne _ _ fun here => leaked.unheld parent held (here ▸ member)

theorem store_only {w : Address} (away : w ∉ leak) (h : Heap) (parent : Address) (i : Nat) (p : Address) :
    ∀ x ∈ (h.modify parent (·.setField i w) p).pointers, x ∈ leak → x ∈ (h p).pointers := by
  intro x pointed member
  rw [Heap.modify_apply] at pointed
  split at pointed
  · exact ‹p = parent› ▸ (HeapObject.mem_pointers_setField pointed).resolve_left fun here => away (here ▸ member)
  · exact pointed

/-- A change of the memory that leaves the leak and the references to it alone. -/
theorem next (leaked : Leaked m handles leak) (same : ∀ x ∈ leak, m'.heap x = { m.heap x with count := (m'.heap x).count })
    (unheld : ∀ x ∈ handles', x ∉ leak)
    (only : ∀ p, (m'.heap p).state = .live → ∀ x ∈ (m'.heap p).pointers, x ∈ leak →
      (m.heap p).state = .live ∧ x ∈ (m.heap p).pointers) :
    Leaked m' handles' leak ∧ ∀ x ∈ leak, (m'.heap x).fields = (m.heap x).fields := by
  refine ⟨⟨fun x member => ?_, unheld, fun x member => ?_, fun x member => ?_, fun p live x pointed member => ?_⟩,
    fun x member => by rw [same x member]⟩
  · rw [same x member]
    exact leaked.live x member
  · rw [same x member]
    exact leaked.unsuspected x member
  · obtain ⟨p, owner, pointed⟩ := leaked.pointed x member
    refine ⟨p, owner, ?_⟩
    show x ∈ (m'.heap p).pointers
    rw [same p owner]
    exact pointed
  · obtain ⟨live, pointed⟩ := only p live x pointed member
    exact leaked.only p live x pointed member

/-- A change, and releases after it. -/
theorem remains (leaked : Leaked m handles leak) (consistent : Consistent m holders handles)
    (kept : Consistent m' holders' handles') {h : Heap} (remains : Remains h holders holders' handles' m'.heap)
    (same : ∀ x ∈ leak, h x = m.heap x) (unheld : ∀ x ∈ handles', x ∉ leak)
    (only : ∀ p, ∀ x ∈ (h p).pointers, x ∈ leak → x ∈ (m.heap p).pointers) :
    Leaked m' handles' leak ∧ ∀ x ∈ leak, (m'.heap x).fields = (m.heap x).fields := by
  have sustained : Sustained h.pointers handles' leak := by
    refine (leaked.sustained handles').congr (fun p member => ?_) fun _ => id
    show (h p).pointers = (m.heap p).pointers
    rw [same p member]
  have stays := remains.spared leak (leaked.inside consistent) sustained
  refine leaked.next (fun x member => ?_) unheld fun p live x pointed member => ?_
  · have value := remains.same x (stays x member)
    rwa [same x member] at value
  · have owner := (kept.live p).mp live
    rw [HeapObject.pointers, remains.fields p owner] at pointed
    exact ⟨(consistent.live p).mpr (remains.shrink owner), only p x pointed member⟩

/-- No collection frees what is leaked: a suspected root that leads to it would
be leaked itself. -/
theorem collect (leaked : Leaked m handles leak) (consistent : Consistent m holders handles)
    (kept : Consistent m' holders' handles) (collected : Collected m m' holders holders' handles) :
    Leaked m' handles leak ∧ ∀ x ∈ leak, (m'.heap x).fields = (m.heap x).fields := by
  have unlisted (r x : Address) (listed : r ∈ m.suspectedObjectList) (holder : r ∈ holders) (path : Reach m.heap.pointers r x) :
      x ∉ leak := by
    induction path with
    | refl =>
      intro member
      have async := ((consistent.listed r).mp listed).2
      rw [leaked.unsuspected r member] at async
      exact absurd async (by simp)
    | @tail p x before pointed ih =>
      exact fun member => ih (leaked.only p ((consistent.live p).mpr (consistent.reach_holders holder before)) x pointed member)
  have stays : ∀ x ∈ leak, x ∈ holders' :=
    collected.spared leak (leaked.sustained handles) fun x member => ⟨leaked.inside consistent x member,
      fun r listed holder secluded => unlisted r x listed holder secluded.2.1 member⟩
  refine leaked.next (fun x member => collected.same x (stays x member)) leaked.unheld fun p live x pointed _ => ?_
  have owner := (kept.live p).mp live
  rw [HeapObject.pointers, collected.kept p owner] at pointed
  exact ⟨(consistent.live p).mpr (collected.shrink owner), pointed⟩

/-- No operation touches what is leaked. -/
theorem step {s s' : RunState} (leaked : Leaked s.1 s.2 leak) (consistent : Consistent s.1 holders s.2) (step : Step s s') :
    Leaked s'.1 s'.2 leak ∧ ∀ x ∈ leak, (s'.1.heap x).fields = (s.1.heap x).fields := by
  cases step with
  | @malloc m handles cell dead address typeInfo isCyclicType fieldLength =>
    have apart (x : Address) (member : x ∈ leak) : x ≠ cell := by
      rintro rfl
      exact absurd (dead.symm.trans (leaked.live x member)) (by simp)
    refine leaked.next (fun x member => ?_) (fun x handle member => ?_) fun p live x pointed member => ?_
    · rw [GcState.malloc_of_ne _ _ _ _ (apart x member)]
    · rcases Multiset.mem_add.mp handle with here | old
      · exact apart x member (Multiset.mem_singleton.mp here)
      · exact leaked.unheld x old member
    · by_cases here : p = cell
      · have none : ((m.malloc cell typeInfo isCyclicType fieldLength).heap cell).pointers = 0 := by
          rw [GcState.malloc_self]
          simp [HeapObject.allocate, HeapObject.pointers]
        rw [here, none] at pointed
        exact absurd pointed (Multiset.notMem_zero x)
      · rw [GcState.malloc_of_ne _ _ _ _ here] at live pointed
        exact ⟨live, pointed⟩
  | @getClone m m' handles parent word i held bound run =>
    obtain ⟨m'', run', kept⟩ := consistent.getCloneObjectField (i := i) held
    obtain ⟨rfl, rfl⟩ := Prod.mk.inj (Option.some.inj (run'.symm.trans run))
    have away := leaked.field_notMem consistent held i
    refine leaked.next (fun x member => ?_) (leaked.wordRefs_notMem away) fun p live x pointed _ => ?_
    · rw [getCloneObjectField_of_ne run fun here => away (here ▸ member)]
    · rw [HeapObject.pointers, getCloneObjectField_fields run p] at pointed
      exact ⟨(consistent.live p).mpr ((kept.live p).mp live), pointed⟩
  | @setClone m m' handles parent child i held childHeld bound run =>
    obtain ⟨m'', run', holders', kept, remains⟩ := consistent.setCloneObjectField_kept held childHeld bound
    obtain rfl := run'.unique run
    refine leaked.remains consistent kept remains (fun x member => ?_) leaked.unheld fun p x pointed member => ?_
    · rw [leaked.store_same held _ _ x member]
      exact incrementReferenceCount_of_ne m fun here => leaked.unheld child childHeld (here ▸ member)
    · have before := store_only (leaked.unheld child childHeld) _ parent i p x pointed member
      rwa [HeapObject.pointers, (incrementReferenceCount_fields m child p).1] at before
  | @getMove m m' handles parent word i held bound run =>
    obtain ⟨m'', run', kept⟩ := consistent.getMoveObjectField held bound
    obtain ⟨rfl, rfl⟩ := Prod.mk.inj (Option.some.inj (run'.symm.trans run))
    have stored := getMoveObjectField_heap run
    have nothing : (0 : Address) ∉ leak := fun member =>
      absurd (consistent.proper 0 (leaked.inside consistent 0 member)) (by decide)
    refine leaked.next (fun x member => ?_) (leaked.wordRefs_notMem (leaked.field_notMem consistent held i))
      fun p live x pointed member => ?_
    · rw [stored, leaked.store_same held _ _ x member]
    · rw [stored] at pointed
      exact ⟨(consistent.live p).mpr ((kept.live p).mp live), store_only nothing _ parent i p x pointed member⟩
  | @setMove m m' handles parent word i held bound run =>
    obtain ⟨m'', run', holders', kept, remains⟩ := consistent.setMoveObjectField_kept held bound
    obtain rfl := run'.unique run
    have away : word ∉ leak := fun member => by
      have nonnull : word ≠ 0 := Nat.ne_zero_of_lt (consistent.proper word (leaked.inside consistent word member))
      exact leaked.unheld word (Multiset.mem_add.mpr (Or.inl (by simp [wordRefs, nonnull]))) member
    exact leaked.remains consistent kept remains (leaked.store_same (Multiset.mem_add.mpr (Or.inr held)) _ _)
      (fun x handle => leaked.unheld x (Multiset.mem_add.mpr (Or.inr handle))) (store_only away m.heap parent i)
  | @drop m m' handles object run =>
    obtain ⟨m'', run', holders', kept, remains⟩ := consistent.dropReference_kept
    obtain rfl := run'.unique run
    exact leaked.remains consistent kept remains (fun _ _ => rfl)
      (fun x handle => leaked.unheld x (Multiset.mem_add.mpr (Or.inr handle))) fun _ _ pointed _ => pointed
  | collect rootOrder releaseOrder run =>
    obtain ⟨m'', run', holders', kept, collected⟩ := returns_gcCollect consistent rootOrder releaseOrder
    obtain rfl := run'.unique run
    exact leaked.collect consistent kept collected

theorem unreachable (leaked : Leaked m handles leak) (consistent : Consistent m holders handles) (member : x ∈ leak) :
    ¬Held m handles x := by
  rintro held
  obtain ⟨y, handle, path⟩ := held_iff.mp held
  induction path with
  | refl => exact leaked.unheld y handle member
  | @tail p q before pointed ih =>
    have live := (consistent.live p).mpr (consistent.reach_holders (consistent.exact.refs_mem y handle) before)
    exact ih (leaked.only p live q pointed member) (held_iff.mpr ⟨y, handle, before⟩)

theorem steps {s s' : RunState} (leaked : Leaked s.1 s.2 leak) (reach : Reachable s) (run : ReflTransGen Step s s') :
    Reachable s' ∧ Leaked s'.1 s'.2 leak ∧ ∀ x ∈ leak, (s'.1.heap x).fields = (s.1.heap x).fields := by
  induction run with
  | refl => exact ⟨reach, leaked, fun _ _ => rfl⟩
  | tail _ step ih =>
    obtain ⟨before, leaked, same⟩ := ih
    obtain ⟨holders, consistent⟩ := before.consistent
    obtain ⟨leaked, fields⟩ := leaked.step consistent step
    exact ⟨before.step step, leaked, fun x member => (fields x member).trans (same x member)⟩

end Leaked

section PlainTypes
variable {m : GcState} {holders : Finset Address} {handles : Multiset Address}

/-- Without cyclic types nothing is suspected, and nothing is left to the
collector. -/
theorem Consistent.plain (consistent : Consistent m holders handles)
    (plain : ∀ o, (m.heap o).state ≠ .dead → (m.heap o).isCyclicType = false) :
    m.suspectedObjectList = [] ∧ ∀ o, (m.heap o).state ≠ .dead → o ∈ holders ∧ (m.heap o).asyncRelease = false := by
  have quiet (o : Address) (alive : (m.heap o).state ≠ .dead) : (m.heap o).asyncRelease = false := by
    refine Bool.eq_false_of_not_eq_true fun async => ?_
    exact absurd ((consistent.cyclic o alive async).symm.trans (plain o alive)) (by simp)
  have empty : m.suspectedObjectList = [] := List.eq_nil_iff_forall_not_mem.mpr fun o listed => by
    obtain ⟨alive, async⟩ := (consistent.listed o).mp listed
    rw [quiet o alive] at async
    exact absurd async (by simp)
  refine ⟨empty, fun o alive => ⟨(consistent.state_cases alive).resolve_right fun waiting => ?_, quiet o alive⟩⟩
  obtain ⟨r, atR, suspected, _⟩ := consistent.waiting.rooted o waiting
  have atR : (m.heap r).state = .waitingForGc := atR
  rw [HeapObject.Suspected, quiet r (by simp [atR])] at suspected
  exact absurd suspected.2 (by simp)

/-- A collection without roots. -/
theorem gcCollect_nil (empty : m.suspectedObjectList = []) (rootOrder releaseOrder : IterationOrder) (fuel : Nat) :
    gcCollect rootOrder releaseOrder fuel m = some m := by
  obtain ⟨heap, list⟩ := m
  obtain rfl : list = [] := empty
  have nothing (order : IterationOrder) : order.arrange [] = [] := (order.perm []).eq_nil
  simp only [gcCollect, nothing, List.foldlM_nil, List.foldl_nil, Option.pure_def, Option.bind_some]

/-- Then all garbage is leaked. -/
theorem Consistent.garbage_leaked (consistent : Consistent m holders handles)
    (plain : ∀ o, (m.heap o).state ≠ .dead → (m.heap o).isCyclicType = false) :
    Leaked m handles {o | Garbage m handles o} where
  live o garbage := (consistent.live o).mpr ((consistent.plain plain).2 o garbage.1).1
  unheld o handle garbage := garbage_unreferenced garbage handle
  unsuspected o garbage := ((consistent.plain plain).2 o garbage.1).2
  pointed o garbage := by
    obtain ⟨p, owner, pointed⟩ := consistent.garbage_predecessor garbage ((consistent.plain plain).2 o garbage.1).1
    exact ⟨p, consistent.garbage_closed garbage owner pointed, pointed⟩
  only p live o pointed garbage := consistent.garbage_closed garbage ((consistent.live p).mp live) pointed

/-- And it hangs on a cycle. -/
theorem Consistent.garbage_cycle (consistent : Consistent m holders handles)
    (plain : ∀ o, (m.heap o).state ≠ .dead → (m.heap o).isCyclicType = false) {o : Address} (garbage : Garbage m handles o) :
    ∃ c, Garbage m handles c ∧ TransGen (fun p q => q ∈ m.heap.pointers p) c c ∧ Reach m.heap.pointers c o := by
  let edge : Address → Address → Prop := fun p q => p ∈ holders ∧ q ∈ m.heap.pointers p
  have finite : {c | Garbage m handles c ∧ Reach m.heap.pointers c o}.Finite :=
    consistent.garbage_finite.subset fun _ member => member.1
  obtain ⟨c, ⟨garbageC, path⟩, cycle, _⟩ := exists_source (r := edge) finite ⟨o, garbage, .refl⟩
    (fun x inside => by
      obtain ⟨garbageX, path⟩ := inside
      obtain ⟨p, owner, pointed⟩ := consistent.garbage_predecessor garbageX ((consistent.plain plain).2 x garbageX.1).1
      exact ⟨p, ⟨consistent.garbage_closed garbageX owner pointed, .head pointed path⟩, owner, pointed⟩)
    fun x inside p into => ⟨consistent.garbage_closed inside.1 into.1 into.2, .head into.2 inside.2⟩
  exact ⟨c, garbageC, TransGen.mono (fun _ _ edge => edge.2) _ _ cycle, path⟩

/-- Types as the loader makes them are not cyclic: `gc_collect` does nothing
then, garbage is what hangs on a cycle that the program has dropped, and it
stays for ever, whatever happens later. -/
theorem plain_leaks (reach : Reachable (m, handles)) (plain : ∀ o, (m.heap o).state ≠ .dead → (m.heap o).isCyclicType = false) :
    (∀ rootOrder releaseOrder, Returns (fun fuel => gcCollect rootOrder releaseOrder fuel m) m) ∧
    ∀ o, (m.heap o).state ≠ .dead → ¬Held m handles o →
      (∃ c, (m.heap c).state ≠ .dead ∧ ¬Held m handles c ∧ TransGen (fun p q => q ∈ (m.heap p).fields ∧ q ≠ 0) c c ∧
        ReflTransGen (fun p q => q ∈ (m.heap p).fields ∧ q ≠ 0) c o) ∧
      ∀ m' handles', ReflTransGen Step (m, handles) (m', handles') →
        (m'.heap o).state = .live ∧ (m'.heap o).fields = (m.heap o).fields ∧ ¬Held m' handles' o := by
  obtain ⟨holders, consistent⟩ := reach.consistent
  have empty := (consistent.plain plain).1
  refine ⟨fun rootOrder releaseOrder => .of_eq fun fuel => ?_, fun o alive unheld => ⟨?_, fun m' handles' run => ?_⟩⟩
  · exact gcCollect_nil empty rootOrder releaseOrder fuel
  · obtain ⟨c, garbage, cycle, path⟩ := consistent.garbage_cycle plain ⟨alive, unheld⟩
    exact ⟨c, garbage.1, garbage.2, TransGen.mono (fun _ _ edge => HeapObject.mem_pointers.mp edge) _ _ cycle,
      ReflTransGen.mono (fun _ _ edge => HeapObject.mem_pointers.mp edge) _ _ path⟩
  · obtain ⟨reach', leaked, same⟩ := (consistent.garbage_leaked plain).steps reach run
    have garbage : o ∈ {o | Garbage m handles o} := ⟨alive, unheld⟩
    obtain ⟨_, consistent'⟩ := reach'.consistent
    exact ⟨leaked.live o garbage, same o garbage, leaked.unreachable consistent' garbage⟩

theorem plain_leaks_droppedTail :
    (∀ rootOrder releaseOrder,
      Returns (fun fuel => gcCollect rootOrder releaseOrder fuel (droppedTail false false)) (droppedTail false false)) ∧
    ∀ o ∈ [8, 16, 24], ∀ m' handles', ReflTransGen Step (droppedTail false false, 0) (m', handles') →
      (m'.heap o).state = .live := by
  obtain ⟨nothing, forever⟩ := plain_leaks (reachable_droppedTail false false) fun o alive => by
    obtain rfl | rfl | rfl := tailState_alive alive <;> rfl
  refine ⟨nothing, fun o member m' handles' run => ((forever o ?_ ?_).2 m' handles' run).1⟩
  · simp only [List.mem_cons, List.not_mem_nil, or_false] at member
    obtain rfl | rfl | rfl := member <;> decide
  · rintro ⟨x, none, _⟩
    exact Multiset.notMem_zero x none

end PlainTypes

end CatLa
