import CatLa.Gc.CascadeOutcome
import CatLa.Gc.Consistency
import CatLa.Gc.FieldOperations

namespace CatLa
open CountedGraph FuelLoop GraphSearch Relation

/-- What releases leave of a heap: what stays only loses references, and what
has to stay does. -/
structure Remains (h : Heap) (start holders : Finset Address) (handles : Multiset Address) (h' : Heap) : Prop where
  shrink : holders ⊆ start
  same : ∀ o ∈ holders, h' o = { h o with count := (h' o).count }
  spared : ∀ stay : Set Address, (∀ o ∈ stay, o ∈ start) → Sustained h.pointers handles stay → ∀ o ∈ stay, o ∈ holders

theorem Remains.fields {h h' : Heap} {start holders : Finset Address} {handles : Multiset Address}
    (remains : Remains h start holders handles h') (o : Address) (member : o ∈ holders) : (h' o).fields = (h o).fields := by
  rw [remains.same o member]

theorem Remains.flags {h h' : Heap} {start holders : Finset Address} {handles : Multiset Address}
    (remains : Remains h start holders handles h') (o : Address) (member : o ∈ holders) :
    (h' o).isCyclicType = (h o).isCyclicType := by
  rw [remains.same o member]

namespace Consistent
variable {m : GcState} {holders : Finset Address} {handles : Multiset Address} {x parent : Address} {i : Nat}

/-- A held object gets one more handle. -/
theorem increment (consistent : Consistent m holders handles) (member : x ∈ holders) :
    Consistent (incrementReferenceCount m x) holders ({x} + handles) := by
  have positive : (m.heap x).count ≠ 0 := consistent.exact.positive x member
  have liveX : (m.heap x).state = .live := (consistent.live x).mpr member
  -- only the count and the flag of `x` change, and the flag only rises
  obtain ⟨flag, heap, list, rises, full⟩ : ∃ flag : Bool,
      (incrementReferenceCount m x).heap =
        m.heap.modify x (fun o => { o with count := o.count + 1, asyncRelease := flag }) ∧
      ((incrementReferenceCount m x).suspectedObjectList = m.suspectedObjectList ∧ flag = (m.heap x).asyncRelease ∨
        (incrementReferenceCount m x).suspectedObjectList = m.suspectedObjectList.insert x ∧ flag = true) ∧
      ((m.heap x).asyncRelease = true ∨ flag = true → flag = true ∧ (m.heap x).isCyclicType = true) ∧
      ((m.heap x).isCyclicType = true → flag = true) := by
    rw [incrementReferenceCount_eq]
    by_cases first : (m.heap x).count = 1 ∧ (m.heap x).isCyclicType = true ∧ (m.heap x).asyncRelease = false
    · rw [if_pos first]
      exact ⟨true, rfl, Or.inr ⟨rfl, rfl⟩, fun _ => ⟨rfl, first.2.1⟩, fun _ => rfl⟩
    · rw [if_neg first]
      refine ⟨(m.heap x).asyncRelease, rfl, Or.inl ⟨rfl, rfl⟩, fun async => ?_, fun cyclic => ?_⟩
      · have async := async.elim id id
        exact ⟨async, consistent.cyclic x (by simp [liveX]) async⟩
      · by_cases one : (m.heap x).count = 1
        · exact Bool.eq_true_of_not_eq_false fun async => first ⟨one, cyclic, async⟩
        · exact consistent.shared x member cyclic (by omega)
  have other (o : Address) (different : o ≠ x) : (incrementReferenceCount m x).heap o = m.heap o := by
    rw [heap, Heap.modify_of_ne _ _ different]
  have atX : (incrementReferenceCount m x).heap x =
      { m.heap x with count := (m.heap x).count + 1, asyncRelease := flag } := by
    rw [heap, Heap.modify_self]
  have state (o : Address) : ((incrementReferenceCount m x).heap o).state = (m.heap o).state := by
    by_cases here : o = x
    · rw [here, atX]
    · rw [other o here]
  have header (o : Address) : ((incrementReferenceCount m x).heap o).isCyclicType = (m.heap o).isCyclicType ∧
      ((incrementReferenceCount m x).heap o).lockFlag = (m.heap o).lockFlag ∧
      ((incrementReferenceCount m x).heap o).pointers = (m.heap o).pointers := by
    by_cases here : o = x
    · rw [here, atX]
      exact ⟨rfl, rfl, rfl⟩
    · rw [other o here]
      exact ⟨rfl, rfl, rfl⟩
  have async (o : Address) : ((incrementReferenceCount m x).heap o).asyncRelease = if o = x then flag else (m.heap o).asyncRelease := by
    by_cases here : o = x
    · rw [here, atX, if_pos rfl]
    · rw [other o here, if_neg here]
  generalize incrementReferenceCount m x = m' at *
  refine ⟨?_, fun o => by rw [state o, consistent.live o], fun o => by rw [state o]; exact consistent.idle o, ?_, ?_,
    fun o => by rw [(header o).2.1]; exact consistent.unlocked o, ?_, fun o => ?_, fun o alive asyncO => ?_,
    fun o inside cyclic two => ?_, fun o cycle => ?_, consistent.proper⟩
  · refine (consistent.exact.acquire member).congr (fun o _ => ?_) fun o _ => (header o).2.2
    by_cases here : o = x
    · rw [here, atX, Function.update_self]
    · rw [other o here, Function.update_of_ne here]
  · simp only [state]
    refine consistent.waiting.congr fun o waits => other o fun here => ?_
    have waits : (m.heap o).state = .waitingForGc := waits
    rw [here, liveX] at waits
    exact absurd waits (by simp)
  · simp only [state]
    exact consistent.waitingFinite
  · rcases list with ⟨same, _⟩ | ⟨same, _⟩
    · rw [same]
      exact consistent.nodup
    · rw [same]
      exact consistent.nodup.insert
  · rw [state o, async o]
    by_cases here : o = x
    · subst here
      rw [if_pos rfl]
      rcases list with ⟨same, flagSame⟩ | ⟨same, flagTrue⟩
      · rw [same, flagSame, consistent.listed]
      · simp [same, flagTrue, liveX]
    · rw [if_neg here, ← consistent.listed o]
      rcases list with ⟨same, _⟩ | ⟨same, _⟩
      · rw [same]
      · rw [same, List.mem_insert_iff, or_iff_right here]
  · rw [(header o).1]
    rw [state o] at alive
    rw [async o] at asyncO
    by_cases here : o = x
    · subst here
      rw [if_pos rfl] at asyncO
      exact (rises (Or.inr asyncO)).2
    · rw [if_neg here] at asyncO
      exact consistent.cyclic o alive asyncO
  · rw [(header o).1] at cyclic
    rw [async o]
    by_cases here : o = x
    · subst here
      rw [if_pos rfl]
      exact full cyclic
    · rw [other o here] at two
      rw [if_neg here]
      exact consistent.shared o inside cyclic two
  · refine consistent.acyclic o (cycle_mono cycle fun p q edge _ _ => ?_)
    obtain ⟨inside, pointed, cyclicP, cyclicQ, plainP, plainQ⟩ := edge
    have plain (o : Address) (plain : (m'.heap o).asyncRelease = false) : (m.heap o).asyncRelease = false := by
      rw [async o] at plain
      by_cases here : o = x
      · subst here
        rw [if_pos rfl] at plain
        refine Bool.eq_false_of_not_eq_true fun before => ?_
        rw [(rises (Or.inl before)).1] at plain
        exact absurd plain (by simp)
      · rwa [if_neg here] at plain
    have pointed : q ∈ (m'.heap p).pointers := pointed
    rw [(header p).2.2] at pointed
    exact ⟨inside, pointed, (header p).1 ▸ cyclicP, (header q).1 ▸ cyclicQ, plain p plainP, plain q plainQ⟩

/-- A word is stored into a field of an object that stays held: the references
of the old and the new word change places. -/
theorem store {word : Address} (consistent : Consistent m holders (wordRefs word + handles)) (held : parent ∈ handles)
    (bound : i < (m.heap parent).fields.length) :
    Consistent { m with heap := m.heap.modify parent (·.setField i word) } holders
      (wordRefs ((m.heap parent).field i) + handles) := by
  have owner : parent ∈ holders := consistent.exact.refs_mem parent (Multiset.mem_add.mpr (Or.inr held))
  have live : (m.heap parent).state = .live := (consistent.live parent).mpr owner
  generalize stored : m.heap.modify parent (·.setField i word) = h
  have atParent : h parent = (m.heap parent).setField i word := by rw [← stored, Heap.modify_self]
  have other (o : Address) (different : o ≠ parent) : h o = m.heap o := by rw [← stored, Heap.modify_of_ne _ _ different]
  have header (o : Address) : (h o).state = (m.heap o).state ∧ (h o).count = (m.heap o).count ∧
      (h o).asyncRelease = (m.heap o).asyncRelease ∧ (h o).isCyclicType = (m.heap o).isCyclicType ∧
      (h o).lockFlag = (m.heap o).lockFlag := by
    by_cases here : o = parent
    · rw [here, atParent]
      exact ⟨rfl, rfl, rfl, rfl, rfl⟩
    · rw [other o here]
      exact ⟨rfl, rfl, rfl, rfl, rfl⟩
  have exact : Exact holders h (wordRefs ((m.heap parent).field i) + handles) := by
    have moved : Accounted holders (fun o => (m.heap o).count) (fun o => (h o).pointers)
        (wordRefs ((m.heap parent).field i) + handles) := by
      refine consistent.exact.exchange owner (fun p different => by rw [other p different]) ?_
      rw [atParent, ← add_assoc, HeapObject.pointers_setField bound, add_assoc]
    exact moved.congr (fun o _ => (header o).2.1) fun _ _ => rfl
  have shared (o : Address) (inside : o ∈ holders) (cyclic : (h o).isCyclicType = true) (two : 2 ≤ (h o).count) :
      (h o).asyncRelease = true := by
    obtain ⟨_, count, async, type, _⟩ := header o
    rw [async]
    exact consistent.shared o inside (type ▸ cyclic) (count ▸ two)
  have waitingSet : {o | (h o).state = .waitingForGc} = {o | (m.heap o).state = .waitingForGc} := by
    ext o
    show (h o).state = _ ↔ (m.heap o).state = _
    rw [(header o).1]
  refine ⟨exact, fun o => by rw [(header o).1, consistent.live o], fun o => by rw [(header o).1]; exact consistent.idle o,
    ?_, ?_, fun o => by rw [(header o).2.2.2.2]; exact consistent.unlocked o, consistent.nodup, fun o => ?_,
    fun o alive async => ?_, shared, fun o cycle => ?_, consistent.proper⟩
  · dsimp only
    rw [waitingSet]
    refine consistent.waiting.congr fun o waits => other o fun here => ?_
    have waits : (m.heap o).state = .waitingForGc := waits
    rw [here, live] at waits
    exact absurd waits (by simp)
  · dsimp only
    rw [waitingSet]
    exact consistent.waitingFinite
  · rw [(header o).1, (header o).2.2.1]
    exact consistent.listed o
  · rw [(header o).2.2.2.1]
    rw [(header o).1] at alive
    rw [(header o).2.2.1] at async
    exact consistent.cyclic o alive async
  · -- an edge out of the parent lies on no plain cycle: the parent has a
    -- handle, and with an edge into it a second reference
    refine consistent.acyclic o (cycle_mono cycle fun p q edge into _ => ?_)
    obtain ⟨inside, pointed, cyclicP, cyclicQ, plainP, plainQ⟩ := edge
    have different : p ≠ parent := by
      rintro rfl
      obtain ⟨before, inBefore, intoP, _⟩ := into
      have count := exact.count_eq p owner
      have slot : 0 < slots holders h.pointers p := slots_pos.mpr ⟨before, inBefore, intoP⟩
      have handle := Multiset.count_pos.mpr held
      rw [Multiset.count_add] at count
      have same : slots holders (fun o => (h o).pointers) p = slots holders h.pointers p := rfl
      have full := shared p owner cyclicP (by omega)
      exact absurd (plainP.symm.trans full) (by simp)
    have pointed : q ∈ (h p).pointers := pointed
    rw [other p different] at pointed
    exact ⟨inside, pointed, (header p).2.2.2.1 ▸ cyclicP, (header q).2.2.2.1 ▸ cyclicQ, (header p).2.2.1 ▸ plainP,
      (header q).2.2.1 ▸ plainQ⟩

/-- A fresh cell, held by its first handle. -/
theorem malloc (consistent : Consistent m holders handles) {cell : Address} (dead : (m.heap cell).state = .dead)
    (address : 1 < cell) (typeInfo : Address) (isCyclicType : Bool) (fieldLength : Nat) :
    Consistent (m.malloc cell typeInfo isCyclicType fieldLength) (insert cell holders) ({cell} + handles) := by
  have fresh : cell ∉ holders := fun member => by simp [(consistent.live cell).mpr member] at dead
  generalize made : m.malloc cell typeInfo isCyclicType fieldLength = m'
  have list : m'.suspectedObjectList = m.suspectedObjectList := by rw [← made, GcState.malloc]
  have atCell : m'.heap cell = (m.heap cell).allocate typeInfo isCyclicType fieldLength := by
    simp [← made, GcState.malloc]
  have other (o : Address) (different : o ≠ cell) : m'.heap o = m.heap o := by
    simp [← made, GcState.malloc, Heap.modify_apply, different]
  have emptyCell : (m'.heap cell).pointers = 0 := by
    rw [atCell, HeapObject.pointers, HeapObject.allocate]
    simp
  have different (o : Address) (member : o ∈ holders) : o ≠ cell := fun here => fresh (here ▸ member)
  have waitingSet : {o | (m'.heap o).state = .waitingForGc} = {o | (m.heap o).state = .waitingForGc} := by
    ext o
    by_cases here : o = cell
    · simp [here, atCell, HeapObject.allocate, dead]
    · simp [other o here]
  have inside {o : Address} (member : o ∈ insert cell holders) : o = cell ∨ o ∈ holders := Finset.mem_insert.mp member
  refine ⟨?_, fun o => ?_, fun o => ?_, ?_, ?_, fun o => ?_, by rw [list]; exact consistent.nodup, fun o => ?_,
    fun o alive async => ?_, fun o member cyclic two => ?_, fun o cycle => ?_, fun o member => ?_⟩
  · refine consistent.exact.insert_fresh fresh (fun o away => by rw [other o away]) ?_ (fun o away => by rw [other o away])
      emptyCell
    rw [atCell]
    rfl
  · by_cases here : o = cell
    · rw [here, atCell]
      exact iff_of_true rfl (Finset.mem_insert_self cell holders)
    · rw [other o here, consistent.live o, Finset.mem_insert, or_iff_right here]
  · by_cases here : o = cell
    · simp [here, atCell, HeapObject.allocate]
    · rw [other o here]
      exact consistent.idle o
  · rw [waitingSet]
    refine consistent.waiting.congr fun o waits => other o fun here => ?_
    have waits : (m.heap o).state = .waitingForGc := waits
    rw [here, dead] at waits
    exact absurd waits (by simp)
  · rw [waitingSet]
    exact consistent.waitingFinite
  · by_cases here : o = cell
    · rw [here, atCell]
      exact consistent.unlocked cell
    · rw [other o here]
      exact consistent.unlocked o
  · rw [list, consistent.listed o]
    by_cases here : o = cell
    · simp [here, atCell, HeapObject.allocate, dead]
    · rw [other o here]
  · by_cases here : o = cell
    · rw [here, atCell] at async
      exact absurd async (by simp [HeapObject.allocate])
    · rw [other o here] at alive async ⊢
      exact consistent.cyclic o alive async
  · rcases inside member with rfl | old
    · rw [atCell] at two
      exact absurd two (by simp [HeapObject.allocate])
    · rw [other o (different o old)] at cyclic two ⊢
      exact consistent.shared o old cyclic two
  · refine consistent.acyclic o (cycle_mono cycle fun p q edge _ _ => ?_)
    obtain ⟨member, pointed, cyclicP, cyclicQ, plainP, plainQ⟩ := edge
    have pointed : q ∈ (m'.heap p).pointers := pointed
    rcases inside member with rfl | old
    · rw [emptyCell] at pointed
      exact absurd pointed (Multiset.notMem_zero q)
    · rw [other p (different p old)] at pointed cyclicP plainP
      have target : q ∈ holders := consistent.exact.pointers_mem p old q pointed
      rw [other q (different q target)] at cyclicQ plainQ
      exact ⟨old, pointed, cyclicP, cyclicQ, plainP, plainQ⟩
  · rcases inside member with rfl | old
    · exact address
    · exact consistent.proper o old

/-- Between two operations no field is borrowed. -/
theorem field_whole (consistent : Consistent m holders handles) (owner : parent ∈ holders) (i : Nat) :
    (m.heap parent).field i ≠ 1 := by
  intro borrowed
  have nonnull : (m.heap parent).field i ≠ 0 := by simp [borrowed]
  have pointed : (m.heap parent).field i ∈ (m.heap parent).pointers :=
    HeapObject.mem_pointers.mpr ⟨HeapObject.field_mem nonnull, nonnull⟩
  exact Nat.ne_of_gt (consistent.proper _ (consistent.exact.pointers_mem parent owner _ pointed)) borrowed

/-- A field of a held object is exchanged at once: nothing is locked between
two operations. -/
theorem exchangeField_eq (consistent : Consistent m holders handles) (owner : parent ∈ holders) (word : Address) :
    exchangeField m.heap parent i word = some (m.heap.modify parent (·.setField i word), (m.heap parent).field i) := by
  rw [CatLa.exchangeField_eq, if_neg]
  exact not_or.mpr ⟨by simp [consistent.unlocked parent], consistent.field_whole owner i⟩

/-- The old word of a field is released. -/
theorem releaseOld_kept {old : Address} {h : Heap}
    (consistent : Consistent { m with heap := h } holders (wordRefs old + handles)) :
    ∃ m', Returns (fun fuel => CatLa.releaseOld fuel m h old) m' ∧ ∃ holders', Consistent m' holders' handles ∧
      Remains h holders holders' handles m'.heap := by
  by_cases null : old = 0
  · rw [wordRefs, if_pos null, zero_add] at consistent
    exact ⟨{ m with heap := h }, .of_eq (fun _ => if_neg (not_not.mpr null)), holders, consistent,
      Finset.Subset.refl _, fun _ _ => rfl, fun _ began _ => began⟩
  · rw [wordRefs, if_neg null] at consistent
    obtain ⟨h', run, holders', released, spared⟩ := returns_decrement_sustained consistent.exact fun o => (consistent.live o).mpr
    have next : Returns (fun fuel => (decrementReferenceCount fuel h old).map fun heap => { m with heap := heap })
        { m with heap := h' } := run.map _
    exact ⟨_, next.congr fun fuel => if_pos null, holders', consistent.released released,
      released.evolves.shrink, fun o member => (released.evolves.kept o member).1, spared⟩

theorem wordRefs_proper (consistent : Consistent m holders handles) (member : x ∈ handles) : wordRefs x = {x} := by
  exact if_neg (Nat.ne_zero_of_lt (consistent.proper x (consistent.exact.refs_mem x member)))

theorem setCloneObjectField_kept (consistent : Consistent m holders handles) (held : parent ∈ handles) (member : x ∈ handles)
    (bound : i < (m.heap parent).fields.length) :
    ∃ m', Returns (fun fuel => CatLa.setCloneObjectField fuel m parent i x) m' ∧
      ∃ holders', Consistent m' holders' handles ∧
        Remains ((incrementReferenceCount m x).heap.modify parent (·.setField i x)) holders holders' handles m'.heap := by
  have child := consistent.exact.refs_mem x member
  have owner := consistent.exact.refs_mem parent held
  have cloned := consistent.increment child
  rw [← consistent.wordRefs_proper member] at cloned
  rw [← (incrementReferenceCount_fields m x parent).1] at bound
  obtain ⟨m', run, kept⟩ := (cloned.store held bound).releaseOld_kept
  refine ⟨m', run.congr fun fuel => ?_, kept⟩
  rw [CatLa.setCloneObjectField, cloned.exchangeField_eq owner x, Option.bind_some]

theorem setCloneObjectField (consistent : Consistent m holders handles) (held : parent ∈ handles) (member : x ∈ handles)
    (bound : i < (m.heap parent).fields.length) :
    ∃ m', Returns (fun fuel => CatLa.setCloneObjectField fuel m parent i x) m' ∧
      ∃ holders', Consistent m' holders' handles := by
  obtain ⟨m', run, holders', consistent', _⟩ := consistent.setCloneObjectField_kept held member bound
  exact ⟨m', run, holders', consistent'⟩

theorem setMoveObjectField_kept {word : Address} (consistent : Consistent m holders (wordRefs word + handles))
    (held : parent ∈ handles) (bound : i < (m.heap parent).fields.length) :
    ∃ m', Returns (fun fuel => CatLa.setMoveObjectField fuel m parent i word) m' ∧
      ∃ holders', Consistent m' holders' handles ∧
        Remains (m.heap.modify parent (·.setField i word)) holders holders' handles m'.heap := by
  have owner := consistent.exact.refs_mem parent (Multiset.mem_add.mpr (Or.inr held))
  obtain ⟨m', run, kept⟩ := (consistent.store held bound).releaseOld_kept
  refine ⟨m', run.congr fun fuel => ?_, kept⟩
  rw [CatLa.setMoveObjectField, consistent.exchangeField_eq owner word, Option.bind_some]

theorem setMoveObjectField {word : Address} (consistent : Consistent m holders (wordRefs word + handles)) (held : parent ∈ handles)
    (bound : i < (m.heap parent).fields.length) :
    ∃ m', Returns (fun fuel => CatLa.setMoveObjectField fuel m parent i word) m' ∧
      ∃ holders', Consistent m' holders' handles := by
  obtain ⟨m', run, holders', consistent', _⟩ := consistent.setMoveObjectField_kept held bound
  exact ⟨m', run, holders', consistent'⟩

theorem getMoveObjectField (consistent : Consistent m holders handles) (held : parent ∈ handles)
    (bound : i < (m.heap parent).fields.length) :
    ∃ m', CatLa.getMoveObjectField m parent i = some (m', (m.heap parent).field i) ∧
      Consistent m' holders (wordRefs ((m.heap parent).field i) + handles) := by
  have owner := consistent.exact.refs_mem parent held
  have nothing : wordRefs 0 + handles = handles := zero_add handles
  refine ⟨{ m with heap := m.heap.modify parent (·.setField i 0) }, ?_, (nothing ▸ consistent).store held bound⟩
  rw [CatLa.getMoveObjectField, consistent.exchangeField_eq owner 0, Option.map_some]

theorem getCloneObjectField (consistent : Consistent m holders handles) (held : parent ∈ handles) :
    ∃ m', CatLa.getCloneObjectField m parent i = some (m', (m.heap parent).field i) ∧
      Consistent m' holders (wordRefs ((m.heap parent).field i) + handles) := by
  have owner := consistent.exact.refs_mem parent held
  rw [getCloneObjectField_eq, if_neg (not_or.mpr ⟨by simp [consistent.unlocked parent], consistent.field_whole owner i⟩)]
  by_cases null : (m.heap parent).field i = 0
  · refine ⟨m, by rw [if_pos null, null], ?_⟩
    rwa [wordRefs, if_pos null, zero_add]
  · have pointed : (m.heap parent).field i ∈ (m.heap parent).pointers :=
      HeapObject.mem_pointers.mpr ⟨HeapObject.field_mem null, null⟩
    refine ⟨incrementReferenceCount m ((m.heap parent).field i), if_neg null, ?_⟩
    rw [wordRefs, if_neg null]
    exact consistent.increment (consistent.exact.pointers_mem parent owner _ pointed)

theorem dropReference_kept (consistent : Consistent m holders ({x} + handles)) :
    ∃ m', Returns (fun fuel => CatLa.dropReference fuel m x) m' ∧ ∃ holders', Consistent m' holders' handles ∧
      Remains m.heap holders holders' handles m'.heap := by
  obtain ⟨h', run, holders', released, spared⟩ := returns_decrement_sustained consistent.exact fun o => (consistent.live o).mpr
  exact ⟨_, run.map _, holders', consistent.released released, released.evolves.shrink,
    fun o member => (released.evolves.kept o member).1, spared⟩

theorem dropReference (consistent : Consistent m holders ({x} + handles)) :
    ∃ m', Returns (fun fuel => CatLa.dropReference fuel m x) m' ∧ ∃ holders', Consistent m' holders' handles := by
  obtain ⟨m', run, holders', consistent', _⟩ := consistent.dropReference_kept
  exact ⟨m', run, holders', consistent'⟩

end Consistent

end CatLa
