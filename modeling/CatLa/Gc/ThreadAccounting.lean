import CatLa.Gc.MutatorThreads
import CatLa.Gc.ReleaseSteps

namespace CatLa
open CountedGraph

namespace Control

/-- The references a thread holds besides its handles: the one an operation is
about to store, turn into a handle or drop, and those of a release. -/
def refs (h : Heap) : Control → Multiset Address
  | .idle => 0
  | .allocate .. => 0
  | .flag object _ => {object}
  | .list object _ => {object}
  | .store _ _ fieldObject => {fieldObject}
  | .decrement call => call.refs h

/-- The objects that only this thread touches: a cell it allocates, and what
it is releasing. -/
def objects : Control → List Address
  | .allocate cell _ _ _ => [cell]
  | .decrement call => call.objects
  | _ => []

/-- The field that an increment is made for belongs to a held object. -/
def Targets (h : Heap) (handles : Multiset Address) : Option (Address × Nat) → Prop
  | none => True
  | some (parent, i) => parent ∈ handles ∧ i < (h parent).fields.length

def Sound (h : Heap) (handles : Multiset Address) : Control → Prop
  | .allocate cell _ _ _ => 1 < cell
  | .flag _ target => Targets h handles target
  | .list _ target => Targets h handles target
  | .store parent i _ => Targets h handles (some (parent, i))
  | .decrement call => call.Sound h
  | _ => True

variable {h h' : Heap} {handles handles' : Multiset Address} {control : Control}

theorem Targets.congr {target : Option (Address × Nat)} (targets : Targets h handles target)
    (kept : ∀ o ∈ handles, o ∈ handles' ∧ (h' o).fields.length = (h o).fields.length) : Targets h' handles' target := by
  rcases target with _ | ⟨parent, i⟩
  · trivial
  · obtain ⟨member, length⟩ := kept parent targets.1
    exact ⟨member, length ▸ targets.2⟩

end Control

theorem Control.refs_congr {h h' : Heap} {handles : Multiset Address} {control : Control}
    (sound : control.Sound h handles) (same : ∀ o ∈ control.objects, h' o = h o) : control.refs h' = control.refs h := by
  cases control with
  | decrement call => exact DropControl.refs_congr sound same
  | _ => rfl

theorem Control.Sound.congr {h h' : Heap} {handles handles' : Multiset Address} {control : Control}
    (sound : control.Sound h handles)
    (kept : ∀ o ∈ handles, o ∈ handles' ∧ (h' o).fields.length = (h o).fields.length)
    (same : ∀ o ∈ control.objects, h' o = h o) : control.Sound h' handles' := by
  cases control with
  | flag object target => exact Targets.congr sound kept
  | list object target => exact Targets.congr sound kept
  | store parent i fieldObject =>
    have targets : Targets h handles (some (parent, i)) := sound
    exact targets.congr kept
  | allocate => exact sound
  | decrement => exact DropControl.Sound.congr sound same
  | _ => trivial

/-- What `exchangeField` found and did, when it got through. -/
theorem exchangeField_some {h h' : Heap} {parent word old : Address} {i : Nat}
    (run : exchangeField h parent i word = some (h', old)) :
    (h parent).lockFlag = false ∧ h' = h.modify parent (·.setField i word) ∧ old = (h parent).field i := by
  rw [exchangeField_eq] at run
  by_cases closed : (h parent).lockFlag = true ∨ (h parent).field i = 1
  · rw [if_pos closed] at run
    exact absurd run (by simp)
  · rw [if_neg closed, Option.some.injEq, Prod.mk.injEq] at run
    exact ⟨Bool.eq_false_of_not_eq_true fun locked => closed (Or.inl locked), run.1.symm, run.2.symm⟩

/-- The memory as one thread sees it; `rest` are the references of the other
threads. -/
structure ThreadView (holders : Finset Address) (h : Heap) (t : Thread) (rest : Multiset Address) : Prop where
  cascade : Cascade holders h t.control.objects (t.handles + t.control.refs h) rest
  proper : ∀ o ∈ holders, 1 < o
  sound : t.control.Sound h t.handles

/-- What a step of a thread does to the memory, seen from outside. A count
rises only for an object that a handle or an unlocked object refers to, and a
live object that is no longer counted is in the hands of the thread. -/
structure ThreadChange (holders : Finset Address) (h : Heap) (t : Thread) (rest : Multiset Address)
    (holders' : Finset Address) (h' : Heap) (t' : Thread) : Prop where
  view : ThreadView holders' h' t' rest
  settled : ∀ o, o ∉ holders → o ∉ t.control.objects → (h o).state ≠ .dead → h' o = h o
  origin : ∀ o ∈ t'.control.objects, o ∈ t.control.objects ∨ o ∈ holders ∨ (h o).state = .dead
  newcomers : ∀ o ∈ holders', o ∈ holders ∨ o ∈ t.control.objects
  leaves : ∀ o ∈ holders, o ∉ holders' → (h o).count = 1 ∧ o ∈ t.handles + t.control.refs h
  kept : ∀ o ∈ holders, o ∈ holders' → (h' o).state = (h o).state ∧ (h' o).lockFlag = (h o).lockFlag ∧
    (h' o).fields.length = (h o).fields.length ∧ ((h o).lockFlag = true → (h' o).fields = (h o).fields)
  rises : ∀ o ∈ holders, o ∈ holders' → (h o).count < (h' o).count →
    o ∈ t.handles ∨ ∃ p ∈ holders, (h p).lockFlag = false ∧ o ∈ (h p).pointers
  keeps : ∀ o, o ∈ t.control.objects ∨ o ∈ holders → o ∉ holders' → (h' o).state = .live → o ∈ t'.control.objects
  born : ∀ o, o ∉ holders → o ∉ t.control.objects → (h o).state = .dead → (h' o).state = .live → o ∈ t'.control.objects

namespace ThreadView
variable {holders : Finset Address} {h h' : Heap} {t t' : Thread} {rest : Multiset Address} {x : Address}

theorem mem_holders (view : ThreadView holders h t rest) (held : x ∈ t.handles) : x ∈ holders :=
  view.cascade.exact.refs_mem x (Multiset.mem_add.mpr (Or.inl (Multiset.mem_add.mpr (Or.inl held))))

/-- A step that changes at most counts and flags. -/
theorem counting (view : ThreadView holders h t rest)
    (header : ∀ o, h' o = { h o with count := (h' o).count, asyncRelease := (h' o).asyncRelease })
    (outside : ∀ o, o ∉ holders → h' o = h o)
    (exact : Exact holders h' (t'.handles + t'.control.refs h' + rest))
    (objects : t'.control.objects = t.control.objects) (sound : t'.control.Sound h t'.handles)
    (rises : ∀ o ∈ holders, (h o).count < (h' o).count →
      o ∈ t.handles ∨ ∃ p ∈ holders, (h p).lockFlag = false ∧ o ∈ (h p).pointers) :
    ThreadChange holders h t rest holders h' t' where
  view := by
    refine ⟨⟨exact, fun o member => ?_, objects ▸ view.cascade.nodup, fun o member => ?_⟩, view.proper, ?_⟩
    · rw [header o]
      exact view.cascade.alive o member
    · rw [header o]
      exact view.cascade.apart o (objects ▸ member)
    · refine sound.congr (fun o held => ⟨held, by rw [header o]⟩) fun o member => ?_
      exact outside o (view.cascade.apart o (objects ▸ member)).1
  settled o notHolder _ _ := outside o notHolder
  origin o member := Or.inl (objects ▸ member)
  newcomers o member := Or.inl member
  leaves o member gone := absurd member gone
  kept o _ _ := by
    rw [header o]
    exact ⟨rfl, rfl, rfl, fun _ => rfl⟩
  rises o member _ := rises o member
  keeps o member outside _ := objects.symm ▸ member.resolve_right outside
  born o notHolder _ dead live := by
    rw [outside o notHolder, dead] at live
    exact absurd live (by simp)

/-- A step that changes nothing in the memory. -/
theorem relabel (view : ThreadView holders h t rest)
    (same : t'.handles + t'.control.refs h = t.handles + t.control.refs h)
    (objects : t'.control.objects = t.control.objects) (sound : t'.control.Sound h t'.handles) :
    ThreadChange holders h t rest holders h t' :=
  view.counting (fun _ => rfl) (fun _ _ => rfl) (same ▸ view.cascade.exact) objects sound fun _ _ more =>
    absurd more (Nat.lt_irrefl _)

/-- A step that takes one more reference to `x`. -/
theorem acquire (view : ThreadView holders h t rest) (member : x ∈ holders)
    (seen : x ∈ t.handles ∨ ∃ p ∈ holders, (h p).lockFlag = false ∧ x ∈ (h p).pointers) {flag : Bool}
    (refs : t'.handles + t'.control.refs (h.modify x fun o => { o with count := o.count + 1, asyncRelease := flag }) =
      {x} + (t.handles + t.control.refs h))
    (objects : t'.control.objects = t.control.objects) (sound : t'.control.Sound h t'.handles) :
    ThreadChange holders h t rest holders (h.modify x fun o => { o with count := o.count + 1, asyncRelease := flag }) t' := by
  refine view.counting (fun o => ?_) (fun o outside => ?_) ?_ objects sound fun o _ more => ?_
  · rw [Heap.modify_apply]
    split <;> rfl
  · exact Heap.modify_of_ne _ _ fun here : o = x => outside (here ▸ member)
  · rw [refs, add_assoc]
    refine (view.cascade.exact.acquire member).congr (fun o _ => ?_) fun o _ => ?_
    · by_cases here : o = x
      · rw [here, Heap.modify_self, Function.update_self]
      · rw [Heap.modify_of_ne _ _ here, Function.update_of_ne here]
    · rw [Heap.modify_apply]
      split <;> rfl
  · by_cases here : o = x
    · exact here ▸ seen
    · rw [Heap.modify_of_ne _ _ here] at more
      exact absurd more (Nat.lt_irrefl _)

/-- A step inside a release. -/
theorem release (view : ThreadView holders h t rest) {holders' : Finset Address} {objects : List Address}
    {refs : Multiset Address}
    (step : CascadeStep holders h t.control.objects [] (t.control.refs h) (t.handles + rest) holders' h' objects refs)
    (handles : t'.handles = t.handles) (sameObjects : t'.control.objects = objects) (sameRefs : t'.control.refs h' = refs)
    (sound : t'.control.Sound h' t'.handles) : ThreadChange holders h t rest holders' h' t' := by
  have after := step.after
  rw [List.append_nil] at after
  have exact : Exact holders' h' (t'.handles + t'.control.refs h' + rest) := by
    rw [handles, sameRefs, add_assoc, add_left_comm]
    exact after.exact
  refine ⟨⟨⟨exact, after.alive, sameObjects ▸ after.nodup, sameObjects ▸ after.apart⟩, fun o member => ?_, sound⟩,
    fun o outside notOwned _ => step.evolves.settled o outside notOwned, fun o member => ?_, fun o member => ?_,
    fun o member gone => ?_, fun o _ stays => ?_, fun o _ stays more => ?_, fun o member gone live => ?_,
    fun o outside notOwned dead live => ?_⟩
  · exact view.proper o (step.evolves.shrink member)
  · exact (step.origin o (sameObjects ▸ member)).imp_right Or.inl
  · exact Or.inl (step.evolves.shrink member)
  · obtain ⟨last, referred⟩ := step.leaves o member gone
    exact ⟨last, Multiset.mem_add.mpr (Or.inr referred)⟩
  · obtain ⟨same, _⟩ := step.evolves.kept o stays
    rw [same]
    exact ⟨rfl, rfl, rfl, fun _ => rfl⟩
  · exact absurd more (Nat.not_lt.mpr (step.evolves.kept o stays).2)
  · exact sameObjects.symm ▸ step.keeps o member gone live
  · rw [step.evolves.settled o outside notOwned, dead] at live
    exact absurd live (by simp)

/-- A field of an unlocked object is exchanged under its lock: the thread takes
over the old word and gives the new one away. -/
theorem exchange (view : ThreadView holders h t rest) {parent word old : Address} {i : Nat}
    (owner : parent ∈ holders) (bound : i < (h parent).fields.length)
    (run : exchangeField h parent i word = some (h', old))
    (refs : t'.handles + t'.control.refs h' + wordRefs word = t.handles + t.control.refs h + wordRefs old)
    (before : t.control.objects = []) (empty : t'.control.objects = []) (sound : t'.control.Sound h t'.handles) :
    ThreadChange holders h t rest holders h' t' := by
  obtain ⟨free, shape, oldWord⟩ := exchangeField_some run
  have atParent : h' parent = (h parent).setField i word := by rw [shape, Heap.modify_self]
  have other (o : Address) (different : o ≠ parent) : h' o = h o := by rw [shape, Heap.modify_of_ne _ _ different]
  have header (o : Address) : h' o = { h o with fields := (h' o).fields } := by
    by_cases here : o = parent
    · rw [here, atParent]
      rfl
    · rw [other o here]
  have length (o : Address) : (h' o).fields.length = (h o).fields.length := by
    by_cases here : o = parent
    · rw [here, atParent, HeapObject.setField_length]
    · rw [other o here]
  have balance : (h' parent).pointers + (t'.handles + t'.control.refs h' + rest) =
      (h parent).pointers + (t.handles + t.control.refs h + rest) := by
    have fieldBalance := HeapObject.pointers_setField bound word
    rw [← oldWord, ← atParent] at fieldBalance
    refine add_right_cancel (b := wordRefs word + wordRefs old) ?_
    calc (h' parent).pointers + (t'.handles + t'.control.refs h' + rest) + (wordRefs word + wordRefs old)
        = ((h' parent).pointers + wordRefs old) + (t'.handles + t'.control.refs h' + wordRefs word) + rest := by abel
      _ = ((h parent).pointers + wordRefs word) + (t.handles + t.control.refs h + wordRefs old) + rest := by
        rw [fieldBalance, refs]
      _ = (h parent).pointers + (t.handles + t.control.refs h + rest) + (wordRefs word + wordRefs old) := by abel
  have exact : Exact holders h' (t'.handles + t'.control.refs h' + rest) := by
    refine (view.cascade.exact.exchange owner (fun o different => ?_) balance).congr (fun o _ => ?_) fun _ _ => rfl
    · rw [other o different]
    · rw [header o]
  refine ⟨⟨⟨exact, fun o member => ?_, ?_, fun o member => ?_⟩, view.proper, ?_⟩, fun o outside _ _ => ?_,
    fun o member => ?_, fun o member => Or.inl member, fun o member gone => absurd member gone, fun o _ _ => ?_,
    fun o _ _ more => ?_, fun o member gone _ => ?_, fun o _ _ dead live => ?_⟩
  · rw [header o]
    exact view.cascade.alive o member
  · rw [empty]
    exact List.nodup_nil
  · rw [empty] at member
    exact absurd member List.not_mem_nil
  · exact sound.congr (fun o held => ⟨held, length o⟩) fun o member => absurd member (empty ▸ List.not_mem_nil)
  · exact other o fun here => outside (here ▸ owner)
  · rw [empty] at member
    exact absurd member List.not_mem_nil
  · refine ⟨by rw [header o], by rw [header o], length o, fun locked => ?_⟩
    rw [other o fun here => ?_]
    rw [here, free] at locked
    exact absurd locked (by simp)
  · rw [header o] at more
    exact absurd more (Nat.lt_irrefl _)
  · exact absurd (member.resolve_right gone) (before ▸ List.not_mem_nil)
  · rw [header o] at live
    exact absurd (dead.symm.trans live) (by simp)

/-- A dead cell is taken; nobody counts it yet. -/
theorem claim (view : ThreadView holders h t rest) {cell : Address} (dead : (h cell).state = .dead)
    (handles : t'.handles = t.handles) (noRefs : t.control.refs h = 0)
    (noRefs' : t'.control.refs (h.modify cell (·.setState .live)) = 0) (before : t.control.objects = [])
    (objects : t'.control.objects = [cell]) (sound : t'.control.Sound (h.modify cell (·.setState .live)) t'.handles) :
    ThreadChange holders h t rest holders (h.modify cell (·.setState .live)) t' := by
  have outside : cell ∉ holders := fun member => view.cascade.alive cell member dead
  have other (o : Address) (member : o ∈ holders) : h.modify cell (·.setState .live) o = h o :=
    Heap.modify_of_ne _ _ fun here : o = cell => outside (here ▸ member)
  refine ⟨⟨⟨?_, fun o member => ?_, ?_, fun o member => ?_⟩, view.proper, sound⟩, fun o _ _ alive => ?_,
    fun o member => ?_, fun o member => Or.inl member, fun o member gone => absurd member gone,
    fun o member _ => ?_, fun o member _ more => ?_, fun o member gone _ => ?_, fun o _ _ deadO live => ?_⟩
  · have exact := view.cascade.exact.modify_outside outside (·.setState .live)
    rwa [noRefs, ← handles, ← noRefs'] at exact
  · rw [other o member]
    exact view.cascade.alive o member
  · rw [objects]
    exact List.nodup_singleton cell
  · rw [objects, List.mem_singleton] at member
    rw [member, Heap.modify_self]
    exact ⟨outside, by simp [HeapObject.setState]⟩
  · exact Heap.modify_of_ne _ _ fun here : o = cell => alive (here ▸ dead)
  · rw [objects, List.mem_singleton] at member
    exact Or.inr (Or.inr (member ▸ dead))
  · rw [other o member]
    exact ⟨rfl, rfl, rfl, fun _ => rfl⟩
  · rw [other o member] at more
    exact absurd more (Nat.lt_irrefl _)
  · exact absurd (member.resolve_right gone) (before ▸ List.not_mem_nil)
  · rw [objects, List.mem_singleton]
    by_contra different
    rw [Heap.modify_of_ne _ _ different, deadO] at live
    exact absurd live (by simp)

/-- The cell that was taken is filled in and becomes a handle. -/
theorem allocate (view : ThreadView holders h t rest) {cell typeInfo : Address} {isCyclicType : Bool} {fieldLength : Nat}
    (objects : t.control.objects = [cell]) (address : 1 < cell) (noRefs : t.control.refs h = 0)
    (handles : t'.handles = {cell} + t.handles) (idle : t'.control = .idle) :
    ThreadChange holders h t rest (insert cell holders)
      (h.modify cell (·.allocate typeInfo isCyclicType fieldLength)) t' := by
  have owned : cell ∈ t.control.objects := objects ▸ List.mem_singleton_self cell
  obtain ⟨outside, _⟩ := view.cascade.apart cell owned
  generalize allocated : h.modify cell (·.allocate typeInfo isCyclicType fieldLength) = h'
  have atCell : h' cell = (h cell).allocate typeInfo isCyclicType fieldLength := by rw [← allocated, Heap.modify_self]
  have other (o : Address) (different : o ≠ cell) : h' o = h o := by rw [← allocated, Heap.modify_of_ne _ _ different]
  have apart (o : Address) (member : o ∈ holders) : o ≠ cell := fun here => outside (here ▸ member)
  have exact := view.cascade.exact
  rw [noRefs, add_zero] at exact
  have fresh : Exact (insert cell holders) h' ({cell} + (t.handles + rest)) := by
    refine exact.insert_fresh outside (fun o different => ?_) ?_ (fun o different => ?_) ?_
    · rw [other o different]
    · rw [atCell]
      rfl
    · rw [other o different]
    · rw [atCell]
      simp [HeapObject.pointers, HeapObject.allocate]
  refine ⟨⟨⟨?_, fun o member => ?_, ?_, fun o member => ?_⟩, fun o member => ?_, ?_⟩, fun o _ notOwned _ => ?_,
    fun o member => ?_, fun o member => ?_, fun o member gone => ?_, fun o member _ => ?_, fun o member _ more => ?_,
    fun o member gone _ => ?_, fun o _ notOwned dead live => ?_⟩
  · rw [handles, idle, Control.refs, add_zero, add_assoc]
    exact fresh
  · rcases Finset.mem_insert.mp member with rfl | old
    · rw [atCell]
      simp [HeapObject.allocate]
    · rw [other o (apart o old)]
      exact view.cascade.alive o old
  · rw [idle]
    exact List.nodup_nil
  · rw [idle] at member
    exact absurd member List.not_mem_nil
  · rcases Finset.mem_insert.mp member with rfl | old
    · exact address
    · exact view.proper o old
  · rw [idle]
    trivial
  · exact other o fun here => notOwned (here ▸ owned)
  · rw [idle] at member
    exact absurd member List.not_mem_nil
  · rcases Finset.mem_insert.mp member with rfl | old
    · exact Or.inr owned
    · exact Or.inl old
  · exact absurd (Finset.mem_insert_of_mem member) gone
  · rw [other o (apart o member)]
    exact ⟨rfl, rfl, rfl, fun _ => rfl⟩
  · rw [other o (apart o member)] at more
    exact absurd more (Nat.lt_irrefl _)
  · rcases member with owned | holder
    · rw [objects, List.mem_singleton] at owned
      exact absurd (owned ▸ Finset.mem_insert_self cell holders) gone
    · exact absurd (Finset.mem_insert_of_mem holder) gone
  · rw [other o fun here => notOwned (here ▸ owned), dead] at live
    exact absurd live (by simp)

/-- A release, with the handles of the thread among the other references. -/
theorem releasing (view : ThreadView holders h t rest) :
    Cascade holders h (t.control.objects ++ []) (t.control.refs h) (t.handles + rest) := by
  refine ⟨?_, view.cascade.alive, ?_, ?_⟩
  · rw [add_left_comm, ← add_assoc]
    exact view.cascade.exact
  · rw [List.append_nil]
    exact view.cascade.nodup
  · rw [List.append_nil]
    exact view.cascade.apart

end ThreadView

namespace Control

theorem incremented_spec {object : Address} {target : Option (Address × Nat)} {gained : Multiset Address}
    {control : Control} (run : incremented object target = (gained, control)) :
    (∀ h, gained + control.refs h = {object}) ∧ control.objects = [] ∧
      ∀ h handles, Targets h handles target → control.Sound h handles := by
  rcases target with _ | ⟨parent, i⟩ <;> obtain ⟨rfl, rfl⟩ := Prod.mk.inj run
  · exact ⟨fun h => add_zero _, rfl, fun h handles _ => trivial⟩
  · exact ⟨fun h => zero_add _, rfl, fun h handles targets => targets⟩

theorem refs_releaseOld (h : Heap) (old : Address) : (releaseOld old).refs h = wordRefs old := by
  unfold releaseOld wordRefs
  split <;> rfl

theorem releaseOld_quiet (old : Address) (h : Heap) (handles : Multiset Address) :
    (releaseOld old).objects = [] ∧ (releaseOld old).Sound h handles := by
  unfold releaseOld
  split <;> exact ⟨rfl, trivial⟩

end Control

theorem fetchAddStep_spec {m m' : GcState} {object : Address} {target : Option (Address × Nat)}
    {gained : Multiset Address} {control : Control} (run : fetchAddStep m object target = (m', gained, control)) :
    m' = { m with heap := m.heap.modify object .fetchAdd } ∧ (∀ h, gained + control.refs h = {object}) ∧
      control.objects = [] ∧ ∀ h handles, Control.Targets h handles target → control.Sound h handles := by
  obtain ⟨memory, rest⟩ := Prod.mk.inj run
  refine ⟨memory.symm, ?_⟩
  by_cases first : (m.heap object).count = 1 ∧ (m.heap object).isCyclicType = true
  · rw [if_pos first] at rest
    obtain ⟨rfl, rfl⟩ := Prod.mk.inj rest
    exact ⟨fun h => zero_add _, rfl, fun h handles targets => targets⟩
  · rw [if_neg first] at rest
    exact Control.incremented_spec rest

namespace ThreadView
variable {holders : Finset Address} {m m' : GcState} {handles gained rest : Multiset Address} {control control' : Control}
  {object parent word old : Address} {i : Nat} {target : Option (Address × Nat)}

theorem null_or_proper {h : Heap} {t : Thread} (view : ThreadView holders h t rest) (held : word ∈ holders) :
    wordRefs word = {word} := if_neg (Nat.ne_zero_of_lt (view.proper word held))

/-- An increment that a held object or an unlocked parent allows. -/
theorem fetchAdd (view : ThreadView holders m.heap ⟨handles, .idle⟩ rest) (member : object ∈ holders)
    (seen : object ∈ handles ∨ ∃ p ∈ holders, (m.heap p).lockFlag = false ∧ object ∈ (m.heap p).pointers)
    (targets : Control.Targets m.heap handles target)
    (run : fetchAddStep m object target = (m', gained, control)) :
    ThreadChange holders m.heap ⟨handles, .idle⟩ rest holders m'.heap ⟨gained + handles, control⟩ := by
  obtain ⟨rfl, refs, objects, sound⟩ := fetchAddStep_spec run
  have total (h : Heap) : gained + handles + control.refs h = {object} + (handles + Control.refs m.heap .idle) := by
    rw [add_right_comm, refs h]
    exact congrArg _ (add_zero handles).symm
  refine view.acquire member seen (total _) objects (sound _ _ (targets.congr fun o held => ⟨?_, rfl⟩))
  exact Multiset.mem_add.mpr (Or.inr held)

/-- `get_clone_object_field` of an unlocked parent. -/
theorem getClone (view : ThreadView holders m.heap ⟨handles, .idle⟩ rest) (held : parent ∈ handles)
    (run : getCloneObjectField m parent i = some (m', word)) :
    ThreadChange holders m.heap ⟨handles, .idle⟩ rest holders m'.heap ⟨wordRefs word + handles, .idle⟩ := by
  rw [getCloneObjectField_eq] at run
  by_cases closed : (m.heap parent).lockFlag = true ∨ (m.heap parent).field i = 1
  · rw [if_pos closed] at run
    exact absurd run (by simp)
  · rw [if_neg closed] at run
    by_cases null : (m.heap parent).field i = 0
    · rw [if_pos null] at run
      obtain ⟨rfl, rfl⟩ := Prod.mk.inj (Option.some.inj run)
      exact view.relabel (congrArg (· + _) (zero_add handles)) rfl trivial
    · rw [if_neg null] at run
      obtain ⟨rfl, rfl⟩ := Prod.mk.inj (Option.some.inj run)
      have owner := view.mem_holders held
      have pointed : (m.heap parent).field i ∈ (m.heap parent).pointers :=
        HeapObject.mem_pointers.mpr ⟨HeapObject.field_mem null, null⟩
      have free := Bool.eq_false_of_not_eq_true fun locked => closed (Or.inl locked)
      have refs (h : Heap) : wordRefs ((m.heap parent).field i) + handles + Control.refs h .idle =
          {(m.heap parent).field i} + (handles + Control.refs m.heap .idle) := by
        rw [wordRefs, if_neg null, add_assoc]
        rfl
      rw [incrementReferenceCount_eq]
      split
      · exact view.acquire (view.cascade.exact.pointers_mem parent owner _ pointed) (Or.inr ⟨parent, owner, free, pointed⟩)
          (refs _) rfl trivial
      · exact view.acquire (view.cascade.exact.pointers_mem parent owner _ pointed) (Or.inr ⟨parent, owner, free, pointed⟩)
          (refs _) rfl trivial

/-- The last part of an increment. -/
theorem incremented (view : ThreadView holders m.heap ⟨handles, control⟩ rest)
    (refs : control.refs m.heap = {object}) (objects : control.objects = []) (targets : Control.Targets m.heap handles target) (run : Control.incremented object target = (gained, control')) :
    ThreadChange holders m.heap ⟨handles, control⟩ rest holders m.heap ⟨gained + handles, control'⟩ := by
  obtain ⟨refs', objects', sound⟩ := Control.incremented_spec run
  refine view.relabel ?_ (objects'.trans objects.symm) ?_
  · dsimp only
    rw [add_right_comm, refs', refs, add_comm]
  · exact sound _ _ (targets.congr fun o held => ⟨Multiset.mem_add.mpr (Or.inr held), rfl⟩)

theorem raiseFlag {h : Heap} (view : ThreadView holders h ⟨handles, .flag object target⟩ rest) :
    ThreadChange holders h ⟨handles, .flag object target⟩ rest holders
      (h.modify object fun o => { o with asyncRelease := true }) ⟨handles, .list object target⟩ := by
  have member : object ∈ holders := view.releasing.exact.refs_mem object (by simp [Control.refs])
  generalize raised : h.modify object (fun o => { o with asyncRelease := true }) = h'
  have other (o : Address) (different : o ≠ object) : h' o = h o := by rw [← raised, Heap.modify_of_ne _ _ different]
  have header (o : Address) : h' o = { h o with asyncRelease := (h' o).asyncRelease } := by
    rw [← raised, Heap.modify_apply]
    split <;> rfl
  refine view.counting (fun o => ?_) (fun o outside => other o fun here => outside (here ▸ member)) ?_ rfl view.sound
    fun o _ more => ?_
  · rw [header o]
  · exact view.cascade.exact.congr (fun o _ => by rw [header o]) fun o _ => by rw [header o]; rfl
  · rw [header o] at more
    exact absurd more (Nat.lt_irrefl _)

/-- One access of a thread inside an operation. -/
theorem advance (view : ThreadView holders m.heap ⟨handles, control⟩ rest)
    (run : control.advance m = some (m', gained, control')) :
    ∃ holders', ThreadChange holders m.heap ⟨handles, control⟩ rest holders' m'.heap ⟨gained + handles, control'⟩ := by
  have idle : (0 : Multiset Address) + handles = handles := zero_add handles
  cases control with
  | idle => exact absurd run (by simp [Control.advance])
  | allocate cell typeInfo isCyclicType fieldLength =>
    obtain ⟨rfl, rfl, rfl⟩ := by simpa [Control.advance] using run
    exact ⟨_, view.allocate rfl view.sound rfl rfl rfl⟩
  | flag object target =>
    have targets : Control.Targets m.heap handles target := view.sound
    by_cases plain : (m.heap object).asyncRelease = false
    · obtain ⟨rfl, rfl, rfl⟩ := by simpa [Control.advance, plain] using run
      rw [idle]
      exact ⟨holders, view.raiseFlag⟩
    · obtain ⟨rfl, next⟩ := by simpa [Control.advance, plain] using run
      exact ⟨holders, view.incremented rfl rfl targets next⟩
  | list object target =>
    obtain ⟨rfl, next⟩ := by simpa [Control.advance] using run
    exact ⟨holders, view.incremented rfl rfl view.sound next⟩
  | store parent i word =>
    obtain ⟨held, bound⟩ := view.sound
    obtain ⟨heap, old, exchanged, rfl, rfl, rfl⟩ := by simpa [Control.advance] using run
    have member : word ∈ holders := view.releasing.exact.refs_mem word (by simp [Control.refs])
    have quiet := Control.releaseOld_quiet old m.heap handles
    rw [idle]
    refine ⟨holders, view.exchange (view.mem_holders held) bound exchanged ?_ rfl quiet.1 quiet.2⟩
    dsimp only
    rw [Control.refs_releaseOld, view.null_or_proper member, Control.refs, add_right_comm]
  | decrement call =>
    obtain ⟨heap, left, advanced, rfl, rfl, rfl⟩ := by simpa [Control.advance] using run
    have step := DropControl.step view.sound view.releasing advanced
    have sound := DropControl.sound_step view.sound view.releasing advanced
    rw [idle]
    cases left with
    | idle => exact ⟨_, view.release step rfl rfl rfl trivial⟩
    | _ => exact ⟨_, view.release step rfl rfl rfl sound⟩

/-- One step of a thread. -/
theorem step {t t' : Thread} (view : ThreadView holders m.heap t rest) (step : ThreadStep m t m' t') :
    ∃ holders', ThreadChange holders m.heap t rest holders' m'.heap t' := by
  cases step with
  | malloc dead address typeInfo isCyclicType fieldLength =>
    exact ⟨holders, view.claim dead rfl rfl rfl rfl rfl address⟩
  | @increment _ handles _ _ _ held run =>
    have targets : Control.Targets m.heap handles none := trivial
    exact ⟨holders, view.fetchAdd (view.mem_holders held) (Or.inl held) targets run⟩
  | drop =>
    refine ⟨holders, view.relabel ?_ rfl trivial⟩
    dsimp only [Control.refs, DropControl.refs]
    rw [add_zero, add_comm]
  | getClone held _ run => exact ⟨holders, view.getClone held run⟩
  | getMove held bound run =>
    obtain ⟨heap, exchanged, rfl⟩ := by simpa [getMoveObjectField] using run
    refine ⟨holders, view.exchange (view.mem_holders held) bound exchanged ?_ rfl rfl trivial⟩
    have nothing : wordRefs 0 = 0 := rfl
    dsimp only [Control.refs]
    rw [nothing, add_zero, add_zero, add_zero, add_comm]
  | setMove held bound exchanged =>
    have owner := view.mem_holders (Multiset.mem_add.mpr (Or.inr held))
    have quiet (old : Address) := Control.releaseOld_quiet old m.heap (wordRefs old)
    refine ⟨holders, view.exchange owner bound exchanged ?_ rfl (quiet _).1 (Control.releaseOld_quiet _ _ _).2⟩
    have idle : Control.refs m.heap .idle = 0 := rfl
    dsimp only
    rw [Control.refs_releaseOld, idle, add_zero]
    abel
  | @setClone _ _ _ parent object i _ held childHeld bound run =>
    have targets : Control.Targets m.heap _ (some (parent, i)) := ⟨held, bound⟩
    exact ⟨holders, view.fetchAdd (view.mem_holders childHeld) (Or.inl childHeld) targets run⟩
  | advance run => exact view.advance run

end ThreadView

end CatLa
