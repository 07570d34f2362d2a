import Mathlib.Logic.Relation
import Mathlib.Tactic.Abel
import Mathlib.Data.Finset.Card
import CatLa.Gc.HeapAccounting
import CatLa.Gc.ReferenceCount

namespace CatLa
open FuelLoop Relation

/-- Objects handed to the collector: nothing counts a reference to them, their
remaining pointers stay among them, and each is below a suspected one, which
none of them points to. -/
structure WaitingTree (h : Heap) (tree : Set Address) : Prop where
  state : ∀ o ∈ tree, (h o).state = .waitingForGc
  count : ∀ o ∈ tree, (h o).count = 0
  closed : ∀ o ∈ tree, ∀ w ∈ (h o).pointers, w ∈ tree
  rooted : ∀ o ∈ tree, ∃ r ∈ tree, (h r).Suspected ∧
    ReflTransGen (fun p q => p ∈ tree ∧ q ∈ (h p).pointers) r o
  unpointed : ∀ r ∈ tree, (h r).Suspected → ∀ p ∈ tree, r ∉ (h p).pointers

theorem WaitingTree.empty (h : Heap) : WaitingTree h ∅ :=
  ⟨fun _ member => member.elim, fun _ member => member.elim, fun _ member => member.elim,
    fun _ member => member.elim, fun _ member => member.elim⟩

theorem WaitingTree.congr {h h' : Heap} {tree : Set Address} (waiting : WaitingTree h tree)
    (same : ∀ o ∈ tree, h' o = h o) : WaitingTree h' tree where
  state o member := by rw [same o member]; exact waiting.state o member
  count o member := by rw [same o member]; exact waiting.count o member
  closed o member := by rw [same o member]; exact waiting.closed o member
  rooted o member := by
    obtain ⟨r, inside, suspected, path⟩ := waiting.rooted o member
    refine ⟨r, inside, by rwa [same r inside], ReflTransGen.mono (fun p q edge => ?_) _ _ path⟩
    exact ⟨edge.1, by rw [same p edge.1]; exact edge.2⟩
  unpointed r member suspected p inside := by
    rw [same r member] at suspected
    rw [same p inside]
    exact waiting.unpointed r member suspected p inside

theorem WaitingTree.union {h : Heap} {left right : Set Address} (first : WaitingTree h left)
    (second : WaitingTree h right) : WaitingTree h (left ∪ right) where
  state o member := member.elim (first.state o) (second.state o)
  count o member := member.elim (first.count o) (second.count o)
  closed o member w pointed :=
    member.elim (fun inside => Or.inl (first.closed o inside w pointed))
      fun inside => Or.inr (second.closed o inside w pointed)
  rooted o member := by
    rcases member with inside | inside
    · obtain ⟨r, atR, suspected, path⟩ := first.rooted o inside
      exact ⟨r, Or.inl atR, suspected, ReflTransGen.mono (fun p q edge => ⟨Or.inl edge.1, edge.2⟩) _ _ path⟩
    · obtain ⟨r, atR, suspected, path⟩ := second.rooted o inside
      exact ⟨r, Or.inr atR, suspected, ReflTransGen.mono (fun p q edge => ⟨Or.inr edge.1, edge.2⟩) _ _ path⟩
  unpointed r _ suspected p member pointed :=
    member.elim (fun inside => first.unpointed r (first.closed p inside r pointed) suspected p inside pointed)
      fun inside => second.unpointed r (second.closed p inside r pointed) suspected p inside pointed

/-- A pointer that the deferred release has decided to keep. -/
def Keeps (holders : Finset Address) (released : List Address) (h : Heap) (p q : Address) : Prop :=
  p ∈ released ∧ q ∈ (h p).pointers ∧ q ∉ holders

/-- The batch of the deferred release of `root`, at any point of the inner
loop: `holders` are the objects still counted, `stack` those released but not
yet visited. -/
structure Batch (start : Finset Address) (before : Heap) (root : Address) (waitingRoots : List Address)
    (left : Nat) (holders : Finset Address) (stack : List Address) (s : WaitingLoop) : Prop where
  evolves : Evolves start holders [root] before s.heap
  live : ∀ o ∈ holders, (s.heap o).state = .live
  nodup : (stack ++ s.checkRoots).Nodup
  stacked : ∀ o ∈ stack ++ s.checkRoots, o ∉ holders ∧ o ∉ s.releaseObjects ∧
    (s.heap o).state = .live ∧ (s.heap o).count = 0
  suspected : ∀ o ∈ s.checkRoots, (s.heap o).Suspected
  plain : ∀ o, o ∈ s.releaseObjects ∨ o ∈ stack → o = root ∨ ¬(s.heap o).Suspected
  rootFree : ∀ o ∈ s.releaseObjects, root ∉ (s.heap o).pointers
  released : ∀ o ∈ s.releaseObjects, o ∉ holders ∧ (s.heap o).state = .processGc ∧ (s.heap o).count = 0
  gone : ∀ o ∈ start, o ∉ holders → o ∈ s.releaseObjects ∨ o ∈ stack ∨ o ∈ s.checkRoots
  origin : ∀ o, o ∈ s.releaseObjects ∨ o ∈ stack → o = root ∨ o ∈ start
  rootOrigin : ∀ o ∈ s.checkRoots, o ∈ waitingRoots ∨ o ∈ start
  keptRoots : ∀ o ∈ waitingRoots, o ∈ s.checkRoots
  rootIn : root ∈ s.releaseObjects ∨ root ∈ stack
  paths : ∀ o, o ∈ s.releaseObjects ∨ o ∈ stack → ReflTransGen (Keeps holders s.releaseObjects s.heap) root o
  budget : holders.card + stack.length + s.checkRoots.length ≤ left

theorem Batch.rootOutside {start : Finset Address} {before : Heap} {root : Address} {waitingRoots : List Address}
    {left : Nat} {holders : Finset Address} {stack : List Address} {s : WaitingLoop}
    (batch : Batch start before root waitingRoots left holders stack s) : root ∉ holders := by
  rcases batch.rootIn with released | stacked
  · exact (batch.released root released).1
  · exact (batch.stacked root (List.mem_append_left _ stacked)).1

/-- Between two objects of the inner loop. -/
structure BatchIdle (start : Finset Address) (before : Heap) (root : Address) (waitingRoots : List Address)
    (refs : Multiset Address) (left : Nat) (holders : Finset Address) (stack : List Address)
    (s : WaitingLoop) : Prop extends Batch start before root waitingRoots left holders stack s where
  exact : Exact holders s.heap (pendingPointers s.heap stack + (pendingPointers s.heap s.checkRoots + refs))
  closed : ∀ o ∈ s.releaseObjects, ∀ w ∈ (s.heap o).pointers, w ∈ s.releaseObjects ∨ w ∈ stack

/-- The pointers of one object that its release has passed. -/
def HeapObject.passed (o : HeapObject) (i : Nat) : Multiset Address := ↑((o.fields.take i).filter (· ≠ 0))

/-- Inside the loop over the fields of `current`, before field `i`. -/
structure BatchBusy (start : Finset Address) (before : Heap) (root : Address) (waitingRoots : List Address)
    (refs : Multiset Address) (left : Nat) (current : Address) (n i : Nat) (holders : Finset Address)
    (s : WaitingLoop) : Prop
    extends Batch start before root waitingRoots left holders s.checkObjects s where
  exact : Exact holders s.heap ((s.heap current).remaining i +
    (pendingPointers s.heap s.checkObjects + (pendingPointers s.heap s.checkRoots + refs)))
  visiting : current ∈ s.releaseObjects
  length : (s.heap current).fields.length = n
  passed : ∀ w ∈ (s.heap current).passed i, w ∈ s.releaseObjects ∨ w ∈ s.checkObjects
  closed : ∀ o ∈ s.releaseObjects, o ≠ current → ∀ w ∈ (s.heap o).pointers, w ∈ s.releaseObjects ∨ w ∈ s.checkObjects

theorem HeapObject.passed_end (o : HeapObject) : o.passed o.fields.length = o.pointers := by
  simp [passed, pointers]

theorem HeapObject.passed_succ {o : HeapObject} {i : Nat} {w : Address} (member : w ∈ o.passed (i + 1)) :
    w ∈ o.passed i ∨ w = o.field i ∧ w ≠ 0 := by
  simp only [passed, Multiset.mem_coe, List.mem_filter, decide_eq_true_eq] at member ⊢
  obtain ⟨member, nonnull⟩ := member
  rw [List.take_add_one, List.mem_append] at member
  rcases member with earlier | here
  · exact Or.inl ⟨earlier, nonnull⟩
  · right
    rw [Option.mem_toList] at here
    exact ⟨by rw [field, List.getD_eq_getElem?_getD, here]; rfl, nonnull⟩

theorem HeapObject.passed_clear {o : HeapObject} {i : Nat} {w : Address}
    (member : w ∈ (o.setField i 0).passed (i + 1)) : w ∈ o.passed i := by
  rcases passed_succ member with earlier | ⟨here, nonnull⟩
  · rw [passed, setField, List.take_set, List.set_eq_of_length_le (List.length_take_le ..)] at earlier
    exact earlier
  · refine absurd ?_ nonnull
    rw [here, field, setField, List.getD_eq_getElem?_getD, List.getElem?_set_self']
    cases o.fields[i]? <;> rfl

/-- The visit of an object begins: it joins the released ones. -/
theorem BatchIdle.visit {start : Finset Address} {before : Heap} {root : Address} {waitingRoots : List Address}
    {refs : Multiset Address} {left : Nat} {holders : Finset Address} {current : Address} {s : WaitingLoop}
    (idle : BatchIdle start before root waitingRoots refs left holders (current :: s.checkObjects) s) :
    BatchBusy start before root waitingRoots refs (left - 1) current (s.heap current).fields.length 0 holders
      { s with releaseObjects := current :: s.releaseObjects,
               heap := s.heap.modify current (·.setState .processGc) } := by
  have nodup := idle.nodup
  rw [List.cons_append, List.nodup_cons] at nodup
  obtain ⟨fresh, nodup⟩ := nodup
  obtain ⟨outside, unreleased, _, zero⟩ := idle.stacked current (by simp)
  have same (o : Address) (different : o ≠ current) : s.heap.modify current (·.setState .processGc) o = s.heap o :=
    s.heap.modify_of_ne _ different
  have apart (o : Address) (member : o ∈ s.checkObjects ++ s.checkRoots) : o ≠ current :=
    fun equal => fresh (equal ▸ member)
  have pointersSame (o : Address) :
      (s.heap.modify current (·.setState .processGc) o).pointers = (s.heap o).pointers := by
    by_cases here : o = current
    · subst here; rw [Heap.modify_self]; rfl
    · rw [same o here]
  refine { evolves := ?_, live := ?_, nodup := nodup, stacked := ?_, suspected := ?_, plain := ?_,
           rootFree := ?_, released := ?_, gone := ?_, origin := ?_, rootOrigin := idle.rootOrigin,
           keptRoots := idle.keptRoots, rootIn := ?_, paths := ?_, budget := ?_, exact := ?_, visiting := List.mem_cons_self, length := ?_, passed := ?_, closed := ?_ }
  · refine idle.evolves.trans (.setState outside .processGc) fun o member => ?_
    rw [List.mem_singleton.mp member, List.mem_singleton]
    exact idle.origin current (Or.inr List.mem_cons_self)
  · intro o member
    have different : o ≠ current := fun equal => outside (equal ▸ member)
    dsimp only
    rw [same o different]
    exact idle.live o member
  · intro o member
    obtain ⟨notHolder, notReleased, live, noCount⟩ := idle.stacked o (by simp at member ⊢; tauto)
    dsimp only
    rw [same o (apart o member)]
    exact ⟨notHolder, List.mem_cons.not.mpr (not_or.mpr ⟨apart o member, notReleased⟩), live, noCount⟩
  · intro o member
    dsimp only
    rw [same o (apart o (List.mem_append_right _ member))]
    exact idle.suspected o member
  · intro o member
    dsimp only
    rw [(Evolves.setState outside .processGc).suspected_iff]
    refine idle.plain o ?_
    simp only [List.mem_cons] at member ⊢
    tauto
  · intro o member
    dsimp only
    rw [pointersSame]
    rcases List.mem_cons.mp member with rfl | member
    · intro pointed
      refine idle.rootOutside (idle.exact.refs_mem root ?_)
      rw [pendingPointers_cons]
      exact Multiset.mem_add.mpr (Or.inl (Multiset.mem_add.mpr (Or.inl pointed)))
    · exact idle.rootFree o member
  · intro o member
    dsimp only
    rcases List.mem_cons.mp member with rfl | member
    · rw [Heap.modify_self]
      exact ⟨outside, rfl, zero⟩
    · rw [same o fun equal => unreleased (equal ▸ member)]
      exact idle.released o member
  · intro o member notHolder
    have := idle.gone o member notHolder
    simp only [List.mem_cons] at this ⊢
    tauto
  · intro o member
    refine idle.origin o ?_
    simp only [List.mem_cons] at member ⊢
    tauto
  · have := idle.rootIn
    simp only [List.mem_cons] at this ⊢
    tauto
  · intro o member
    have path := idle.paths o (by simp only [List.mem_cons] at member ⊢; tauto)
    refine ReflTransGen.mono (fun p q edge => ?_) _ _ path
    exact ⟨List.mem_cons_of_mem _ edge.1, by rw [pointersSame p]; exact edge.2.1, edge.2.2⟩
  · have := idle.budget
    simp only [List.length_cons] at this
    dsimp only
    omega
  · have exact := idle.exact.modify_outside outside (·.setState .processGc)
    rw [pendingPointers_cons, add_assoc] at exact
    dsimp only
    rw [HeapObject.remaining_zero, pointersSame, pendingPointers_congr fun o _ => pointersSame o,
      pendingPointers_congr fun o _ => pointersSame o]
    exact exact
  · dsimp only
    rw [Heap.modify_self]
    rfl
  · intro w member
    simp [HeapObject.passed] at member
  · intro o member different w pointed
    have old := (List.mem_cons.mp member).resolve_left different
    have := idle.closed o old w (by rwa [← pointersSame o])
    simp only [List.mem_cons] at this ⊢
    tauto

/-- The released object that is being visited gives up some pointers: `new`
and `roots` lose their last reference by it and are pushed. -/
theorem Batch.push {start : Finset Address} {before : Heap} {root : Address} {waitingRoots : List Address}
    {left : Nat} {holders : Finset Address} {stack : List Address} {s : WaitingLoop}
    (batch : Batch start before root waitingRoots left holders stack s) {current : Address}
    {holders' : Finset Address} (h' : Heap) (new roots : List Address) (visiting : current ∈ s.releaseObjects)
    (inside : ∀ w ∈ new ++ roots, w ∈ holders) (distinct : (new ++ roots).Nodup)
    (leaves : ∀ o, o ∈ holders' ↔ o ∈ holders ∧ o ∉ new ∧ o ∉ roots)
    (evolves : Evolves holders holders' [current] s.heap h')
    (header : (h' current).state = .processGc ∧ (h' current).count = 0)
    (keeps : ∀ q, q ∉ holders → q ∈ (s.heap current).pointers → q ∈ (h' current).pointers)
    (pushed : ∀ w ∈ new ++ roots, (h' w).state = .live ∧ (h' w).count = 0)
    (pointed : ∀ w ∈ new, w ∈ (h' current).pointers) (plain : ∀ w ∈ new, ¬(h' w).Suspected)
    (suspected : ∀ w ∈ roots, (h' w).Suspected) :
    Batch start before root waitingRoots left holders' (new ++ stack)
      { s with heap := h', checkObjects := new ++ stack, checkRoots := roots ++ s.checkRoots } := by
  have outside : current ∉ holders := (batch.released current visiting).1
  have same (o : Address) (notHolder : o ∉ holders) (different : o ≠ current) : h' o = s.heap o :=
    evolves.settled o notHolder fun member => different (List.mem_singleton.mp member)
  have old (o : Address) (member : o ∈ stack ++ s.checkRoots) : o ∉ holders ∧ h' o = s.heap o := by
    obtain ⟨notHolder, unreleased, _, _⟩ := batch.stacked o member
    exact ⟨notHolder, same o notHolder fun equal => unreleased (equal ▸ visiting)⟩
  have card : holders'.card + new.length + roots.length = holders.card := by
    have difference : holders' = holders \ (new ++ roots).toFinset := by
      ext o
      simp [leaves o]
    have subset : (new ++ roots).toFinset ⊆ holders := fun w member => inside w (List.mem_toFinset.mp member)
    have size := List.toFinset_card_of_nodup distinct
    have split := Finset.card_sdiff_add_card_eq_card subset
    rw [List.length_append] at size
    rw [difference]
    omega
  have extend (p q : Address) (edge : Keeps holders s.releaseObjects s.heap p q) :
      Keeps holders' s.releaseObjects h' p q := by
    obtain ⟨atP, pointer, notHolder⟩ := edge
    refine ⟨atP, ?_, fun member => notHolder ((leaves q).mp member).1⟩
    by_cases here : p = current
    · subst here
      exact keeps q notHolder pointer
    · rwa [same p (batch.released p atP).1 here]
  refine { evolves := ?_, live := ?_, nodup := ?_, stacked := ?_, suspected := ?_, plain := ?_, rootFree := ?_,
           released := ?_, gone := ?_, origin := ?_, rootOrigin := ?_, keptRoots := fun o member => List.mem_append_right _ (batch.keptRoots o member),
           rootIn := batch.rootIn.imp_right (List.mem_append_right _), paths := ?_, budget := ?_ }
  · refine batch.evolves.trans evolves fun o member => ?_
    rw [List.mem_singleton.mp member, List.mem_singleton]
    exact batch.origin current (Or.inl visiting)
  · intro o member
    obtain ⟨keep, _⟩ := evolves.kept o member
    dsimp only
    rw [keep]
    exact batch.live o ((leaves o).mp member).1
  · have nodup := batch.nodup
    have apart (o : Address) (member : o ∈ new ++ roots) : o ∉ stack ++ s.checkRoots :=
      fun again => (old o again).1 (inside o member)
    simp only [List.nodup_append, List.mem_append] at nodup distinct apart ⊢
    grind
  · intro o member
    have cases : o ∈ new ++ roots ∨ o ∈ stack ++ s.checkRoots := by
      simp only [List.mem_append] at member ⊢
      tauto
    dsimp only
    rcases cases with fresh | earlier
    · refine ⟨fun holder => ?_, fun released => (batch.released o released).1 (inside o fresh), pushed o fresh⟩
      obtain ⟨_, notNew, notRoot⟩ := (leaves o).mp holder
      exact (List.mem_append.mp fresh).elim notNew notRoot
    · obtain ⟨notHolder, unreleased, live, zero⟩ := batch.stacked o earlier
      rw [(old o earlier).2]
      exact ⟨fun holder => notHolder ((leaves o).mp holder).1, unreleased, live, zero⟩
  · intro o member
    dsimp only
    rcases List.mem_append.mp member with fresh | earlier
    · exact suspected o fresh
    · rw [(old o (List.mem_append_right _ earlier)).2]
      exact batch.suspected o earlier
  · rintro o (released | member)
    · dsimp only
      rw [evolves.suspected_iff]
      exact batch.plain o (Or.inl released)
    · rcases List.mem_append.mp member with fresh | earlier
      · exact Or.inr (plain o fresh)
      · dsimp only
        rw [evolves.suspected_iff]
        exact batch.plain o (Or.inr earlier)
  · exact fun o member pointed => batch.rootFree o member (evolves.pointers_subset pointed)
  · intro o member
    obtain ⟨notHolder, state, zero⟩ := batch.released o member
    refine ⟨fun holder => notHolder ((leaves o).mp holder).1, ?_⟩
    dsimp only
    by_cases here : o = current
    · rw [here]
      exact header
    · rw [same o notHolder here]
      exact ⟨state, zero⟩
  · intro o inStart notHolder
    by_cases holder : o ∈ holders
    · have fresh : o ∈ new ∨ o ∈ roots := by
        by_contra none
        exact notHolder ((leaves o).mpr ⟨holder, not_or.mp none⟩)
      exact Or.inr (fresh.imp (List.mem_append_left _) (List.mem_append_left _))
    · exact (batch.gone o inStart holder).imp_right (Or.imp (List.mem_append_right _) (List.mem_append_right _))
  · rintro o (released | member)
    · exact batch.origin o (Or.inl released)
    · rcases List.mem_append.mp member with fresh | earlier
      · exact Or.inr (batch.evolves.shrink (inside o (List.mem_append_left _ fresh)))
      · exact batch.origin o (Or.inr earlier)
  · intro o member
    rcases List.mem_append.mp member with fresh | earlier
    · exact Or.inr (batch.evolves.shrink (inside o (List.mem_append_right _ fresh)))
    · exact batch.rootOrigin o earlier
  · intro o member
    have extended (o : Address) (known : o ∈ s.releaseObjects ∨ o ∈ stack) :
        ReflTransGen (Keeps holders' s.releaseObjects h') root o :=
      ReflTransGen.mono extend _ _ (batch.paths o known)
    rcases member with released | member
    · exact extended o (Or.inl released)
    · rcases List.mem_append.mp member with fresh | earlier
      · refine (extended current (Or.inl visiting)).tail ⟨visiting, pointed o fresh, fun holder => ?_⟩
        exact ((leaves o).mp holder).2.1 fresh
      · exact extended o (Or.inr earlier)
  · have := batch.budget
    simp only [List.length_append]
    omega

theorem BatchBusy.push {start : Finset Address} {before : Heap} {root : Address} {waitingRoots : List Address}
    {refs : Multiset Address} {left : Nat} {current : Address} {n i : Nat} {holders : Finset Address}
    {s : WaitingLoop} (busy : BatchBusy start before root waitingRoots refs left current n i holders s)
    {holders' : Finset Address} (h' : Heap) (new roots : List Address)
    (inside : ∀ w ∈ new ++ roots, w ∈ holders) (distinct : (new ++ roots).Nodup)
    (leaves : ∀ o, o ∈ holders' ↔ o ∈ holders ∧ o ∉ new ∧ o ∉ roots)
    (evolves : Evolves holders holders' [current] s.heap h')
    (header : (h' current).state = .processGc ∧ (h' current).count = 0)
    (keeps : ∀ q, q ∉ holders → q ∈ (s.heap current).pointers → q ∈ (h' current).pointers)
    (pushed : ∀ w ∈ new ++ roots, (h' w).state = .live ∧ (h' w).count = 0)
    (pointed : ∀ w ∈ new, w ∈ (h' current).pointers) (plain : ∀ w ∈ new, ¬(h' w).Suspected)
    (suspected : ∀ w ∈ roots, (h' w).Suspected)
    (exact : Exact holders' h' ((h' current).remaining (i + 1) +
      (pendingPointers h' (new ++ s.checkObjects) + (pendingPointers h' (roots ++ s.checkRoots) + refs))))
    (length : (h' current).fields.length = n)
    (passed : ∀ w ∈ (h' current).passed (i + 1), w ∈ (s.heap current).passed i ∨ w ∈ new) :
    BatchBusy start before root waitingRoots refs left current n (i + 1) holders'
      { s with heap := h', checkObjects := new ++ s.checkObjects, checkRoots := roots ++ s.checkRoots } where
  toBatch := busy.toBatch.push h' new roots busy.visiting inside distinct leaves evolves header keeps pushed pointed
    plain suspected
  exact := exact
  visiting := busy.visiting
  length := length
  passed w member := by
    rcases passed w member with earlier | fresh
    · exact (busy.passed w earlier).imp_right (List.mem_append_right _)
    · exact Or.inr (List.mem_append_left _ fresh)
  closed o released different w pointer := by
    have same : h' o = s.heap o := evolves.settled o (busy.released o released).1
      fun member => different (List.mem_singleton.mp member)
    dsimp only at pointer
    rw [same] at pointer
    exact (busy.closed o released different w pointer).imp_right (List.mem_append_right _)

theorem BatchBusy.apart {start : Finset Address} {before : Heap} {root : Address} {waitingRoots : List Address}
    {refs : Multiset Address} {left : Nat} {current : Address} {n i : Nat} {holders : Finset Address}
    {s : WaitingLoop} (busy : BatchBusy start before root waitingRoots refs left current n i holders s)
    {o : Address} (member : o ∈ s.checkObjects ++ s.checkRoots) : o ∉ holders ∧ o ≠ current :=
  ⟨(busy.stacked o member).1, fun equal => (busy.stacked o member).2.1 (equal ▸ busy.visiting)⟩

theorem BatchBusy.pending_fetchSub {start : Finset Address} {before : Heap} {root : Address} {waitingRoots : List Address}
    {refs : Multiset Address} {left : Nat} {current : Address} {n i : Nat} {holders : Finset Address}
    {s : WaitingLoop} (busy : BatchBusy start before root waitingRoots refs left current n i holders s)
    {w : Address} (holder : w ∈ holders) {stack : List Address} (part : stack ⊆ s.checkObjects ++ s.checkRoots) :
    pendingPointers (s.heap.modify w .fetchSub) stack = pendingPointers s.heap stack := by
  refine pendingPointers_congr fun o member => ?_
  have other : o ≠ w := fun equal => (busy.apart (part member)).1 (equal ▸ holder)
  rw [s.heap.modify_of_ne _ other]

theorem BatchBusy.pending_cleared {start : Finset Address} {before : Heap} {root : Address} {waitingRoots : List Address}
    {refs : Multiset Address} {left : Nat} {current : Address} {n i : Nat} {holders : Finset Address}
    {s : WaitingLoop} (busy : BatchBusy start before root waitingRoots refs left current n i holders s)
    {w : Address} (holder : w ∈ holders) {stack : List Address} (part : stack ⊆ s.checkObjects ++ s.checkRoots) :
    pendingPointers ((s.heap.modify w .fetchSub).modify current (·.setField i 0)) stack = pendingPointers s.heap stack := by
  rw [← busy.pending_fetchSub holder part]
  exact pendingPointers_congr fun o member => by rw [Heap.modify_of_ne _ _ (busy.apart (part member)).2]

/-- The reference of the field is dropped and the field is cleared; `roots` is
the object it pointed to when that is set aside, and nothing otherwise. -/
theorem BatchBusy.clear {start : Finset Address} {before : Heap} {root : Address} {waitingRoots : List Address}
    {refs : Multiset Address} {left : Nat} {current : Address} {n i : Nat} {holders : Finset Address}
    {s : WaitingLoop} (busy : BatchBusy start before root waitingRoots refs left current n i holders s)
    {w : Address} (atField : (s.heap current).field i = w) (holder : w ∈ holders) {holders' : Finset Address}
    (roots : List Address) (only : ∀ o ∈ roots, o = w) (distinct : roots.Nodup)
    (leaves : ∀ o, o ∈ holders' ↔ o ∈ holders ∧ o ∉ roots)
    (evolves : Evolves holders holders' [current] s.heap (s.heap.modify w .fetchSub))
    (pushed : ∀ o ∈ roots, (s.heap.modify w .fetchSub o).state = .live ∧ (s.heap.modify w .fetchSub o).count = 0)
    (suspected : ∀ o ∈ roots, (s.heap.modify w .fetchSub o).Suspected)
    (exact : Exact holders' (s.heap.modify w .fetchSub) ((s.heap current).remaining (i + 1) +
      (pendingPointers s.heap s.checkObjects + (pendingPointers (s.heap.modify w .fetchSub) roots +
        (pendingPointers s.heap s.checkRoots + refs))))) :
    BatchBusy start before root waitingRoots refs left current n (i + 1) holders'
      { s with heap := (s.heap.modify w .fetchSub).modify current (·.setField i 0), checkRoots := roots ++ s.checkRoots } := by
  obtain ⟨outside, state, zero⟩ := busy.released current busy.visiting
  have outside' : current ∉ holders' := fun member => outside ((leaves current).mp member).1
  have different : w ≠ current := fun equal => outside (equal ▸ holder)
  have atCurrent : (s.heap.modify w .fetchSub).modify current (·.setField i 0) current = (s.heap current).setField i 0 := by
    rw [Heap.modify_self, s.heap.modify_of_ne _ different.symm]
  have atRoot (o : Address) (member : o ∈ roots) :
      (s.heap.modify w .fetchSub).modify current (·.setField i 0) o = s.heap.modify w .fetchSub o :=
    Heap.modify_of_ne _ _ ((only o member).trans_ne different)
  refine busy.push _ [] roots (fun o member => only o member ▸ holder) distinct (by simpa using leaves)
    (evolves.trans (.clearField outside' i) fun o member => Or.inl member) ?_ ?_ ?_ (by simp) (by simp) ?_ ?_ ?_ ?_
  · rw [atCurrent]
    exact ⟨state, zero⟩
  · rw [atCurrent]
    exact fun q notHolder pointer =>
      HeapObject.setField_keeps pointer fun equal => notHolder (by rw [equal, atField]; exact holder)
  · intro o member
    rw [atRoot o member]
    exact pushed o member
  · intro o member
    rw [atRoot o member]
    exact suspected o member
  · have cleared := exact.modify_outside outside' (·.setField i 0)
    have rootsSame := pendingPointers_congr fun o member => congrArg HeapObject.pointers (atRoot o member)
    rw [atCurrent, HeapObject.remaining_setField, List.nil_append, pendingPointers_append,
      busy.pending_cleared holder (List.subset_append_left _ _), busy.pending_cleared holder (List.subset_append_right _ _),
      rootsSame]
    convert cleared using 1
    abel
  · rw [atCurrent, HeapObject.setField_length]
    exact busy.length
  · intro x member
    rw [atCurrent] at member
    exact Or.inl (HeapObject.passed_clear member)

/-- The object lost its last reference by the field and is kept below
`current`. -/
theorem BatchBusy.keep {start : Finset Address} {before : Heap} {root : Address} {waitingRoots : List Address}
    {refs : Multiset Address} {left : Nat} {current : Address} {n i : Nat} {holders : Finset Address}
    {s : WaitingLoop} (busy : BatchBusy start before root waitingRoots refs left current n i holders s)
    {w : Address} (atField : (s.heap current).field i = w) (holder : w ∈ holders)
    (evolves : Evolves holders (holders.erase w) [current] s.heap (s.heap.modify w .fetchSub))
    (pushed : (s.heap.modify w .fetchSub w).state = .live ∧ (s.heap.modify w .fetchSub w).count = 0)
    (nonnull : w ≠ 0) (plain : ¬(s.heap.modify w .fetchSub w).Suspected)
    (exact : Exact (holders.erase w) (s.heap.modify w .fetchSub) ((s.heap.modify w .fetchSub w).pointers +
      ((s.heap current).remaining (i + 1) +
        (pendingPointers s.heap s.checkObjects + (pendingPointers s.heap s.checkRoots + refs))))) :
    BatchBusy start before root waitingRoots refs left current n (i + 1) (holders.erase w)
      { s with heap := s.heap.modify w .fetchSub, checkObjects := w :: s.checkObjects } := by
  obtain ⟨outside, state, zero⟩ := busy.released current busy.visiting
  have different : w ≠ current := fun equal => outside (equal ▸ holder)
  have atCurrent : s.heap.modify w .fetchSub current = s.heap current := s.heap.modify_of_ne _ different.symm
  have pointed : w ∈ (s.heap current).pointers :=
    HeapObject.mem_pointers.mpr ⟨atField ▸ HeapObject.field_mem (atField ▸ nonnull), nonnull⟩
  refine busy.push _ [w] [] (by simpa using holder) (by simp) (by simp [and_comm]) evolves ?_ ?_ ?_ ?_ ?_ (by simp) ?_ ?_ ?_
  · rw [atCurrent]
    exact ⟨state, zero⟩
  · rw [atCurrent]
    exact fun q _ pointer => pointer
  · intro o member
    rw [List.append_nil, List.mem_singleton] at member
    rwa [member]
  · intro o member
    rwa [List.mem_singleton.mp member, atCurrent]
  · intro o member
    rwa [List.mem_singleton.mp member]
  · rw [atCurrent, List.cons_append, List.nil_append, List.nil_append, pendingPointers_cons,
      busy.pending_fetchSub holder (List.subset_append_left _ _), busy.pending_fetchSub holder (List.subset_append_right _ _)]
    convert exact using 1
    abel
  · rw [atCurrent]
    exact busy.length
  · intro x member
    rw [atCurrent] at member
    rcases HeapObject.passed_succ member with earlier | ⟨here, _⟩
    · exact Or.inl earlier
    · exact Or.inr (List.mem_singleton.mpr (here.trans atField))

/-- One field of a released object: its reference is dropped, and the object
it pointed to is kept below it, set aside as a root, or forgotten. -/
theorem BatchBusy.field {start : Finset Address} {before : Heap} {root : Address} {waitingRoots : List Address}
    {refs : Multiset Address} {left : Nat} {current : Address} {n i : Nat} {holders : Finset Address}
    {s : WaitingLoop} (busy : BatchBusy start before root waitingRoots refs left current n i holders s) :
    ∃ holders', BatchBusy start before root waitingRoots refs left current n (i + 1) holders'
      (waitingField current s i) := by
  by_cases null : (s.heap current).field i = 0
  · rw [waitingField, if_pos null]
    refine ⟨holders, { busy with exact := ?_, passed := fun w member => ?_ }⟩
    · rw [← HeapObject.remaining_null null]
      exact busy.exact
    · rcases HeapObject.passed_succ member with earlier | ⟨here, nonnull⟩
      · exact busy.passed w earlier
      · exact absurd (here.trans null) nonnull
  have exact := busy.exact
  rw [HeapObject.remaining_step null, add_assoc] at exact
  rw [waitingField, if_neg null]
  generalize atField : (s.heap current).field i = w at null exact ⊢
  have holder : w ∈ holders := exact.refs_mem w (Multiset.mem_add.mpr (Or.inl (Multiset.mem_singleton_self w)))
  have positive : (s.heap w).count ≠ 0 := exact.positive w holder
  have subTarget : s.heap.modify w .fetchSub w = (s.heap w).fetchSub := s.heap.modify_self w _
  by_cases last : (s.heap w).count = 1
  · have dropped := exact.fetchSub_last last
    have evolves : Evolves holders (holders.erase w) [current] s.heap (s.heap.modify w .fetchSub) :=
      (Evolves.fetchSub holder positive (Finset.erase_subset _ _)).weaken fun o member => absurd member List.not_mem_nil
    have pushed : (s.heap.modify w .fetchSub w).state = .live ∧ (s.heap.modify w .fetchSub w).count = 0 := by
      rw [subTarget]
      exact ⟨busy.live w holder, by rw [HeapObject.fetchSub, last]; rfl⟩
    have pointers : (s.heap w).pointers = (s.heap.modify w .fetchSub w).pointers := by rw [subTarget]; rfl
    rw [pointers] at dropped
    rw [if_pos last]
    by_cases suspected : (s.heap.modify w .fetchSub w).Suspected
    · rw [if_pos suspected]
      refine ⟨_, busy.clear atField holder [w] (by simp) (by simp) (by simp [and_comm]) evolves (by simpa using pushed)
        (by simpa using suspected) ?_⟩
      convert dropped using 1
      rw [pendingPointers_cons, pendingPointers_nil]
      abel
    · rw [if_neg suspected]
      exact ⟨_, busy.keep atField holder evolves pushed null suspected dropped⟩
  · have dropped := exact.fetchSub_shared last
    have evolves : Evolves holders holders [current] s.heap (s.heap.modify w .fetchSub) :=
      (Evolves.fetchSub holder positive (Finset.Subset.refl _)).weaken fun o member => absurd member List.not_mem_nil
    rw [if_neg last]
    refine ⟨_, busy.clear atField holder [] (by simp) (by simp) (by simp) evolves (by simp) (by simp) ?_⟩
    rwa [pendingPointers_nil, zero_add]

/-- One object of the inner loop. -/
theorem BatchIdle.waitingObject {start : Finset Address} {before : Heap} {root : Address}
    {waitingRoots : List Address} {refs : Multiset Address} {left : Nat} {holders : Finset Address}
    {current : Address} {s : WaitingLoop}
    (idle : BatchIdle start before root waitingRoots refs left holders (current :: s.checkObjects) s) :
    ∃ holders', BatchIdle start before root waitingRoots refs (left - 1) holders'
      (waitingObject current s).checkObjects (waitingObject current s) := by
  have visit := idle.visit
  generalize length : (s.heap current).fields.length = n at visit
  have range : ((s.heap.modify current (·.setState .processGc)) current).fields.length = n := by
    rw [Heap.modify_self]
    exact length
  have loop := forRange
    (fun i s => ∃ holders, BatchBusy start before root waitingRoots refs (left - 1) current n i holders s)
    (fun i (_ : i < n) s inv => by
      obtain ⟨holders, busy⟩ := inv
      exact busy.field) _ ⟨holders, visit⟩
  rw [CatLa.waitingObject, range]
  generalize (List.range n).foldl (waitingField current) _ = s' at loop ⊢
  obtain ⟨holders', busy⟩ := loop
  refine ⟨holders', { busy.toBatch with exact := ?_, closed := fun o released w pointer => ?_ }⟩
  · have exact := busy.exact
    rwa [← busy.length, HeapObject.remaining_end, zero_add] at exact
  · by_cases here : o = current
    · subst here
      refine busy.passed w ?_
      rwa [← busy.length, HeapObject.passed_end]
    · exact busy.closed o released here w pointer

/-- The inner loop empties its stack. -/
theorem returns_waitingInner {start : Finset Address} {before : Heap} {root : Address}
    {waitingRoots : List Address} {refs : Multiset Address} {left : Nat} {holders : Finset Address}
    {current : Address} {s : WaitingLoop}
    (idle : BatchIdle start before root waitingRoots refs left holders (current :: s.checkObjects) s) :
    ∃ s', Returns (fun fuel => whileTrue waitingInnerBody fuel (current, s)) s' ∧
      ∃ holders' less, less < left ∧ BatchIdle start before root waitingRoots refs less holders' [] s' := by
  refine returns_whileTrue (fun l (loop : Address × WaitingLoop) => l ≤ left ∧
      ∃ holders, BatchIdle start before root waitingRoots refs l holders (loop.1 :: loop.2.checkObjects) loop.2)
    ?_ ⟨le_rfl, holders, idle⟩
  rintro l ⟨current, s⟩ ⟨bound, holders, idle⟩
  have positive := idle.budget
  obtain ⟨holders', next⟩ := idle.waitingObject
  rw [List.length_cons] at positive
  cases stack : (waitingObject current s).checkObjects with
  | nil =>
    rw [stack] at next
    refine ⟨.done (waitingObject current s), .of_eq (fun _ => by simp only [waitingInnerBody, stack]), ?_⟩
    exact ⟨holders', l - 1, by omega, next⟩
  | cons top rest =>
    rw [stack] at next
    refine ⟨.again (top, { waitingObject current s with checkObjects := rest }),
      .of_eq (fun _ => by simp only [waitingInnerBody, stack]), ?_⟩
    exact ⟨l - 1, by omega, by omega, holders', { next with }⟩

end CatLa
