import CatLa.Foundations.ReleaseClosure
import CatLa.Gc.ReleaseFates

namespace CatLa
open CountedGraph

theorem ReleaseEvent.mem_leave {holders : Finset Address} {event : Option ReleaseEvent} {o : Address} :
    o ∈ leave holders event ↔ o ∈ holders ∧ ∀ source, event ≠ some (.fetchSub source o 1) := by
  unfold leave
  split
  · rename_i source object
    rw [Finset.mem_erase, and_comm]
    refine and_congr_right fun _ => ⟨fun different other here => ?_, fun never same => ?_⟩
    · simp only [Option.some.injEq, ReleaseEvent.fetchSub.injEq] at here
      exact different here.2.1.symm
    · exact never source (by rw [same])
  · rename_i never
    exact (and_iff_left fun source here => never source o here).symm

/-- All references that a thread still has to drop. -/
def DropThread.references (h : Heap) (t : DropThread) : Multiset Address := t.drops + t.control.refs h

/-- The threads at any point of their releases: the counts of the objects in
`holders` are exact, and no two threads release the same object. -/
structure Dropping {ι : Type} [Fintype ι] (kept : Multiset Address) (holders : Finset Address) (c : DropConfig ι) : Prop where
  exact : Exact holders c.heap ((∑ t, (c.threads t).references c.heap) + kept)
  alive : ∀ o ∈ holders, (c.heap o).state ≠ .dead
  nodup : ∀ t, (c.threads t).control.objects.Nodup
  apart : ∀ t, ∀ o ∈ (c.threads t).control.objects, o ∉ holders ∧ (c.heap o).state ≠ .dead
  disjoint : ∀ t u, t ≠ u → ∀ o ∈ (c.threads t).control.objects, o ∉ (c.threads u).control.objects
  sound : ∀ t, (c.threads t).control.Sound c.heap

/-- What a step of thread `t` does, as far as all of them see. -/
structure DropChange {ι : Type} [Fintype ι] (kept : Multiset Address) (holders : Finset Address) (c : DropConfig ι) (t : ι)
    (event : Option ReleaseEvent) (c' : DropConfig ι) : Prop where
  after : Dropping kept (ReleaseEvent.leave holders event) c'
  evolves : Evolves holders (ReleaseEvent.leave holders event) (c.threads t).control.objects c.heap c'.heap
  others : ∀ u, u ≠ t → c'.threads u = c.threads u
  fetch : ∀ source o previous, event = some (.fetchSub source o previous) →
    previous = (c.heap o).count ∧ o ∈ (c.threads t).references c.heap
  takes : ∀ source o, event = some (.fetchSub source o 1) → o ∈ (c'.threads t).control.objects
  origin : ∀ o ∈ (c'.threads t).control.objects,
    o ∈ (c.threads t).control.objects ∨ ∃ source, event = some (.fetchSub source o 1)
  store : ∀ o s, event = some (.stateStore o s) → o ∈ (c.threads t).control.objects
  state : ∀ o, (c'.heap o).state = ReleaseEvent.stateAfter c.heap o event
  left : ∀ o ∈ (c.threads t).control.objects, o ∉ (c'.threads t).control.objects →
    (c'.heap o).state = .dead ∨ (c'.heap o).state = .waitingForGc

namespace Dropping
variable {ι : Type} [Fintype ι] [DecidableEq ι] {kept : Multiset Address} {holders : Finset Address} {c c' : DropConfig ι}
  {t : ι} {event : Option ReleaseEvent}

/-- The references of all threads but one. -/
def others (h : Heap) (threads : ι → DropThread) (t : ι) : Multiset Address :=
  ∑ u ∈ Finset.univ.erase t, (threads u).references h

theorem split (h : Heap) (threads : ι → DropThread) (t : ι) :
    ∑ u, (threads u).references h = (threads t).references h + others h threads t :=
  (Finset.add_sum_erase _ (fun u => (threads u).references h) (Finset.mem_univ t)).symm

/-- A thread inside its release, with everything else among the other
references. -/
theorem view (dropping : Dropping kept holders c) (t : ι) :
    Cascade holders c.heap ((c.threads t).control.objects ++ []) ((c.threads t).control.refs c.heap)
      ((c.threads t).drops + others c.heap c.threads t + kept) := by
  refine ⟨?_, dropping.alive, ?_, ?_⟩
  · have exact := dropping.exact
    rw [split c.heap c.threads t, DropThread.references] at exact
    rwa [← add_assoc, ← add_assoc, add_comm ((c.threads t).control.refs c.heap)]
  · rw [List.append_nil]
    exact dropping.nodup t
  · rw [List.append_nil]
    exact dropping.apart t

/-- A step of one thread, described by what it does to its own objects and
references, keeps the accounting of all. -/
theorem change (dropping : Dropping kept holders c) {holders' : Finset Address} {h' : Heap} {thread : DropThread}
    (evolves : Evolves holders holders' (c.threads t).control.objects c.heap h')
    (exact : Exact holders' h' (thread.references h' + others c.heap c.threads t + kept))
    (alive : ∀ o ∈ holders', (h' o).state ≠ .dead) (nodup : thread.control.objects.Nodup)
    (apart : ∀ o ∈ thread.control.objects, o ∉ holders' ∧ (h' o).state ≠ .dead)
    (origin : ∀ o ∈ thread.control.objects, o ∈ (c.threads t).control.objects ∨ o ∈ holders)
    (sound : thread.control.Sound h') : Dropping kept holders' (c.set t h' thread) := by
  have settled (u : ι) (different : u ≠ t) (o : Address) (member : o ∈ (c.threads u).control.objects) : h' o = c.heap o :=
    evolves.settled o (dropping.apart u o member).1 (dropping.disjoint u t different o member)
  have atT : (c.set t h' thread).threads t = thread := Function.update_self ..
  have atOther {u : ι} (different : u ≠ t) : (c.set t h' thread).threads u = c.threads u := Function.update_of_ne different ..
  have fresh {u : ι} (different : u ≠ t) {o : Address} (mine : o ∈ thread.control.objects)
      (theirs : o ∈ (c.threads u).control.objects) : False :=
    (origin o mine).elim (dropping.disjoint u t different o theirs) (dropping.apart u o theirs).1
  refine ⟨?_, alive, fun u => ?_, fun u o member => ?_, fun u v different o member again => ?_, fun u => ?_⟩
  · have rest : others h' (c.set t h' thread).threads t = others c.heap c.threads t := by
      refine Finset.sum_congr rfl fun u member => ?_
      have different := Finset.ne_of_mem_erase member
      rw [atOther different]
      exact congrArg _ (DropControl.refs_congr (dropping.sound u) (settled u different))
    have heap : (c.set t h' thread).heap = h' := rfl
    rw [heap, split h' _ t, rest, atT]
    exact exact
  · by_cases here : u = t
    · rw [here, atT]
      exact nodup
    · rw [atOther here]
      exact dropping.nodup u
  · by_cases here : u = t
    · rw [here, atT] at member
      exact apart o member
    · rw [atOther here] at member
      refine ⟨fun holder => (dropping.apart u o member).1 (evolves.shrink holder), ?_⟩
      show (h' o).state ≠ .dead
      rw [settled u here o member]
      exact (dropping.apart u o member).2
  · by_cases here : u = t
    · rw [here, atT] at member
      rw [atOther fun there => different (here.trans there.symm)] at again
      exact fresh (fun there => different (here.trans there.symm)) member again
    · rw [atOther here] at member
      by_cases there : v = t
      · rw [there, atT] at again
        exact fresh here again member
      · rw [atOther there] at again
        exact dropping.disjoint u v different o member again
  · by_cases here : u = t
    · rw [here, atT]
      exact sound
    · rw [atOther here]
      exact (dropping.sound u).congr (settled u here)

/-- One step of one thread. -/
theorem step (dropping : Dropping kept holders c) (step : DropStep c t event c') : DropChange kept holders c t event c' := by
  cases step with
  | @call object drops idle =>
    have atT : (c.set t c.heap ⟨drops, .sub object⟩).threads t = ⟨drops, .sub object⟩ := Function.update_self ..
    refine ⟨dropping.change (.refl ..) ?_ dropping.alive List.nodup_nil (fun o member => absurd member List.not_mem_nil)
      (fun o member => absurd member List.not_mem_nil) trivial, .refl .., fun u different => Function.update_of_ne different ..,
      (by simp), by simp, fun o member => ?_, by simp, fun o => rfl, fun o member => ?_⟩
    · have exact := dropping.exact
      rw [split c.heap c.threads t, idle] at exact
      simp only [DropThread.references, DropControl.refs, add_zero] at exact ⊢
      rwa [add_comm drops]
    · rw [atT] at member
      exact absurd member List.not_mem_nil
    · rw [idle] at member
      exact absurd member List.not_mem_nil
  | @advance next advanced =>
    obtain ⟨h', control'⟩ := next
    have cascade := dropping.view t
    have sound := dropping.sound t
    have stepped := DropControl.step sound cascade advanced
    have atT : (c.set t h' ⟨(c.threads t).drops, control'⟩).threads t = ⟨(c.threads t).drops, control'⟩ :=
      Function.update_self ..
    have after := stepped.after
    rw [List.append_nil] at after
    refine ⟨dropping.change stepped.evolves ?_ after.alive after.nodup after.apart stepped.origin
        (DropControl.sound_step sound cascade advanced), stepped.evolves, fun u different => Function.update_of_ne different ..,
      fun source o previous happened => ?_, fun source o happened => ?_, fun o member => ?_,
      fun o s happened => (DropControl.event_stateStore sound happened).1, DropControl.advance_state advanced,
      fun o member gone => ?_⟩
    · have exact := after.exact
      rwa [← add_assoc, ← add_assoc, add_comm (control'.refs h')] at exact
    · obtain ⟨count, referred⟩ := DropControl.event_fetchSub happened
      exact ⟨count, Multiset.mem_add.mpr (Or.inr referred)⟩
    · rw [atT]
      exact DropControl.takes sound cascade advanced happened
    · rw [atT] at member
      refine (stepped.origin o member).imp_right fun holder => ?_
      by_contra never
      exact (after.apart o member).1 (ReleaseEvent.mem_leave.mpr ⟨holder, fun source here => never ⟨source, here⟩⟩)
    · rw [atT] at gone
      exact DropControl.left_state sound cascade advanced member gone

end Dropping

/-- What a run has done so far. Of the objects that had references, those in
`holders` are untouched but for their counts; each of the others had to go, and
one thread has dropped its last reference and releases it. -/
structure Ledger {ι : Type} [Fintype ι] (nodes : Finset Address) (kept : Multiset Address) (start : DropConfig ι)
    (steps : List (ι × Option ReleaseEvent)) (holders : Finset Address) (c : DropConfig ι) : Prop where
  dropping : Dropping (kept + floating nodes (fun o => (start.heap o).count) fun o => (start.heap o).pointers) holders c
  losing : Losing nodes (fun o => (start.heap o).count) (fun o => (start.heap o).pointers) (∑ t, (start.threads t).drops)
    kept holders
  evolves : Evolves (counted nodes fun o => (start.heap o).count) holders [] start.heap c.heap
  owned : ∀ t, ∀ o ∈ (c.threads t).control.objects, ∃ source, (t, some (.fetchSub source o 1)) ∈ steps
  gone : ∀ t source o, (t, some (.fetchSub source o 1)) ∈ steps →
    o ∈ counted nodes (fun o => (start.heap o).count) ∧ o ∉ holders ∧
      (o ∈ (c.threads t).control.objects ∨ (c.heap o).state = .dead ∨ (c.heap o).state = .waitingForGc)
  taken : ∀ o ∈ counted nodes (fun o => (start.heap o).count), o ∉ holders →
    ∃ t source, (t, some (.fetchSub source o 1)) ∈ steps
  once : steps.Pairwise fun s s' => ∀ source source' o, s.2 = some (.fetchSub source o 1) → s'.2 ≠ some (.fetchSub source' o 1)
  positive : ∀ t source o previous, (t, some (.fetchSub source o previous)) ∈ steps → previous ≠ 0
  stores : ∀ t o s, (t, some (.stateStore o s)) ∈ steps → ∃ source, (t, some (.fetchSub source o 1)) ∈ steps
  changed : ∀ o, (c.heap o).state ≠ (start.heap o).state → ∃ t s, (t, some (.stateStore o s)) ∈ steps

namespace Ledger
variable {ι : Type} [Fintype ι] {nodes holders : Finset Address} {kept : Multiset Address}
  {start c c' : DropConfig ι} {t u : ι} {steps : List (ι × Option ReleaseEvent)} {event : Option ReleaseEvent}
  {source source' : Option (Address × Nat)} {o : Address}

theorem start_idle (idle : ∀ t, (start.threads t).control = .idle) (live : ∀ o ∈ nodes, (start.heap o).state = .live)
    (counts : Counts nodes (fun o => (start.heap o).count) (fun o => (start.heap o).pointers)
      (∑ t, (start.threads t).drops + kept)) :
    Ledger nodes kept start [] (counted nodes fun o => (start.heap o).count) start where
  dropping := by
    have drops (t : ι) : (start.threads t).references start.heap = (start.threads t).drops := by
      rw [DropThread.references, idle t]
      exact add_zero _
    have none (t : ι) (o : Address) : o ∉ (start.threads t).control.objects := by
      rw [idle t]
      exact List.not_mem_nil
    refine ⟨?_, fun o member => ?_, fun t => ?_, fun t o member => absurd member (none t o),
      fun t u different o member => absurd member (none t o), fun t => ?_⟩
    · rw [Finset.sum_congr rfl fun t _ => drops t, ← add_assoc]
      exact counts.accounted
    · rw [live o (mem_counted.mp member).1]
      simp
    · rw [idle t]
      exact List.nodup_nil
    · rw [idle t]
      trivial
  losing := .start
  evolves := .refl ..
  owned t o member := by
    rw [idle t] at member
    exact absurd member List.not_mem_nil
  gone t source o member := absurd member List.not_mem_nil
  taken o member outside := absurd member outside
  once := List.Pairwise.nil
  positive t source o previous member := absurd member List.not_mem_nil
  stores t o s member := absurd member List.not_mem_nil
  changed o different := absurd rfl different

/-- Among the objects that are still counted, each one keeps its pointers. -/
theorem pointers_same (ledger : Ledger nodes kept start steps holders c) {p : Address} (member : p ∈ holders) :
    (c.heap p).pointers = (start.heap p).pointers := by
  rw [(ledger.evolves.kept p member).1]
  rfl

/-- The last reference to an object is dropped once. -/
theorem unique (ledger : Ledger nodes kept start steps holders c)
    (first : (t, some (ReleaseEvent.fetchSub source o 1)) ∈ steps)
    (second : (u, some (ReleaseEvent.fetchSub source' o 1)) ∈ steps) : t = u ∧ source = source' := by
  have apart : Std.Symm fun s s' : ι × Option ReleaseEvent => ∀ source source' o,
      s.2 = some (.fetchSub source o 1) → s'.2 ≠ some (.fetchSub source' o 1) :=
    ⟨fun s s' never source source' o here there => never source' source o there here⟩
  by_contra different
  refine ledger.once.forall first second (fun same => different ?_) source source' o rfl rfl
  simp only [Prod.mk.injEq, Option.some.injEq, ReleaseEvent.fetchSub.injEq] at same
  exact ⟨same.1, same.2.1⟩

variable [DecidableEq ι]

theorem step (ledger : Ledger nodes kept start steps holders c)
    (counts : Counts nodes (fun o => (start.heap o).count) (fun o => (start.heap o).pointers)
      (∑ t, (start.threads t).drops + kept))
    (step : DropStep c t event c') :
    Ledger nodes kept start (steps ++ [(t, event)]) (ReleaseEvent.leave holders event) c' := by
  have change := ledger.dropping.step step
  have inside := ledger.losing.shrink
  have last {source : Option (Address × Nat)} {o : Address} (happened : event = some (.fetchSub source o 1)) :
      (c.heap o).count = 1 ∧ o ∈ ∑ u, (c.threads u).references c.heap := by
    obtain ⟨count, referred⟩ := change.fetch source o 1 happened
    rw [Dropping.split c.heap c.threads t]
    exact ⟨count.symm, Multiset.mem_add.mpr (Or.inl referred)⟩
  have holder {o : Address} (referred : o ∈ ∑ u, (c.threads u).references c.heap) : o ∈ holders :=
    ledger.dropping.exact.refs_mem o (Multiset.mem_add.mpr (Or.inl referred))
  have old {s : ι × Option ReleaseEvent} (member : s ∈ steps) : s ∈ steps ++ [(t, event)] := List.mem_append_left _ member
  have new {e : Option ReleaseEvent} (happened : event = e) : (t, e) ∈ steps ++ [(t, event)] := by
    rw [happened]
    exact List.mem_append_right _ (List.mem_singleton_self _)
  have cases {u : ι} {e : Option ReleaseEvent} (member : (u, e) ∈ steps ++ [(t, event)]) :
      (u, e) ∈ steps ∨ u = t ∧ event = e := by
    refine (List.mem_append.mp member).imp_right fun here => ?_
    simp only [List.mem_singleton, Prod.mk.injEq] at here
    exact ⟨here.1, here.2.symm⟩
  have owned (u : ι) (o : Address) (member : o ∈ (c'.threads u).control.objects) :
      ∃ source, (u, some (.fetchSub source o 1)) ∈ steps ++ [(t, event)] := by
    by_cases here : u = t
    · subst here
      rcases change.origin o member with before | ⟨source, happened⟩
      · obtain ⟨source, member⟩ := ledger.owned u o before
        exact ⟨source, old member⟩
      · exact ⟨source, new happened⟩
    · rw [change.others u here] at member
      obtain ⟨source, member⟩ := ledger.owned u o member
      exact ⟨source, old member⟩
  refine ⟨change.after, ?_, ?_, owned, ?_, ?_, ?_, ?_, ?_, ?_⟩
  · by_cases taken : ∃ source o, event = some (.fetchSub source o 1)
    · obtain ⟨source, o, happened⟩ := taken
      obtain ⟨one, referred⟩ := last happened
      rw [happened]
      exact ledger.losing.last counts ledger.dropping.exact (fun p => ledger.pointers_same) referred one
    · have same : ReleaseEvent.leave holders event = holders := by
        ext o
        exact ReleaseEvent.mem_leave.trans (and_iff_left fun source here => taken ⟨source, o, here⟩)
      rw [same]
      exact ledger.losing
  · refine (ledger.evolves.trans change.evolves fun o member => Or.inr ?_)
    obtain ⟨source, member⟩ := ledger.owned t o member
    exact (ledger.gone t source o member).1
  · intro u source o member
    rcases cases member with before | ⟨rfl, happened⟩
    · obtain ⟨first, outside, fate⟩ := ledger.gone u source o before
      refine ⟨first, fun again => outside (ReleaseEvent.mem_leave.mp again).1, ?_⟩
      by_cases mine : o ∈ (c.threads t).control.objects
      · obtain ⟨source', taken⟩ := ledger.owned t o mine
        obtain ⟨rfl, -⟩ := ledger.unique before taken
        by_cases still : o ∈ (c'.threads u).control.objects
        · exact Or.inl still
        · exact Or.inr (change.left o mine still)
      · rw [change.evolves.settled o outside mine]
        refine fate.imp_left fun theirs => ?_
        rwa [change.others u fun here => mine (here ▸ theirs)]
    · obtain ⟨-, referred⟩ := last happened
      exact ⟨inside (holder referred), fun again => (ReleaseEvent.mem_leave.mp again).2 source happened,
        Or.inl (change.takes source o happened)⟩
  · intro o first outside
    by_cases before : o ∈ holders
    · by_contra never
      exact outside (ReleaseEvent.mem_leave.mpr ⟨before, fun source happened => never ⟨t, source, new happened⟩⟩)
    · obtain ⟨u, source, member⟩ := ledger.taken o first before
      exact ⟨u, source, old member⟩
  · refine List.pairwise_append.mpr ⟨ledger.once, List.pairwise_singleton _ _, fun s member s' here => ?_⟩
    rw [List.mem_singleton.mp here]
    intro source source' o before happened
    obtain ⟨u, e⟩ := s
    dsimp only at before happened
    subst before
    exact (ledger.gone u source o member).2.1 (holder (last happened).2)
  · intro u source o previous member
    rcases cases member with before | ⟨rfl, happened⟩
    · exact ledger.positive u source o previous before
    · obtain ⟨count, referred⟩ := change.fetch source o previous happened
      rw [count]
      refine ledger.dropping.exact.positive o (holder ?_)
      rw [Dropping.split c.heap c.threads u]
      exact Multiset.mem_add.mpr (Or.inl referred)
  · intro u o s member
    rcases cases member with before | ⟨rfl, happened⟩
    · obtain ⟨source, member⟩ := ledger.stores u o s before
      exact ⟨source, old member⟩
    · obtain ⟨source, member⟩ := ledger.owned u o (change.store o s happened)
      exact ⟨source, old member⟩
  · intro o different
    by_cases same : (c'.heap o).state = (c.heap o).state
    · obtain ⟨u, s, member⟩ := ledger.changed o (same ▸ different)
      exact ⟨u, s, old member⟩
    · rw [change.state o] at same
      unfold ReleaseEvent.stateAfter at same
      split at same
      · rename_i object s
        by_cases here : o = object
        · subst here
          exact ⟨t, s, new rfl⟩
        · exact absurd (if_neg here) same
      · exact absurd rfl same

end Ledger

end CatLa
