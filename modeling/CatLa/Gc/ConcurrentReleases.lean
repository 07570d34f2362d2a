import CatLa.Gc.ReleaseRuns
import CatLa.Gc.ReleaseTraces

namespace CatLa
open CountedGraph FuelLoop

namespace DropRun
variable {ι : Type} [DecidableEq ι] {start c : DropConfig ι} {steps before after : List (ι × Option ReleaseEvent)}

/-- A run up to any of its steps. -/
theorem upTo (run : DropRun start (before ++ after) c) : ∃ c', DropRun start before c' := by
  induction after using List.reverseRecOn generalizing c with
  | nil => exact ⟨c, List.append_nil before ▸ run⟩
  | append_singleton after last ih =>
    rw [← List.append_assoc] at run
    generalize whole : before ++ after ++ [last] = all at run
    cases run with
    | start => simp at whole
    | step earlier _ =>
      obtain ⟨rfl, -⟩ := List.append_inj' whole rfl
      exact ih earlier

/-- A thread that runs alone. -/
theorem alone {h h' : Heap} {control control' : DropControl} {drops : Multiset Address} {events : List ReleaseEvent}
    {start : DropConfig Unit} {steps : List (Unit × Option ReleaseEvent)}
    (run : DropRun start steps ⟨h, fun _ => ⟨drops, control⟩⟩) (trace : DropTrace h control events h' control') :
    ∃ more, DropRun start (steps ++ more) ⟨h', fun _ => ⟨drops, control'⟩⟩ ∧ more.filterMap (·.2) = events := by
  induction trace with
  | start => exact ⟨[], (List.append_nil steps).symm ▸ run, rfl⟩
  | @step events h' h'' control' control'' _ advanced ih =>
    obtain ⟨more, run, same⟩ := ih
    have step := @DropStep.advance Unit _ ⟨h', fun _ => ⟨drops, control'⟩⟩ () (h'', control'') advanced
    have next : DropConfig.set ⟨h', fun _ => ⟨drops, control'⟩⟩ () h'' ⟨drops, control''⟩ =
        ⟨h'', fun _ => ⟨drops, control''⟩⟩ := by
      rw [DropConfig.set, DropConfig.mk.injEq]
      exact ⟨rfl, funext fun _ => Function.update_self ..⟩
    rw [next] at step
    refine ⟨more ++ [((), control'.event h')], ?_, ?_⟩
    · rw [← List.append_assoc]
      exact .step run step
    · rw [List.filterMap_append, same]
      cases control'.event h' <;> rfl

end DropRun

/-- The drops made one after the other are a run of one thread. -/
theorem dropRun_foldlM {fuel : Nat} {order : List Address} {h h' : Heap} {start : DropConfig Unit}
    {steps : List (Unit × Option ReleaseEvent)} (run : DropRun start steps ⟨h, fun _ => ⟨order, .idle⟩⟩)
    (returned : order.foldlM (decrementReferenceCount fuel) h = some h') :
    ∃ steps, DropRun start steps ⟨h', fun _ => ⟨0, .idle⟩⟩ := by
  induction order generalizing h steps with
  | nil => exact ⟨steps, Option.some.inj returned ▸ run⟩
  | cons object rest ih =>
    rw [List.foldlM_cons] at returned
    obtain ⟨next, first, later⟩ := Option.bind_eq_some_iff.mp returned
    obtain ⟨events, trace⟩ := decrement_trace first
    have call : DropStep ⟨h, fun _ : Unit => ⟨(object :: rest : List Address), .idle⟩⟩ () none
      (DropConfig.set ⟨h, fun _ => ⟨(object :: rest : List Address), .idle⟩⟩ () h ⟨rest, .sub object⟩) := .call rfl
    have entered : DropConfig.set ⟨h, fun _ : Unit => ⟨(object :: rest : List Address), .idle⟩⟩ () h ⟨rest, .sub object⟩ =
        ⟨h, fun _ => ⟨rest, .sub object⟩⟩ := by
      rw [DropConfig.set, DropConfig.mk.injEq]
      exact ⟨rfl, funext fun _ => Function.update_self ..⟩
    rw [entered] at call
    obtain ⟨more, run, -⟩ := DropRun.alone (run.step call) trace
    exact ih run later

/-- They return. -/
theorem returns_drops {holders : Finset Address} {h : Heap} {kept : Multiset Address} {order : List Address}
    (exact : Exact holders h (order + kept)) (live : ∀ o ∈ holders, (h o).state = .live) :
    ∃ h', Returns (fun fuel => order.foldlM (decrementReferenceCount fuel) h) h' := by
  have pass (x : Address) (rest : List Address) (h : Heap)
      (before : ∃ holders, Exact holders h (↑(x :: rest) + kept) ∧ ∀ o ∈ holders, (h o).state = .live) :
      ∃ h', Returns (fun fuel => decrementReferenceCount fuel h x) h' ∧
        ∃ holders, Exact holders h' (rest + kept) ∧ ∀ o ∈ holders, (h' o).state = .live := by
    obtain ⟨holders, exact, live⟩ := before
    rw [← Multiset.cons_coe, ← Multiset.singleton_add, add_assoc] at exact
    obtain ⟨h', run, holders', released⟩ := returns_decrement exact live
    exact ⟨h', run, holders', released.exact, released.live⟩
  obtain ⟨h', run, -⟩ := returns_forEach (fun (rest : List Address) h =>
    ∃ holders, Exact holders h (rest + kept) ∧ ∀ o ∈ holders, (h o).state = .live) pass h ⟨holders, exact, live⟩
  exact ⟨h', run⟩

namespace Ledger
variable {ι : Type} [Fintype ι] {nodes holders : Finset Address} {kept : Multiset Address} {start c : DropConfig ι}
  {steps : List (ι × Option ReleaseEvent)} {o : Address}

/-- When all threads have finished, the objects that are left to count are
those that were not lost. -/
theorem finish (ledger : Ledger nodes kept start steps holders c)
    (counts : Counts nodes (fun o => (start.heap o).count) (fun o => (start.heap o).pointers)
      (∑ t, (start.threads t).drops + kept)) (finished : c.Finished) :
    Exact holders c.heap (kept + floating nodes (fun o => (start.heap o).count) fun o => (start.heap o).pointers) ∧
      ∀ o, Lost nodes (fun o => (start.heap o).pointers) (∑ t, (start.threads t).drops) kept o ↔
        o ∈ counted nodes (fun o => (start.heap o).count) ∧ o ∉ holders := by
  have none : ∑ t, (c.threads t).references c.heap = 0 := Finset.sum_eq_zero fun t _ => by
    rw [finished t]
    rfl
  have exact := ledger.dropping.exact
  rw [none, zero_add] at exact
  exact ⟨exact, fun o => ledger.losing.finish counts exact fun p => ledger.pointers_same⟩

/-- An object that was lost has been released. -/
theorem lost_state (ledger : Ledger nodes kept start steps holders c) (finished : c.Finished)
    (member : o ∈ counted nodes fun o => (start.heap o).count) (outside : o ∉ holders) :
    (c.heap o).state = .dead ∨ (c.heap o).state = .waitingForGc := by
  obtain ⟨t, source, taken⟩ := ledger.taken o member outside
  refine (ledger.gone t source o taken).2.2.resolve_left fun mine => ?_
  rw [finished t] at mine
  exact absurd mine List.not_mem_nil

/-- Every other one is as before, but for its count. -/
theorem kept_same (ledger : Ledger nodes kept start steps holders c)
    (stays : o ∈ holders ∨ o ∉ counted nodes fun o => (start.heap o).count) :
    c.heap o = { start.heap o with count := (c.heap o).count } := by
  rcases stays with holder | uncounted
  · exact (ledger.evolves.kept o holder).1
  · rw [ledger.evolves.settled o uncounted List.not_mem_nil]

end Ledger

/-- Two runs that drop the same references of the same heap end alike. -/
theorem Ledger.agree {ι κ : Type} [Fintype ι] [Fintype κ] {nodes holders holders' : Finset Address} {kept : Multiset Address}
    {start c : DropConfig ι} {start' c' : DropConfig κ} {steps : List (ι × Option ReleaseEvent)}
    {steps' : List (κ × Option ReleaseEvent)} (ledger : Ledger nodes kept start steps holders c)
    (ledger' : Ledger nodes kept start' steps' holders' c') (live : ∀ o ∈ nodes, (start.heap o).state = .live)
    (counts : Counts nodes (fun o => (start.heap o).count) (fun o => (start.heap o).pointers)
      (∑ t, (start.threads t).drops + kept))
    (sameHeap : start'.heap = start.heap) (sameDrops : ∑ t, (start'.threads t).drops = ∑ t, (start.threads t).drops)
    (finished : c.Finished) (finished' : c'.Finished) {o : Address} (member : o ∈ nodes) :
    ((c.heap o).state ≠ .live ↔ (c'.heap o).state ≠ .live) ∧
      ((c.heap o).state = .live → (c.heap o).count = (c'.heap o).count) := by
  have counts' : Counts nodes (fun o => (start'.heap o).count) (fun o => (start'.heap o).pointers)
      (∑ t, (start'.threads t).drops + kept) := by
    rw [sameHeap, sameDrops]
    exact counts
  obtain ⟨exact, lost⟩ := ledger.finish counts finished
  obtain ⟨exact', lost'⟩ := ledger'.finish counts' finished'
  rw [sameHeap] at exact'
  rw [sameHeap, sameDrops] at lost'
  have inside := ledger.losing.shrink
  have inside' := ledger'.losing.shrink
  rw [sameHeap] at inside'
  obtain rfl : holders' = holders := by
    ext x
    by_cases counted : x ∈ counted nodes fun o => (start.heap o).count
    · have iff := (lost x).symm.trans (lost' x)
      tauto
    · exact iff_of_false (fun holder => counted (inside' holder)) fun holder => counted (inside holder)
  by_cases counted : o ∈ counted nodes (fun o => (start.heap o).count) ∧ o ∉ holders'
  · have gone := ledger.lost_state finished counted.1 counted.2
    have gone' := ledger'.lost_state finished' (by rw [sameHeap]; exact counted.1) counted.2
    have left {s : ObjectState} (released : s = .dead ∨ s = .waitingForGc) : s ≠ .live := by
      rintro rfl
      exact released.elim (by simp) (by simp)
    exact ⟨iff_of_true (left gone) (left gone'), fun again => absurd again (left gone)⟩
  · have same := ledger.kept_same (o := o) (by tauto)
    have same' := ledger'.kept_same (o := o) (by rw [sameHeap]; tauto)
    have alive : (c.heap o).state = .live := by
      rw [same]
      exact live o member
    have alive' : (c'.heap o).state = .live := by
      rw [same', sameHeap]
      exact live o member
    refine ⟨iff_of_false (not_not.mpr alive) (not_not.mpr alive'), fun _ => ?_⟩
    by_cases holder : o ∈ holders'
    · rw [exact.count_eq o holder, exact'.count_eq o holder]
      refine congrArg _ (slots_congr (fun p owner => ?_) o)
      rw [ledger.pointers_same owner, ledger'.pointers_same owner, sameHeap]
    · have uncounted : o ∉ CountedGraph.counted nodes fun o => (start.heap o).count := by tauto
      rw [ledger.evolves.settled o uncounted List.not_mem_nil,
        ledger'.evolves.settled o (by rw [sameHeap]; exact uncounted) List.not_mem_nil, sameHeap]

/-- Every run keeps the books. -/
theorem Ledger.run {ι : Type} [Fintype ι] [DecidableEq ι] {nodes : Finset Address} {kept : Multiset Address}
    {start c : DropConfig ι} {steps : List (ι × Option ReleaseEvent)} (idle : ∀ t, (start.threads t).control = .idle)
    (live : ∀ o ∈ nodes, (start.heap o).state = .live)
    (counts : Counts nodes (fun o => (start.heap o).count) (fun o => (start.heap o).pointers)
      (∑ t, (start.threads t).drops + kept)) (run : DropRun start steps c) :
    ∃ holders, Ledger nodes kept start steps holders c := by
  induction run with
  | start => exact ⟨_, .start_idle idle live counts⟩
  | step _ step ih =>
    obtain ⟨holders, ledger⟩ := ih
    exact ⟨_, ledger.step counts step⟩

/-- Any number of threads drop references of a heap of live objects whose
counts are exact. An object whose count gets to zero is released by the thread
whose `fetch_sub` returned 1, which is one thread only, and no `fetch_sub`
returns 0. When all have finished, the objects that are left and their counts
are those that the drops leave when they are made one after the other. -/
theorem concurrent_releases {ι : Type} [Fintype ι] [DecidableEq ι] {nodes : Finset Address} {kept : Multiset Address}
    {start c : DropConfig ι} {steps : List (ι × Option ReleaseEvent)} (idle : ∀ t, (start.threads t).control = .idle)
    (live : ∀ o ∈ nodes, (start.heap o).state = .live)
    (counts : Counts nodes (fun o => (start.heap o).count) (fun o => (start.heap o).pointers)
      (∑ t, (start.threads t).drops + kept)) (run : DropRun start steps c) :
    (∀ t source o previous, (t, some (.fetchSub source o previous)) ∈ steps → previous ≠ 0) ∧
      (∀ o ∈ nodes, (start.heap o).count ≠ 0 → (c.heap o).count = 0 →
        ∃! t, ∃ source, (t, some (.fetchSub source o 1)) ∈ steps) ∧
      (∀ before after t o s, steps = before ++ (t, some (.stateStore o s)) :: after →
        ∃ source, (t, some (.fetchSub source o 1)) ∈ before) ∧
      (c.Finished →
        (∀ t source o, (t, some (.fetchSub source o 1)) ∈ steps → (∃ s, (t, some (.stateStore o s)) ∈ steps) ∧
          ((c.heap o).state = .dead ∨ (c.heap o).state = .waitingForGc)) ∧
        ∀ order : List Address, (order : Multiset Address) = ∑ t, (start.threads t).drops →
          ∃ h', Returns (fun fuel => order.foldlM (decrementReferenceCount fuel) start.heap) h' ∧
            ∀ o ∈ nodes, ((c.heap o).state ≠ .live ↔ (h' o).state ≠ .live) ∧
              ((c.heap o).state = .live → (c.heap o).count = (h' o).count)) := by
  obtain ⟨holders, ledger⟩ := Ledger.run idle live counts run
  refine ⟨ledger.positive, fun o member positive zero => ?_, fun before after t o s split => ?_, fun finished => ⟨?_, ?_⟩⟩
  · have gone : o ∉ holders := fun holder => ledger.dropping.exact.positive o holder zero
    obtain ⟨t, source, taken⟩ := ledger.taken o (mem_counted.mpr ⟨member, positive⟩) gone
    exact ⟨t, ⟨source, taken⟩, fun u again => (ledger.unique again.choose_spec taken).1⟩
  · subst split
    rw [List.append_cons] at run
    obtain ⟨c', earlier⟩ := run.upTo
    obtain ⟨_, ledger⟩ := Ledger.run idle live counts earlier
    obtain ⟨source, member⟩ := ledger.stores t o s (List.mem_append_right _ (List.mem_singleton_self _))
    refine ⟨source, (List.mem_append.mp member).resolve_right fun here => ?_⟩
    simp at here
  · intro t source o taken
    obtain ⟨member, outside, -⟩ := ledger.gone t source o taken
    have released := ledger.lost_state finished member outside
    refine ⟨?_, released⟩
    have changed : (c.heap o).state ≠ (start.heap o).state := by
      rw [live o (mem_counted.mp member).1]
      rintro alive
      rw [alive] at released
      exact released.elim (by simp) (by simp)
    obtain ⟨u, s, stored⟩ := ledger.changed o changed
    obtain ⟨source', own⟩ := ledger.stores u o s stored
    obtain ⟨rfl, -⟩ := ledger.unique own taken
    exact ⟨s, stored⟩
  · intro order same
    have exact := counts.accounted
    rw [← same, add_assoc] at exact
    obtain ⟨h', returned⟩ := returns_drops exact fun o member => live o (mem_counted.mp member).1
    refine ⟨h', returned, fun o member => ?_⟩
    obtain ⟨fuel, run'⟩ := returned
    generalize alone : (⟨start.heap, fun _ => ⟨order, .idle⟩⟩ : DropConfig Unit) = start'
    have sameHeap : start'.heap = start.heap := by rw [← alone]
    have sameDrops : ∑ t, (start'.threads t).drops = ∑ t, (start.threads t).drops := by
      rw [← alone, ← same]
      exact Fintype.sum_unique _
    have first : DropRun start' [] ⟨start.heap, fun _ => ⟨order, .idle⟩⟩ := alone ▸ .start
    obtain ⟨steps', run'⟩ := dropRun_foldlM first (run' fuel le_rfl)
    have idle' : ∀ t, (start'.threads t).control = .idle := by
      rw [← alone]
      exact fun _ => rfl
    obtain ⟨holders', ledger'⟩ : ∃ holders', Ledger nodes kept start' steps' holders' ⟨h', fun _ => ⟨0, .idle⟩⟩ :=
      Ledger.run idle' (by rw [sameHeap]; exact live) (by rw [sameHeap, sameDrops]; exact counts) run'
    exact ledger.agree ledger' live counts sameHeap sameDrops finished (fun _ => rfl) member

/-- An object with two handles, one for each of two threads. -/
def sharedHandles : DropConfig Bool :=
  { heap := Function.update (fun _ => .zeroed) 8
      { count := 2, state := .live, asyncRelease := false, isCyclicType := false, lockFlag := false, typeInfo := 0,
        fields := [] }
    threads := fun _ => ⟨{8}, .idle⟩ }

theorem concurrent_releases_twoThreads : ∃ steps c, DropRun sharedHandles steps c ∧ c.Finished ∧
    (∃! t, ∃ source, (t, some (.fetchSub source 8 1)) ∈ steps) ∧ ((c.heap 8).state = .dead ∨ (c.heap 8).state = .waitingForGc) := by
  -- both threads call, then both drop, and the second one to do so releases
  have begun : DropRun sharedHandles [] sharedHandles := .start
  have called := (begun.step (.call (t := false) (show _ = (⟨{8} + 0, .idle⟩ : DropThread) from rfl))).step
    (.call (t := true) (show _ = (⟨{8} + 0, .idle⟩ : DropThread) from rfl))
  have dropped := (called.step (.advance (t := false) rfl)).step (.advance (t := true) rfl)
  have released := ((dropped.step (.advance (t := true) rfl)).step (.advance (t := true) rfl)).step (.advance (t := true) rfl)
  have only (o : Address) (member : o ∈ ({8} : Finset Address)) : o = 8 := Finset.mem_singleton.mp member
  have counts : Counts {8} (fun o => (sharedHandles.heap o).count) (fun o => (sharedHandles.heap o).pointers)
      (∑ t, (sharedHandles.threads t).drops + 0) := by
    refine ⟨fun x member => ?_, fun x member => ?_, fun o member x pointed => ?_⟩
    · obtain rfl := only x member
      rfl
    · simpa [sharedHandles] using member
    · obtain rfl := only o member
      exact absurd pointed (Multiset.notMem_zero x)
  obtain ⟨-, once, -, done⟩ := concurrent_releases (fun t => rfl) (fun o member => by
    obtain rfl := only o member
    rfl) counts released
  have last := once 8 (Finset.mem_singleton_self 8) (by decide) rfl
  refine ⟨_, _, released, fun t => by cases t <;> rfl, last, ?_⟩
  obtain ⟨t, ⟨source, taken⟩, -⟩ := last
  exact ((done fun t => by cases t <;> rfl).1 t source 8 taken).2

end CatLa
