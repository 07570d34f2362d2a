import CatLa.Gc.ReleaseThreads
import Mathlib.Logic.Relation

namespace CatLa
open FuelLoop Relation

/-- One access of a function, which may return by it. -/
def Accesses {φ : Type} (advance : Heap → φ → Heap × Option φ) (p q : Heap × Option φ) : Prop :=
  ∃ f, p.2 = some f ∧ q = advance p.1 f

/-- Accesses one after the other. -/
abbrev AccessRun {φ : Type} (advance : Heap → φ → Heap × Option φ) : Heap × Option φ → Heap × Option φ → Prop :=
  ReflTransGen (Accesses advance)

theorem AccessRun.one {φ : Type} {advance : Heap → φ → Heap × Option φ} {h : Heap} {f : φ} {next : Heap × Option φ}
    (value : advance h f = next) : AccessRun advance (h, some f) next :=
  .single ⟨f, rfl, value.symm⟩

/-- The deferred release with the variables of its loops, before an access. -/
def WaitingLoop.call (s : WaitingLoop) (access : WaitingAccess) : Heap × Option WaitingCall :=
  (s.heap, some ⟨access, s.releaseObjects, s.checkObjects, s.checkRoots⟩)

/-- An update that leaves the number of fields alone. -/
theorem Heap.modify_length {h : Heap} {a : Address} {f : HeapObject → HeapObject}
    (same : (f (h a)).fields.length = (h a).fields.length) (o : Address) :
    (h.modify a f o).fields.length = (h o).fields.length := by
  by_cases here : o = a
  · rw [here, Heap.modify_self, same]
  · rw [Heap.modify_of_ne _ _ here]

theorem waitingField_length (s : WaitingLoop) (current i : Nat) (o : Address) :
    ((waitingField current s i).heap o).fields.length = (s.heap o).fields.length := by
  have sub (h : Heap) (a : Address) : (h.modify a .fetchSub o).fields.length = (h o).fields.length :=
    Heap.modify_length rfl o
  have clear (h : Heap) (a : Address) : (h.modify a (·.setField i 0) o).fields.length = (h o).fields.length :=
    Heap.modify_length List.length_set o
  simp only [waitingField]
  split
  · rfl
  · split
    · split
      · exact (clear _ _).trans (sub _ _)
      · exact sub _ _
    · exact (clear _ _).trans (sub _ _)

theorem WaitingCall.advance_length (h : Heap) (f : WaitingCall) (o : Address) :
    ((f.advance h).1 o).fields.length = (h o).fields.length := by
  obtain ⟨access, released, stack, roots⟩ := f
  cases access with
  | visit current => exact Heap.modify_length rfl o
  | read current i =>
    simp only [advance]
    split
    · split <;> rfl
    · cases stack <;> rfl
  | sub current i w =>
    simp only [advance]
    split <;> exact Heap.modify_length rfl o
  | test current i w =>
    simp only [advance]
    split <;> rfl
  | clear current i root => exact Heap.modify_length List.length_set o
  | mark marks =>
    cases marks with
    | cons object marks => exact Heap.modify_length rfl o
    | nil => cases roots <;> rfl

/-- One pass of the loop over the fields makes the accesses of that field. -/
theorem waitingField_run {s : WaitingLoop} {current i : Nat} (bound : i < (s.heap current).fields.length) :
    AccessRun WaitingCall.advance (s.call (.read current i)) ((waitingField current s i).call (.read current (i + 1))) := by
  generalize word : (s.heap current).field i = w
  by_cases null : w = 0
  · rw [waitingField, word, if_pos null]
    refine AccessRun.one ?_
    simp only [WaitingCall.advance, if_pos bound, word, if_pos null, WaitingLoop.call]
  have read : AccessRun WaitingCall.advance (s.call (.read current i)) (s.call (.sub current i w)) := by
    refine AccessRun.one ?_
    simp only [WaitingCall.advance, if_pos bound, word, if_neg null, WaitingLoop.call]
  rw [waitingField, word, if_neg null]
  dsimp only
  generalize dropped : s.heap.modify w .fetchSub = h'
  by_cases last : (s.heap w).count = 1
  · have sub : AccessRun WaitingCall.advance (s.call (.sub current i w))
        (WaitingLoop.call { s with heap := h' } (.test current i w)) := by
      refine AccessRun.one ?_
      simp only [WaitingCall.advance, if_pos last, WaitingLoop.call, dropped]
    rw [if_pos last]
    by_cases suspected : (h' w).Suspected
    · have test : AccessRun WaitingCall.advance (WaitingLoop.call { s with heap := h' } (.test current i w))
          (WaitingLoop.call { s with heap := h' } (.clear current i (some w))) := by
        refine AccessRun.one ?_
        simp only [WaitingCall.advance, if_pos suspected, WaitingLoop.call]
      rw [if_pos suspected]
      exact ((read.trans sub).trans test).trans (AccessRun.one rfl)
    · rw [if_neg suspected]
      refine (read.trans sub).trans (AccessRun.one ?_)
      simp only [WaitingCall.advance, if_neg suspected, WaitingLoop.call]
  · have sub : AccessRun WaitingCall.advance (s.call (.sub current i w))
        (WaitingLoop.call { s with heap := h' } (.clear current i none)) := by
      refine AccessRun.one ?_
      simp only [WaitingCall.advance, if_neg last, WaitingLoop.call, dropped]
    rw [if_neg last]
    exact (read.trans sub).trans (AccessRun.one rfl)

theorem waitingObject_run (s : WaitingLoop) (current : Address) :
    AccessRun WaitingCall.advance (s.call (.visit current))
      ((waitingObject current s).call (.read current (s.heap current).fields.length)) ∧
      ((waitingObject current s).heap current).fields.length = (s.heap current).fields.length := by
  have length : ((s.heap.modify current (·.setState .processGc)) current).fields.length = (s.heap current).fields.length := by
    rw [Heap.modify_self]
    rfl
  simp only [waitingObject, length]
  refine forRange (n := (s.heap current).fields.length) (fun i (s' : WaitingLoop) =>
    AccessRun WaitingCall.advance (s.call (.visit current)) (s'.call (.read current i)) ∧
      (s'.heap current).fields.length = (s.heap current).fields.length) (fun i bound s' before => ?_) _
    ⟨AccessRun.one rfl, length⟩
  refine ⟨before.1.trans (waitingField_run (before.2 ▸ bound)), ?_⟩
  rw [waitingField_length]
  exact before.2

/-- The inner loop, from the visit of its object to the end of the last one. -/
theorem waitingInner_run {fuel : Nat} {s s' : WaitingLoop} {current : Address}
    (returned : whileTrue waitingInnerBody fuel (current, s) = some s') :
    AccessRun WaitingCall.advance (s.call (.visit current)) (s'.call (.mark s'.releaseObjects.reverse)) := by
  refine whileTrue_post (fun p : Address × WaitingLoop =>
    AccessRun WaitingCall.advance (s.call (.visit current)) (p.2.call (.visit p.1)))
    (fun r => AccessRun WaitingCall.advance (s.call (.visit current)) (r.call (.mark r.releaseObjects.reverse)))
    ?_ ?_ returned .refl
  · rintro ⟨p, g⟩ ⟨q, g'⟩ before pass
    obtain ⟨visit, length⟩ := waitingObject_run g p
    simp only [waitingInnerBody] at pass
    split at pass
    · cases pass
    · rename_i next rest stack
      simp only [Option.some.injEq, Next.again.injEq, Prod.mk.injEq] at pass
      obtain ⟨rfl, rfl⟩ := pass
      refine (before.trans visit).trans (AccessRun.one ?_)
      simp only [WaitingCall.advance, length, lt_irrefl, if_false, stack, WaitingLoop.call]
  · rintro ⟨p, g⟩ r before pass
    obtain ⟨visit, length⟩ := waitingObject_run g p
    simp only [waitingInnerBody] at pass
    split at pass
    · rename_i stack
      simp only [Option.some.injEq, Next.done.injEq] at pass
      subst pass
      refine (before.trans visit).trans (AccessRun.one ?_)
      simp only [WaitingCall.advance, length, lt_irrefl, if_false, stack, WaitingLoop.call]
    · cases pass

/-- The objects of the batch are left to the collector one by one. -/
theorem marks_run (marks : List Address) (s : WaitingLoop) :
    AccessRun WaitingCall.advance (s.call (.mark marks))
      (WaitingLoop.call { s with heap := marks.foldl (fun h o => h.modify o (·.setState .waitingForGc)) s.heap } (.mark [])) := by
  induction marks generalizing s with
  | nil => exact .refl
  | cons o rest ih =>
    have first : AccessRun WaitingCall.advance (s.call (.mark (o :: rest)))
        (WaitingLoop.call { s with heap := s.heap.modify o (·.setState .waitingForGc) } (.mark rest)) := AccessRun.one rfl
    exact first.trans (ih _)

/-- The whole deferred release makes the accesses of its calls. -/
theorem decrementWaiting_run {fuel : Nat} {h h' : Heap} {object : Address}
    (returned : decrementReferenceCountWaitingGcObject fuel h object = some h') :
    AccessRun WaitingCall.advance (h, some (.make object [])) (h', none) := by
  refine whileTrue_post (fun p : Address × Heap × List Address =>
    AccessRun WaitingCall.advance (h, some (.make object [])) (p.2.1, some (.make p.1 p.2.2)))
    (fun r => AccessRun WaitingCall.advance (h, some (.make object [])) (r, none)) ?_ ?_ returned .refl
  all_goals
    rintro ⟨root, g, roots⟩ next before pass
    simp only [waitingOuterBody] at pass
    obtain ⟨s, inner, pass⟩ := Option.bind_eq_some_iff.mp pass
    have batch := (before.trans (waitingInner_run inner)).trans (marks_run s.releaseObjects.reverse s)
    split at pass
  · cases pass
  · rename_i next rest stack
    simp only [Option.some.injEq, Next.again.injEq] at pass
    subst pass
    refine batch.trans (AccessRun.one ?_)
    simp only [WaitingCall.advance, stack]
  · rename_i stack
    simp only [Option.some.injEq, Next.done.injEq] at pass
    subst pass
    refine batch.trans (AccessRun.one ?_)
    simp only [WaitingCall.advance, stack]
  · cases pass

theorem AccessRun.length {p q : Heap × Option WaitingCall} (run : AccessRun WaitingCall.advance p q) (o : Address) :
    (q.1 o).fields.length = (p.1 o).fields.length := by
  induction run with
  | refl => rfl
  | @tail b c _ last ih =>
    obtain ⟨f, _, rfl⟩ := last
    exact (f.advance_length b.1 o).trans ih

/-- The release loop with these variables, before an access. -/
def ReleaseLoop.call (s : ReleaseLoop) (current : Address) (access : ReleaseAccess) : Heap × Option ReleaseCall :=
  (s.heap, some ⟨access, current, s.checkObjects⟩)

/-- A call of the deferred release, inside the release that makes it. -/
theorem AccessRun.nested {p q : Heap × Option WaitingCall} (run : AccessRun WaitingCall.advance p q) (current : Address)
    (i : Nat) (stack : List Address) :
    AccessRun ReleaseCall.advance (p.1, some ⟨p.2.elim (.read (i + 1)) (.waiting i), current, stack⟩)
      (q.1, some ⟨q.2.elim (.read (i + 1)) (.waiting i), current, stack⟩) := by
  refine ReflTransGen.lift (fun p : Heap × Option WaitingCall =>
    (p.1, some (⟨p.2.elim (.read (i + 1)) (.waiting i), current, stack⟩ : ReleaseCall))) ?_ _ _ run
  rintro ⟨h, left⟩ next ⟨call, rfl, rfl⟩
  refine ⟨_, rfl, ?_⟩
  simp only [Option.elim, ReleaseCall.advance]
  generalize call.advance h = result
  obtain ⟨h', left⟩ := result
  cases left <;> rfl

theorem releaseField_run {fuel : Nat} {s s' : ReleaseLoop} {current i : Nat}
    (bound : i < (s.heap current).fields.length) (returned : releaseField fuel current s i = some s') :
    AccessRun ReleaseCall.advance (s.call current (.read i)) (s'.call current (.read (i + 1))) ∧
      (s'.heap current).fields.length = (s.heap current).fields.length := by
  generalize word : (s.heap current).field i = w
  rw [releaseField, word] at returned
  by_cases null : w = 0
  · rw [if_pos null, Option.some.injEq] at returned
    subst returned
    refine ⟨AccessRun.one ?_, rfl⟩
    simp only [ReleaseCall.advance, if_pos bound, word, if_pos null, ReleaseLoop.call]
  have read : AccessRun ReleaseCall.advance (s.call current (.read i)) (s.call current (.sub i w)) := by
    refine AccessRun.one ?_
    simp only [ReleaseCall.advance, if_pos bound, word, if_neg null, ReleaseLoop.call]
  have length : ((s.heap.modify w .fetchSub) current).fields.length = (s.heap current).fields.length :=
    Heap.modify_length rfl current
  rw [if_neg null] at returned
  dsimp only at returned
  generalize dropped : s.heap.modify w .fetchSub = h' at returned length
  by_cases last : (s.heap w).count = 1
  · have sub : AccessRun ReleaseCall.advance (s.call current (.sub i w))
        (ReleaseLoop.call { s with heap := h' } current (.test i w)) := by
      refine AccessRun.one ?_
      simp only [ReleaseCall.advance, if_pos last, ReleaseLoop.call, dropped]
    rw [if_pos last] at returned
    by_cases suspected : (h' w).Suspected
    · rw [if_pos suspected] at returned
      obtain ⟨h'', deferred, rfl⟩ := Option.map_eq_some_iff.mp returned
      have call : AccessRun ReleaseCall.advance (ReleaseLoop.call { s with heap := h' } current (.test i w))
          (ReleaseLoop.call { s with heap := h' } current (.waiting i (.make w []))) := by
        refine AccessRun.one ?_
        simp only [ReleaseCall.advance, if_pos suspected, ReleaseLoop.call]
      have inside := decrementWaiting_run deferred
      exact ⟨((read.trans sub).trans call).trans (inside.nested current i s.checkObjects), (inside.length current).trans length⟩
    · rw [if_neg suspected, Option.some.injEq] at returned
      subst returned
      refine ⟨(read.trans sub).trans (AccessRun.one ?_), length⟩
      simp only [ReleaseCall.advance, if_neg suspected, ReleaseLoop.call]
  · rw [if_neg last, Option.some.injEq] at returned
    subst returned
    refine ⟨read.trans (AccessRun.one ?_), length⟩
    simp only [ReleaseCall.advance, if_neg last, ReleaseLoop.call, dropped]

/-- The visit of one object, up to the store that frees it. -/
theorem releaseObject_run {fuel : Nat} {s s' : ReleaseLoop} {current : Address}
    (returned : (List.range (s.heap current).fields.length).foldlM (releaseField fuel current) s = some s') :
    AccessRun ReleaseCall.advance (s.call current (.read 0)) (s'.call current .free) := by
  obtain ⟨fields, length⟩ := forRange_post (fun i (s' : ReleaseLoop) =>
    AccessRun ReleaseCall.advance (s.call current (.read 0)) (s'.call current (.read i)) ∧
      (s'.heap current).fields.length = (s.heap current).fields.length) (fun i bound g g' before pass => by
        obtain ⟨run, length⟩ := releaseField_run (before.2 ▸ bound) pass
        exact ⟨before.1.trans run, length.trans before.2⟩) returned ⟨.refl, rfl⟩
  refine fields.trans (AccessRun.one ?_)
  simp only [ReleaseCall.advance, length, lt_irrefl, if_false, ReleaseLoop.call]

theorem releaseLoop_run {fuel passes : Nat} {h h' : Heap} {object : Address}
    (returned : whileTrue (releaseBody fuel) passes (object, { heap := h, checkObjects := [] }) = some h') :
    AccessRun ReleaseCall.advance (h, some (.make object [])) (h', none) := by
  refine whileTrue_post (fun p : Address × ReleaseLoop =>
    AccessRun ReleaseCall.advance (h, some (.make object [])) (p.2.call p.1 (.read 0)))
    (fun r => AccessRun ReleaseCall.advance (h, some (.make object [])) (r, none)) ?_ ?_ returned .refl
  all_goals
    rintro ⟨current, g⟩ next before pass
    simp only [releaseBody] at pass
    obtain ⟨s, fields, pass⟩ := Option.bind_eq_some_iff.mp pass
    have visit := before.trans (releaseObject_run fields)
    split at pass
  · cases pass
  · rename_i next rest stack
    simp only [Option.some.injEq, Next.again.injEq] at pass
    subst pass
    refine visit.trans (AccessRun.one ?_)
    simp only [ReleaseCall.advance, stack, ReleaseLoop.call, ReleaseCall.make]
  · rename_i stack
    simp only [Option.some.injEq, Next.done.injEq] at pass
    subst pass
    refine visit.trans (AccessRun.one ?_)
    simp only [ReleaseCall.advance, stack]
  · cases pass

namespace DropTrace
variable {h h' h'' : Heap} {control control' control'' : DropControl} {events events' : List ReleaseEvent}

theorem trans (first : DropTrace h control events h' control') (second : DropTrace h' control' events' h'' control'') :
    DropTrace h control (events ++ events') h'' control'' := by
  induction second with
  | start => rwa [List.append_nil]
  | step _ advanced ih =>
    rw [← List.append_assoc]
    exact .step ih advanced

theorem one (advanced : control.advance h = some (h', control')) :
    ∃ events, DropTrace h control events h' control' := ⟨_, .step .start advanced⟩

/-- The accesses of a function, as those of the thread that calls it. -/
theorem ofRun {φ : Type} {advance : Heap → φ → Heap × Option φ} (embed : φ → DropControl)
    (same : ∀ h f, (embed f).advance h = some ((advance h f).1, (advance h f).2.elim .idle embed))
    {p q : Heap × Option φ} (run : AccessRun advance p q) :
    ∃ events, DropTrace p.1 (p.2.elim .idle embed) events q.1 (q.2.elim .idle embed) := by
  induction run with
  | refl => exact ⟨[], .start⟩
  | @tail b c _ last ih =>
    obtain ⟨events, trace⟩ := ih
    obtain ⟨f, here, rfl⟩ := last
    rw [here] at trace
    exact ⟨_, .step trace (same b.1 f)⟩

end DropTrace

/-- The deferred release makes the accesses of its thread. -/
theorem waiting_trace {fuel : Nat} {h h' : Heap} {object : Address}
    (returned : decrementReferenceCountWaitingGcObject fuel h object = some h') :
    ∃ events, DropTrace h (.waiting (.make object [])) events h' .idle :=
  DropTrace.ofRun .waiting (fun _ _ => rfl) (decrementWaiting_run returned)

/-- `decrement_reference_count` makes the accesses of its thread, from the
`fetch_sub` to the end. -/
theorem decrement_trace {fuel : Nat} {h h' : Heap} {object : Address}
    (returned : decrementReferenceCount fuel h object = some h') : ∃ events, DropTrace h (.sub object) events h' .idle := by
  simp only [decrementReferenceCount] at returned
  by_cases last : (h object).count = 1
  · rw [if_pos last] at returned
    obtain ⟨first, sub⟩ : ∃ events, DropTrace h (.sub object) events (h.modify object .fetchSub) (.test object) :=
      DropTrace.one (by simp only [DropControl.advance, if_pos last])
    generalize h.modify object .fetchSub = g at returned sub
    by_cases suspected : (g object).Suspected
    · rw [if_pos suspected] at returned
      obtain ⟨second, test⟩ : ∃ events, DropTrace g (.test object) events g (.waiting (.make object [])) :=
        DropTrace.one (by simp only [DropControl.advance, if_pos suspected])
      obtain ⟨rest, run⟩ := waiting_trace returned
      exact ⟨_, (sub.trans test).trans run⟩
    · rw [if_neg suspected] at returned
      obtain ⟨second, test⟩ : ∃ events, DropTrace g (.test object) events g (.release (.make object [])) :=
        DropTrace.one (by simp only [DropControl.advance, if_neg suspected])
      obtain ⟨rest, run⟩ := DropTrace.ofRun .release (fun h f => rfl) (releaseLoop_run returned)
      exact ⟨_, (sub.trans test).trans run⟩
  · rw [if_neg last, Option.some.injEq] at returned
    subst returned
    exact DropTrace.one (by simp only [DropControl.advance, if_neg last])

end CatLa
