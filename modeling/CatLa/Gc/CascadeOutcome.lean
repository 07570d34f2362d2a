import CatLa.Gc.ConcurrentReleases

namespace CatLa
open CountedGraph FuelLoop

variable {holders : Finset Address} {h h' : Heap} {p w : Address} {i : Nat} {outer : List Address} {rest : Multiset Address}

namespace WaitingCall

/-- The fields whose references a deferred release has dealt with. -/
def Passed (f : WaitingCall) (p : Address) (i : Nat) : Prop :=
  p ∈ f.releaseObjects ∧ match f.access with
    | .read currentObject j => p = currentObject → i < j
    | .sub currentObject j _ => p = currentObject → i < j
    | .test currentObject j _ => p = currentObject → i < j + 1
    | .clear currentObject j _ => p = currentObject → i < j
    | _ => True

/-- A word that a field still holds after an access was there before. -/
theorem field_kept (f : WaitingCall) (nonnull : ((f.advance h).1 p).field i ≠ 0) :
    ((f.advance h).1 p).field i = (h p).field i := by
  have modify (a : Address) (g : HeapObject → HeapObject) (same : ∀ x, (g x).fields = x.fields) :
      (h.modify a g p).field i = (h p).field i := by
    rw [Heap.modify_apply]
    split
    · simp only [HeapObject.field, same]
    · rfl
  obtain ⟨access, released, stack, roots⟩ := f
  cases access with
  | visit current => exact modify _ _ fun x => rfl
  | read current j =>
    simp only [advance]
    split
    · split <;> rfl
    · cases stack <;> rfl
  | sub current j w =>
    simp only [advance]
    split <;> exact modify _ _ fun x => rfl
  | test current j w =>
    simp only [advance]
    split <;> rfl
  | clear current j root =>
    simp only [advance] at nonnull ⊢
    by_cases here : p = current
    · rw [here, Heap.modify_self] at nonnull ⊢
      exact (HeapObject.field_setField _ nonnull).2
    · rw [Heap.modify_of_ne _ _ here]
  | mark marks =>
    cases marks with
    | cons object marks => exact modify _ _ fun x => rfl
    | nil => cases roots <;> rfl

/-- A field that a deferred release gets past either is null or held the last
reference to its object. -/
theorem passed_step {f g : WaitingCall} (sound : f.Sound h) (left : (f.advance h).2 = some g) (passed : g.Passed p i)
    (nonnull : ((f.advance h).1 p).field i ≠ 0) :
    f.Passed p i ∨ f.event h = some (.fetchSub (some (p, i)) (((f.advance h).1 p).field i) 1) := by
  have kept := field_kept f nonnull
  have inside : i < (h p).fields.length := HeapObject.field_bound (by rwa [kept] at nonnull)
  obtain ⟨access, released, stack, roots⟩ := f
  obtain ⟨-, sound⟩ := sound
  cases access with
  | visit current =>
    cases left
    obtain ⟨member, before⟩ := passed
    have different : p ≠ current := fun here => absurd (before here) (Nat.not_lt_zero i)
    exact Or.inl ⟨(List.mem_cons.mp member).resolve_left different, trivial⟩
  | read current j =>
    by_cases bound : j < (h current).fields.length
    · by_cases null : (h current).field j = 0
      · simp only [advance, if_pos bound, if_pos null] at left nonnull kept
        cases left
        refine Or.inl ⟨passed.1, fun here => ?_⟩
        have next : i < j + 1 := passed.2 here
        have differs : i ≠ j := fun same => nonnull (by rw [here, same]; exact null)
        omega
      · simp only [advance, if_pos bound, if_neg null] at left
        cases left
        exact Or.inl passed
    · simp only [advance, if_neg bound] at left
      have beyond (here : p = current) : i < j := by
        rw [here] at inside
        omega
      cases stack with
      | nil =>
        cases left
        exact Or.inl ⟨passed.1, beyond⟩
      | cons next below =>
        cases left
        exact Or.inl ⟨passed.1, beyond⟩
  | sub current j w =>
    by_cases last : (h w).count = 1
    · simp only [advance, if_pos last] at left kept ⊢
      cases left
      by_cases here : p = current ∧ i = j
      · obtain ⟨rfl, rfl⟩ := here
        refine Or.inr ?_
        rw [kept, sound.2]
        simp only [event, last]
      · refine Or.inl ⟨passed.1, fun same => ?_⟩
        have next : i < j + 1 := passed.2 same
        have differs : i ≠ j := fun equal => here ⟨same, equal⟩
        omega
    · simp only [advance, if_neg last] at left
      cases left
      exact Or.inl passed
  | test current j w =>
    by_cases suspected : (h w).Suspected
    · simp only [advance, if_pos suspected] at left
      cases left
      exact Or.inl ⟨passed.1, fun here => Nat.lt_succ_of_lt (passed.2 here)⟩
    · simp only [advance, if_neg suspected] at left
      cases left
      exact Or.inl passed
  | clear current j root =>
    cases left
    refine Or.inl ⟨passed.1, fun here => ?_⟩
    have next : i < j + 1 := passed.2 here
    simp only [advance] at nonnull
    rw [here, Heap.modify_self] at nonnull
    have differs := (HeapObject.field_setField _ nonnull).1
    omega
  | mark marks =>
    cases marks with
    | cons object marks =>
      cases left
      exact Or.inl ⟨passed.1, trivial⟩
    | nil =>
      cases roots with
      | nil => cases left
      | cons next below =>
        cases left
        exact absurd passed.1 List.not_mem_nil

/-- An object that a deferred release is done with has had all its fields dealt
with. -/
theorem passed_left {f : WaitingCall} (sound : f.Sound h) (member : p ∈ f.objects)
    (gone : p ∉ objectsLeft objects (f.advance h).2) : f.Passed p i := by
  obtain ⟨access, released⟩ := leaving sound member gone
  refine ⟨released, ?_⟩
  rw [access]
  trivial

end WaitingCall

namespace ReleaseCall

def Passed (f : ReleaseCall) (p : Address) (i : Nat) : Prop :=
  match f.access with
  | .waiting _ call => call.Passed p i
  | _ => False

theorem field_kept (f : ReleaseCall) (nonnull : ((f.advance h).1 p).field i ≠ 0) :
    ((f.advance h).1 p).field i = (h p).field i := by
  have modify (a : Address) (g : HeapObject → HeapObject) (same : ∀ x, (g x).fields = x.fields) :
      (h.modify a g p).field i = (h p).field i := by
    rw [Heap.modify_apply]
    split
    · simp only [HeapObject.field, same]
    · rfl
  obtain ⟨access, current, stack⟩ := f
  cases access with
  | read j =>
    simp only [advance]
    split
    · split <;> rfl
    · rfl
  | sub j w =>
    simp only [advance]
    split <;> exact modify _ _ fun x => rfl
  | test j w =>
    simp only [advance]
    split <;> rfl
  | waiting j call =>
    have inner := call.field_kept (h := h) (p := p) (i := i)
    simp only [advance] at nonnull ⊢
    generalize call.advance h = result at inner nonnull ⊢
    obtain ⟨h', left⟩ := result
    cases left <;> exact inner nonnull
  | free =>
    simp only [advance]
    cases stack <;> exact modify _ _ fun x => rfl

theorem passed_step {f g : ReleaseCall} (sound : f.Sound h) (left : (f.advance h).2 = some g) (passed : g.Passed p i)
    (nonnull : ((f.advance h).1 p).field i ≠ 0) :
    f.Passed p i ∨ f.event h = some (.fetchSub (some (p, i)) (((f.advance h).1 p).field i) 1) := by
  obtain ⟨access, current, stack⟩ := f
  cases access with
  | read j =>
    simp only [advance] at left
    split at left
    · split at left <;> cases left <;> exact passed.elim
    · cases left
      exact passed.elim
  | sub j w =>
    simp only [advance] at left
    split at left <;> cases left <;> exact passed.elim
  | test j w =>
    simp only [advance] at left
    split at left <;> cases left
    · exact absurd passed.1 List.not_mem_nil
    · exact passed.elim
  | waiting j call =>
    have inner (g : WaitingCall) := WaitingCall.passed_step (f := call) (g := g) (p := p) (i := i) sound
    simp only [advance, event] at left nonnull ⊢
    generalize call.advance h = result at inner left nonnull ⊢
    obtain ⟨h', more⟩ := result
    cases more with
    | none =>
      cases left
      exact passed.elim
    | some next =>
      cases left
      exact inner next rfl passed nonnull
  | free =>
    simp only [advance] at left
    cases stack <;> cases left
    exact passed.elim

/-- Only a deferred release inside it leaves objects to the collector. -/
theorem passed_left {f : ReleaseCall} (sound : f.Sound h) (member : p ∈ f.deferred h)
    (gone : p ∉ (f.advance h).2.elim [] (deferred (f.advance h).1)) : f.Passed p i := by
  obtain ⟨access, current, stack⟩ := f
  cases access with
  | test j w =>
    refine absurd ?_ gone
    by_cases suspected : (h w).Suspected
    · simp only [deferred, advance, if_pos suspected] at member ⊢
      exact member
    · simp only [deferred, if_neg suspected] at member
      exact absurd member List.not_mem_nil
  | waiting j call =>
    refine WaitingCall.passed_left sound member fun kept => gone ?_
    simp only [advance]
    generalize call.advance h = result at kept ⊢
    obtain ⟨h', more⟩ := result
    cases more with
    | none => exact kept
    | some next => exact kept
  | _ => exact absurd member List.not_mem_nil

end ReleaseCall

namespace DropControl
variable {control control' : DropControl}

/-- The fields of the objects that a thread will leave to the collector whose
references it has dealt with. -/
def Passed (p : Address) (i : Nat) : DropControl → Prop
  | .release call => call.Passed p i
  | .waiting call => call.Passed p i
  | _ => False

theorem field_kept (advanced : control.advance h = some (h', control')) (nonnull : (h' p).field i ≠ 0) :
    (h' p).field i = (h p).field i := by
  cases control with
  | idle => cases advanced
  | sub object =>
    simp only [advance, Option.some.injEq, Prod.mk.injEq] at advanced
    rw [← advanced.1, Heap.modify_apply]
    split <;> rfl
  | test object =>
    simp only [advance, Option.some.injEq, Prod.mk.injEq] at advanced
    rw [← advanced.1]
  | release call =>
    simp only [advance, Option.some.injEq, Prod.mk.injEq] at advanced
    rw [← advanced.1] at nonnull ⊢
    exact call.field_kept nonnull
  | waiting call =>
    simp only [advance, Option.some.injEq, Prod.mk.injEq] at advanced
    rw [← advanced.1] at nonnull ⊢
    exact call.field_kept nonnull

theorem passed_step (sound : control.Sound h) (advanced : control.advance h = some (h', control'))
    (passed : control'.Passed p i) (nonnull : (h' p).field i ≠ 0) :
    control.Passed p i ∨ control.event h = some (.fetchSub (some (p, i)) ((h' p).field i) 1) := by
  cases control with
  | idle => cases advanced
  | sub object =>
    simp only [advance, Option.some.injEq, Prod.mk.injEq] at advanced
    obtain ⟨-, rfl⟩ := advanced
    split at passed <;> exact passed.elim
  | test object =>
    simp only [advance, Option.some.injEq, Prod.mk.injEq] at advanced
    obtain ⟨-, rfl⟩ := advanced
    split at passed
    · exact absurd passed.1 List.not_mem_nil
    · exact passed.elim
  | release call =>
    have inner (g : ReleaseCall) := ReleaseCall.passed_step (f := call) (g := g) (p := p) (i := i) sound
    simp only [advance, Option.some.injEq, Prod.mk.injEq] at advanced
    obtain ⟨rfl, rfl⟩ := advanced
    generalize atCall : (call.advance h).2 = left at inner passed
    cases left with
    | none => exact passed.elim
    | some next => exact inner next rfl passed nonnull
  | waiting call =>
    have inner (g : WaitingCall) := WaitingCall.passed_step (f := call) (g := g) (p := p) (i := i) sound
    simp only [advance, Option.some.injEq, Prod.mk.injEq] at advanced
    obtain ⟨rfl, rfl⟩ := advanced
    generalize atCall : (call.advance h).2 = left at inner passed
    cases left with
    | none => exact passed.elim
    | some next => exact inner next rfl passed nonnull

theorem passed_left (sound : control.Sound h) (advanced : control.advance h = some (h', control'))
    (member : p ∈ control.deferred h) (gone : p ∉ control'.deferred h') : control.Passed p i := by
  cases control with
  | test object =>
    simp only [advance, Option.some.injEq, Prod.mk.injEq] at advanced
    obtain ⟨rfl, rfl⟩ := advanced
    refine absurd ?_ gone
    by_cases suspected : (h object).Suspected
    · simp only [deferred, if_pos suspected] at member ⊢
      exact member
    · simp only [deferred, if_neg suspected] at member
      exact absurd member List.not_mem_nil
  | release call =>
    simp only [advance, Option.some.injEq, Prod.mk.injEq] at advanced
    obtain ⟨rfl, rfl⟩ := advanced
    refine ReleaseCall.passed_left sound member fun kept => gone ?_
    generalize atCall : (call.advance h).2 = left at kept ⊢
    cases left <;> exact kept
  | waiting call =>
    simp only [advance, Option.some.injEq, Prod.mk.injEq] at advanced
    obtain ⟨rfl, rfl⟩ := advanced
    refine WaitingCall.passed_left sound member fun kept => gone ?_
    generalize atCall : (call.advance h).2 = left at kept ⊢
    cases left <;> exact kept
  | _ => exact absurd member List.not_mem_nil

end DropControl

/-- An object that the collector gets, or is about to. -/
def Waits (h : Heap) (control : DropControl) (x : Address) : Prop :=
  x ∈ control.deferred h ∨ x ∉ control.objects ∧ (h x).state = .waitingForGc

/-- An object that is freed, or is about to be. -/
def Dies (h : Heap) (control : DropControl) (x : Address) : Prop :=
  x ∈ control.freed h ∨ x ∉ control.objects ∧ (h x).state = .dead

/-- The fates of the objects whose last reference has been dropped so far, and
the fields that still hold a word in the objects left to the collector. -/
structure Fates (nodes : Finset Address) (before : Heap) (events : List ReleaseEvent) (h : Heap) (control : DropControl) :
    Prop where
  fate : ∀ source x, .fetchSub source x 1 ∈ events →
    ((before x).Suspected ∨ ∃ p i, source = some (p, i) ∧ Waits h control p) ∧ Waits h control x ∨
      (¬(before x).Suspected ∧ ∀ p i, source = some (p, i) → Dies h control p) ∧ Dies h control x
  passed : ∀ p ∈ nodes, ∀ i, control.Passed p i ∨ p ∉ control.objects ∧ (h p).state = .waitingForGc →
    (h p).field i ≠ 0 → .fetchSub (some (p, i)) ((h p).field i) 1 ∈ events

/-- One access of a thread, seen from the objects that it has nothing to do
with. -/
structure Aside (holders : Finset Address) (h h' : Heap) (control control' : DropControl) : Prop where
  live : ∀ x ∈ holders, (h x).state = .live
  out : ∀ x ∈ holders, x ∈ control'.objects ∨ (h' x).state = .live
  rest : ∀ x, x ∉ holders → x ∉ control.objects → x ∉ control'.objects ∧ h' x = h x

namespace Aside
variable {control control' : DropControl} {x : Address}

theorem waits (aside : Aside holders h h' control control') {event : Option ReleaseEvent}
    (step : FateStep event h h' (control.deferred h) (control.freed h) (control'.deferred h') (control'.freed h'))
    (waits : Waits h control x) : Waits h' control' x := by
  rcases waits with member | ⟨outside, state⟩
  · refine (step.waits x member).imp_right ?_
    rintro ⟨notDeferred, notFreed, state⟩
    exact ⟨fun again => (DropControl.mem_objects.mp again).elim notDeferred notFreed, state⟩
  · have uncounted : x ∉ holders := fun holder => by simp [aside.live x holder] at state
    obtain ⟨outside', same⟩ := aside.rest x uncounted outside
    exact Or.inr ⟨outside', by rw [same]; exact state⟩

theorem dies (aside : Aside holders h h' control control') {event : Option ReleaseEvent}
    (step : FateStep event h h' (control.deferred h) (control.freed h) (control'.deferred h') (control'.freed h'))
    (dies : Dies h control x) : Dies h' control' x := by
  rcases dies with member | ⟨outside, state⟩
  · refine (step.dies x member).imp_right ?_
    rintro ⟨notDeferred, notFreed, state⟩
    exact ⟨fun again => (DropControl.mem_objects.mp again).elim notDeferred notFreed, state⟩
  · have uncounted : x ∉ holders := fun holder => by simp [aside.live x holder] at state
    obtain ⟨outside', same⟩ := aside.rest x uncounted outside
    exact Or.inr ⟨outside', by rw [same]; exact state⟩

end Aside

namespace Fates
variable {nodes : Finset Address} {before : Heap} {events : List ReleaseEvent} {control control' : DropControl}

theorem step (fates : Fates nodes before events h control) (sound : control.Sound h)
    (cascade : Cascade holders h (control.objects ++ outer) (control.refs h) rest)
    (advanced : control.advance h = some (h', control')) (aside : Aside holders h h' control control')
    (header : ∀ x, (h x).Suspected ↔ (before x).Suspected) :
    Fates nodes before (events ++ (control.event h).toList) h' control' := by
  have step := DropControl.fate sound cascade advanced
  have old {e : ReleaseEvent} (member : e ∈ events) : e ∈ events ++ (control.event h).toList := List.mem_append_left _ member
  have new {e : ReleaseEvent} (happened : control.event h = some e) : e ∈ events ++ (control.event h).toList :=
    List.mem_append_right _ (Option.mem_toList.mpr happened)
  refine ⟨fun source x member => ?_, fun p inside i dealt nonnull => ?_⟩
  · rcases List.mem_append.mp member with earlier | happened
    · rcases fates.fate source x earlier with ⟨why, waits⟩ | ⟨⟨plain, from_⟩, dies⟩
      · refine Or.inl ⟨why.imp_right ?_, aside.waits step waits⟩
        rintro ⟨p, i, here, waits⟩
        exact ⟨p, i, here, aside.waits step waits⟩
      · exact Or.inr ⟨⟨plain, fun p i here => aside.dies step (from_ p i here)⟩, aside.dies step dies⟩
    · rcases step.takes source x (Option.mem_toList.mp happened) with ⟨⟨p, i, here, owner⟩, taken⟩ | ⟨from_, taken⟩
      · exact Or.inl ⟨Or.inr ⟨p, i, here, aside.waits step (Or.inl owner)⟩, Or.inl taken⟩
      · rcases taken with ⟨suspected, taken⟩ | ⟨plain, taken⟩
        · exact Or.inl ⟨Or.inl ((header x).mp suspected), Or.inl taken⟩
        · exact Or.inr ⟨⟨(header x).not.mp plain, fun p i here => aside.dies step (Or.inl (from_ p i here))⟩, Or.inl taken⟩
  · have kept := DropControl.field_kept advanced nonnull
    have before (dealt : control.Passed p i ∨ p ∉ control.objects ∧ (h p).state = .waitingForGc) :
        .fetchSub (some (p, i)) ((h' p).field i) 1 ∈ events ++ (control.event h).toList := by
      rw [kept] at nonnull ⊢
      exact old (fates.passed p inside i dealt nonnull)
    rcases dealt with passed | ⟨outside, state⟩
    · rcases DropControl.passed_step sound advanced passed nonnull with passed | happened
      · exact before (Or.inl passed)
      · exact new happened
    · by_cases owned : p ∈ control.objects
      · rcases DropControl.mem_objects.mp owned with waits | dies
        · refine before (Or.inl (DropControl.passed_left sound advanced waits fun again => outside ?_))
          exact DropControl.mem_objects.mpr (Or.inl again)
        · rcases step.dies p dies with again | ⟨-, -, dead⟩
          · exact absurd (DropControl.mem_objects.mpr (Or.inr again)) outside
          · rw [dead] at state
            cases state
      · have uncounted : p ∉ holders := fun holder => by
          rcases aside.out p holder with again | live
          · exact outside again
          · rw [live] at state
            cases state
        obtain ⟨-, same⟩ := aside.rest p uncounted owned
        rw [same] at state
        exact before (Or.inr ⟨owned, state⟩)

end Fates

/-- One thread that drops one reference of a heap of live objects. -/
def singleDrop (h : Heap) (o : Address) : DropConfig Unit := ⟨h, fun _ => ⟨{o}, .idle⟩⟩

/-- At every point of `decrement_reference_count`, the books are kept and the
fates are settled. -/
theorem DropTrace.fates {nodes : Finset Address} {kept : Multiset Address} {o : Address} {events : List ReleaseEvent}
    {control : DropControl} (live : ∀ x ∈ nodes, (h x).state = .live)
    (counts : Counts nodes (fun x => (h x).count) (fun x => (h x).pointers) ({o} + kept))
    (trace : DropTrace h (.sub o) events h' control) :
    ∃ steps holders, Ledger nodes kept (singleDrop h o) steps holders ⟨h', fun _ => ⟨0, control⟩⟩ ∧
      steps.filterMap (·.2) = events ∧ Fates nodes h events h' control := by
  have drops : ∑ t, ((singleDrop h o).threads t).drops = {o} := Fintype.sum_unique _
  have counts' : Counts nodes (fun x => ((singleDrop h o).heap x).count) (fun x => ((singleDrop h o).heap x).pointers)
      (∑ t, ((singleDrop h o).threads t).drops + kept) := by
    rw [drops]
    exact counts
  suffices run : ∃ steps, DropRun (singleDrop h o) steps ⟨h', fun _ => ⟨0, control⟩⟩ ∧ steps.filterMap (·.2) = events ∧
      Fates nodes h events h' control by
    obtain ⟨steps, run, same, fates⟩ := run
    obtain ⟨holders, ledger⟩ := Ledger.run (fun _ => rfl) live counts' run
    exact ⟨steps, holders, ledger, same, fates⟩
  induction trace with
  | start =>
    have call : DropStep (singleDrop h o) () none (DropConfig.set (singleDrop h o) () h ⟨0, .sub o⟩) :=
      .call (show _ = (⟨{o} + 0, .idle⟩ : DropThread) from rfl)
    have entered : DropConfig.set (singleDrop h o) () h ⟨0, .sub o⟩ = ⟨h, fun _ => ⟨0, .sub o⟩⟩ := by
      rw [DropConfig.set, DropConfig.mk.injEq]
      exact ⟨rfl, funext fun _ => Function.update_self ..⟩
    rw [entered] at call
    refine ⟨_, DropRun.step .start call, rfl, fun source x member => absurd member List.not_mem_nil,
      fun p inside i dealt => ?_⟩
    have waiting : (h p).state = .waitingForGc := (dealt.resolve_left False.elim).2
    rw [live p inside] at waiting
    cases waiting
  | @step events g g' control control' _ advanced ih =>
    obtain ⟨steps, run, same, fates⟩ := ih
    obtain ⟨holders, ledger⟩ := Ledger.run (fun _ => rfl) live counts' run
    obtain ⟨more, run', added⟩ := run.alone (.step .start advanced)
    have cascade := ledger.dropping.view ()
    have sound := ledger.dropping.sound ()
    have stepped := DropControl.step sound cascade advanced
    have alive (x : Address) (holder : x ∈ holders) : (g x).state = .live := by
      have before : (h x).state = .live := live x (mem_counted.mp (ledger.losing.shrink holder)).1
      have value : g x = { h x with count := (g x).count } := (ledger.evolves.kept x holder).1
      rw [value]
      exact before
    have aside : Aside holders g g' control control' := by
      refine ⟨alive, fun x holder => ?_, fun x uncounted outside => ⟨fun again => ?_, ?_⟩⟩
      · by_cases left : ∃ source, control.event g = some (.fetchSub source x 1)
        · obtain ⟨source, happened⟩ := left
          exact Or.inl (DropControl.takes sound cascade advanced happened)
        · have stays := ReleaseEvent.mem_leave.mpr ⟨holder, fun source happened => left ⟨source, happened⟩⟩
          refine Or.inr ?_
          rw [(stepped.evolves.kept x stays).1]
          exact alive x holder
      · exact (stepped.origin x again).elim outside uncounted
      · exact stepped.evolves.settled x uncounted outside
    refine ⟨steps ++ more, run', ?_, fates.step sound cascade advanced aside ledger.evolves.suspected_iff⟩
    rw [List.filterMap_append, same, added, List.nil_append]

/-- A set that the drop of one handle to `o` has to take out of state live: it
has `o` if its count is 1, and every object without handles that is pointed to,
and only from the set. -/
def CascadeClosed (nodes : Finset Address) (h : Heap) (handles : Multiset Address) (o : Address) (released : Set Address) :
    Prop :=
  ((h o).count = 1 → o ∈ released) ∧
    ∀ x ∈ nodes, x ∉ handles → (∃ p ∈ nodes, x ∈ (h p).pointers) → (∀ p ∈ nodes, x ∈ (h p).pointers → p ∈ released) →
      x ∈ released

namespace Ledger
variable {nodes : Finset Address} {kept : Multiset Address} {o x : Address} {steps : List (Unit × Option ReleaseEvent)}

/-- The objects that are released are those that are lost. -/
theorem released_iff (ledger : Ledger nodes kept (singleDrop h o) steps holders ⟨h', fun _ => ⟨0, .idle⟩⟩)
    (live : ∀ x ∈ nodes, (h x).state = .live)
    (counts : Counts nodes (fun x => (h x).count) (fun x => (h x).pointers) ({o} + kept)) :
    (x ∈ nodes ∧ (h' x).state ≠ .live ↔ x ∈ counted nodes (fun x => (h x).count) ∧ x ∉ holders) ∧
      (x ∈ nodes ∧ (h' x).state ≠ .live ↔ Lost nodes (fun x => (h x).pointers) {o} kept x) := by
  have drops : ∑ t, ((singleDrop h o).threads t).drops = {o} := Fintype.sum_unique _
  obtain ⟨-, lost⟩ := ledger.finish (by rw [drops]; exact counts) fun _ => rfl
  rw [drops] at lost
  have released : x ∈ nodes ∧ (h' x).state ≠ .live ↔ x ∈ counted nodes (fun x => (h x).count) ∧ x ∉ holders := by
    constructor
    · rintro ⟨member, left⟩
      by_contra stays
      refine left ?_
      have same : h' x = { h x with count := (h' x).count } := ledger.kept_same (o := x) (by tauto)
      rw [same]
      exact live x member
    · rintro ⟨member, outside⟩
      refine ⟨(mem_counted.mp member).1, fun alive => ?_⟩
      have gone : (h' x).state = .dead ∨ (h' x).state = .waitingForGc := ledger.lost_state (fun _ => rfl) member outside
      rw [alive] at gone
      exact gone.elim (by simp) (by simp)
  exact ⟨released, released.trans (lost x).symm⟩

/-- The count of an object that stays is lowered by the slots that are
released, and by one for the dropped handle. -/
theorem count_lowered (ledger : Ledger nodes kept (singleDrop h o) steps holders ⟨h', fun _ => ⟨0, .idle⟩⟩)
    (live : ∀ x ∈ nodes, (h x).state = .live)
    (counts : Counts nodes (fun x => (h x).count) (fun x => (h x).pointers) ({o} + kept)) (member : x ∈ nodes)
    (alive : (h' x).state = .live) :
    (h x).count = (h' x).count + slots (nodes.filter fun p => (h' p).state ≠ .live) (fun p => (h p).pointers) x +
      if x = o then 1 else 0 := by
  have drops : ∑ t, ((singleDrop h o).threads t).drops = {o} := Fintype.sum_unique _
  obtain ⟨exact, -⟩ := ledger.finish (by rw [drops]; exact counts) fun _ => rfl
  have gone : nodes.filter (fun p => (h' p).state ≠ .live) = counted nodes (fun x => (h x).count) \ holders := by
    ext p
    rw [Finset.mem_filter, Finset.mem_sdiff]
    exact (ledger.released_iff live counts).1
  have before : (h x).count = ({o} + kept).count x + slots nodes (fun x => (h x).pointers) x := counts.count_eq x member
  rw [gone]
  by_cases holder : x ∈ holders
  · have after : (h' x).count = (kept + floating nodes (fun x => (h x).count) fun x => (h x).pointers).count x +
        slots holders (fun x => (h' x).pointers) x := exact.count_eq x holder
    have same : slots holders (fun x => (h' x).pointers) x = slots holders (fun x => (h x).pointers) x :=
      slots_congr (fun p owner => ledger.pointers_same owner) x
    have parts : slots (counted nodes (fun x => (h x).count) \ holders) (fun x => (h x).pointers) x +
        slots holders (fun x => (h x).pointers) x = slots (counted nodes fun x => (h x).count) (fun x => (h x).pointers) x :=
      Finset.sum_sdiff ledger.losing.shrink
    rw [Counts.slots_split fun x => (h x).count, Multiset.count_add, Multiset.count_singleton] at before
    rw [Multiset.count_add] at after
    omega
  · have uncounted : x ∉ counted nodes fun x => (h x).count := fun again =>
      ((ledger.released_iff live counts).1.mpr ⟨again, holder⟩).2 alive
    have zero : (h x).count = 0 := by
      by_contra positive
      exact uncounted (mem_counted.mpr ⟨member, positive⟩)
    have settled : h' x = h x := ledger.evolves.settled x uncounted List.not_mem_nil
    have fewer : slots (counted nodes (fun x => (h x).count) \ holders) (fun x => (h x).pointers) x ≤
        slots nodes (fun x => (h x).pointers) x :=
      Finset.sum_le_sum_of_subset (Finset.sdiff_subset.trans (Finset.filter_subset _ _))
    rw [Multiset.count_add, Multiset.count_singleton] at before
    rw [settled]
    omega

end Ledger

/-- `decrement_reference_count` does not release more than it has to: objects that
keep each other alive stay. -/
theorem returns_decrement_sustained {holders : Finset Address} {h : Heap} {x : Address} {refs : Multiset Address}
    (exact : Exact holders h ({x} + refs)) (live : ∀ o ∈ holders, (h o).state = .live) :
    ∃ h', Returns (fun fuel => decrementReferenceCount fuel h x) h' ∧ ∃ holders', Released holders holders' h h' refs ∧
      ∀ s : Set Address, (∀ o ∈ s, o ∈ holders) → Sustained (fun p => (h p).pointers) refs s → ∀ o ∈ s, o ∈ holders' := by
  obtain ⟨h', returned, holders', released⟩ := returns_decrement exact live
  obtain ⟨fuel, run⟩ := id returned
  obtain ⟨events, trace⟩ := decrement_trace (run fuel le_rfl)
  obtain ⟨steps, _, ledger, _⟩ := trace.fates live exact.counts
  refine ⟨h', returned, holders', released, fun s inside sustained o member => ?_⟩
  by_contra outside
  have gone : (h' o).state ≠ .live := by
    obtain ⟨tree, waiting, _, covered⟩ := released.gone
    rcases covered o (inside o member) outside with waits | ⟨dead, _⟩
    · have state : (h' o).state = .waitingForGc := waiting.state o waits
      simp [state]
    · simp [dead]
  exact ((ledger.released_iff live exact.counts).2.mp ⟨inside o member, gone⟩).not_mem sustained inside member

/-- `decrement_reference_count` of an object with a handle, in a heap of live
objects whose counts are exact: the objects it takes out of state live are the
least set that it has to, every other object keeps its fields and loses the
references of those that left, and each that left goes to the collector if it
is suspected or its last reference was dropped by one that does. What the
collector gets is a forest of fields. -/
theorem release_cascade {nodes : Finset Address} {handles : Multiset Address} {h : Heap} {o : Address}
    (live : ∀ x ∈ nodes, (h x).state = .live)
    (counts : Counts nodes (fun x => (h x).count) (fun x => (h x).pointers) handles) (held : o ∈ handles) :
    ∃ h' events, Returns (fun fuel => decrementReferenceCount fuel h o) h' ∧ DropTrace h (.sub o) events h' .idle ∧
      (CascadeClosed nodes h handles o {x | x ∈ nodes ∧ (h' x).state ≠ .live} ∧
        ∀ released, CascadeClosed nodes h handles o released → {x | x ∈ nodes ∧ (h' x).state ≠ .live} ⊆ released) ∧
      (∀ x, x ∉ nodes → h' x = h x) ∧
      (∀ x ∈ nodes, (h' x).state = .live → h' x = { h x with count := (h' x).count } ∧ (h x).count =
        (h' x).count + slots (nodes.filter fun p => (h' p).state ≠ .live) (fun p => (h p).pointers) x +
          if x = o then 1 else 0) ∧
      (∀ x ∈ nodes, (h' x).state ≠ .live → ∃! source, .fetchSub source x 1 ∈ events ∧
        (((h x).Suspected ∨ ∃ p i, source = some (p, i) ∧ (h' p).state = .waitingForGc) ∧ (h' x).state = .waitingForGc ∨
          ¬((h x).Suspected ∨ ∃ p i, source = some (p, i) ∧ (h' p).state = .waitingForGc) ∧ (h' x).state = .dead)) ∧
      (∀ p ∈ nodes, (h' p).state = .waitingForGc → ∀ i, (h' p).field i ≠ 0 →
        (h' p).field i ∈ nodes ∧ (h' ((h' p).field i)).state = .waitingForGc ∧
          ∀ q ∈ nodes, (h' q).state = .waitingForGc → ∀ j, (h' q).field j = (h' p).field i → q = p ∧ j = i) := by
  obtain ⟨kept, rfl⟩ := Multiset.exists_cons_of_mem held
  rw [← Multiset.singleton_add] at counts ⊢
  have exact := counts.accounted
  rw [add_assoc] at exact
  obtain ⟨h', returned, -⟩ := returns_decrement exact fun x member => live x (mem_counted.mp member).1
  obtain ⟨fuel, run⟩ := returned
  obtain ⟨events, trace⟩ := decrement_trace (run fuel le_rfl)
  obtain ⟨steps, holders, ledger, same, fates⟩ := trace.fates live counts
  have released (x : Address) := ledger.released_iff (x := x) live counts
  have happened {source : Option (Address × Nat)} {x : Address} {previous : Nat} :
      .fetchSub source x previous ∈ events ↔ ((), some (.fetchSub source x previous)) ∈ steps := by
    rw [← same, List.mem_filterMap]
    constructor
    · rintro ⟨s, member, value⟩
      exact value ▸ member
    · exact fun member => ⟨_, member, rfl⟩
  have collects (x : Address) (waits : Waits h' .idle x) : (h' x).state = .waitingForGc :=
    (waits.resolve_left List.not_mem_nil).2
  have frees (x : Address) (dies : Dies h' .idle x) : (h' x).state = .dead := (dies.resolve_left List.not_mem_nil).2
  have left {p : Address} (waiting : (h' p).state = .waitingForGc) {i : Nat} (member : p ∈ nodes) (nonnull : (h' p).field i ≠ 0) :
      .fetchSub (some (p, i)) ((h' p).field i) 1 ∈ events :=
    fates.passed p member i (Or.inr ⟨List.not_mem_nil, waiting⟩) nonnull
  refine ⟨h', events, ⟨fuel, run⟩, trace, ⟨?_, fun others closed x left => ?_⟩, fun x outside => ?_,
    fun x member alive => ⟨?_, ledger.count_lowered live counts member alive⟩, fun x member gone => ?_,
    fun p member waiting i nonnull => ?_⟩
  · obtain ⟨first, next⟩ := lost_closed counts
    refine ⟨fun one => (released o).2.mpr (first one), fun x member unheld pointed below => ?_⟩
    exact (released x).2.mpr (next x member unheld pointed fun p owner edge => (released p).2.mp (below p owner edge))
  · exact lost_least counts closed.1 closed.2 ((released x).2.mp left)
  · exact ledger.evolves.settled x (fun counted => outside (mem_counted.mp counted).1) List.not_mem_nil
  · refine ledger.kept_same ?_
    by_contra stays
    have away : x ∈ counted nodes (fun x => (h x).count) ∧ x ∉ holders := by
      rw [not_or, not_not] at stays
      exact ⟨stays.2, stays.1⟩
    exact ((released x).1.mpr away).2 alive
  · obtain ⟨first, outside⟩ := (released x).1.mp ⟨member, gone⟩
    obtain ⟨_, source, taken⟩ := ledger.taken x first outside
    refine ⟨source, ⟨happened.mpr taken, ?_⟩, fun source' again => (ledger.unique (happened.mp again.1) taken).2⟩
    rcases fates.fate source x (happened.mpr taken) with ⟨why, waits⟩ | ⟨⟨plain, from_⟩, dies⟩
    · refine Or.inl ⟨why.imp_right ?_, collects x waits⟩
      rintro ⟨p, i, here, waits⟩
      exact ⟨p, i, here, collects p waits⟩
    · refine Or.inr ⟨not_or.mpr ⟨plain, ?_⟩, frees x dies⟩
      rintro ⟨p, i, here, waiting⟩
      rw [frees p (from_ p i here)] at waiting
      cases waiting
  · have event := left waiting member nonnull
    have inside := (mem_counted.mp (ledger.gone () _ _ (happened.mp event)).1).1
    refine ⟨inside, ?_, fun q owner waits j equal => ?_⟩
    · rcases fates.fate _ _ event with ⟨-, waits⟩ | ⟨⟨-, from_⟩, -⟩
      · exact collects _ waits
      · rw [frees p (from_ p i rfl)] at waiting
        cases waiting
    · have other := left waits owner (i := j) (by rw [equal]; exact nonnull)
      rw [equal] at other
      have source := (ledger.unique (happened.mp other) (happened.mp event)).2
      simpa using source

/-- A suspected object with the only handle, whose field holds the only
reference to a plain one. -/
def suspectedOwner : Heap :=
  Function.update (Function.update (fun _ => .zeroed) 16
    { count := 1, state := .live, asyncRelease := false, isCyclicType := false, lockFlag := false, typeInfo := 0, fields := [] })
    8 { count := 1, state := .live, asyncRelease := true, isCyclicType := true, lockFlag := false, typeInfo := 0, fields := [16] }

theorem release_cascade_suspectedOwner : ∃ h', Returns (fun fuel => decrementReferenceCount fuel suspectedOwner 8) h' ∧
    (h' 8).state = .waitingForGc ∧ (h' 16).state ≠ .live := by
  have both (x : Address) (member : x ∈ ({8, 16} : Finset Address)) : x = 8 ∨ x = 16 := by simpa using member
  have counts : Counts {8, 16} (fun x => (suspectedOwner x).count) (fun x => (suspectedOwner x).pointers) {8} := by
    refine ⟨fun x member => ?_, fun x member => by simp [Multiset.mem_singleton.mp member], fun p member x pointed => ?_⟩
    · rcases both x member with rfl | rfl <;> rfl
    · have inside := (HeapObject.mem_pointers.mp pointed).1
      rcases both p member with rfl | rfl
      · simp [List.mem_singleton.mp inside]
      · exact absurd inside List.not_mem_nil
  obtain ⟨h', _, run, -, ⟨closed, -⟩, -, -, fates, -⟩ := release_cascade (fun x member => by
    rcases both x member with rfl | rfl <;> rfl) counts (Multiset.mem_singleton_self 8)
  have owner := closed.1 rfl
  have child := closed.2 16 (by decide) (by decide) ⟨8, by decide, by decide⟩ fun p member pointed => by
    rcases both p member with rfl | rfl
    · exact owner
    · exact absurd (HeapObject.mem_pointers.mp pointed).1 List.not_mem_nil
  obtain ⟨_, ⟨_, fate⟩, -⟩ := fates 8 owner.1 owner.2
  refine ⟨h', run, (fate.resolve_right fun gone => gone.1 (Or.inl ⟨rfl, rfl⟩)).2, child.2⟩

end CatLa
