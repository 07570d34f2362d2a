import CatLa.Gc.ReleaseCascade

namespace CatLa

/-- What one access of a release does to memory: a `fetch_sub`, with the field
that the reference comes from and the previous count, or a store to `state`. -/
inductive ReleaseEvent
  | fetchSub (source : Option (Address × Nat)) (object : Address) (previous : Nat)
  | stateStore (object : Address) (state : ObjectState)
  deriving DecidableEq, Repr

/-- The access that `decrement_reference_count_waiting_gc_object` makes next:
the store of `process_gc`, the load of `fields[i]`, the `fetch_sub`, the load of
`async_release`, the store of a null into `fields[i]`, or the store of
`waiting_for_gc` to the objects that are left. -/
inductive WaitingAccess
  | visit (currentObject : Address)
  | read (currentObject : Address) (i : Nat)
  | sub (currentObject : Address) (i : Nat) (fieldObject : Address)
  | test (currentObject : Address) (i : Nat) (fieldObject : Address)
  | clear (currentObject : Address) (i : Nat) (root : Option Address)
  | mark (objects : List Address)

/-- The local variables of that function. -/
structure WaitingCall where
  access : WaitingAccess
  releaseObjects : List Address
  checkObjects : List Address
  checkRoots : List Address

/-- The call for `root`, before its first access. -/
def WaitingCall.make (root : Address) (checkRoots : List Address) : WaitingCall :=
  { access := .visit root, releaseObjects := [], checkObjects := [], checkRoots := checkRoots }

/-- One access of the function; there is no call left when it returns. -/
def WaitingCall.advance (h : Heap) (f : WaitingCall) : Heap × Option WaitingCall :=
  match f.access with
  | .visit currentObject =>
    (h.modify currentObject (·.setState .processGc),
      some { f with access := .read currentObject 0, releaseObjects := currentObject :: f.releaseObjects })
  | .read currentObject i =>
    if i < (h currentObject).fields.length then
      let fieldObject := (h currentObject).field i
      if fieldObject = 0 then (h, some { f with access := .read currentObject (i + 1) })
      else (h, some { f with access := .sub currentObject i fieldObject })
    else
      match f.checkObjects with
      | [] => (h, some { f with access := .mark f.releaseObjects.reverse })
      | next :: rest => (h, some { f with access := .visit next, checkObjects := rest })
  | .sub currentObject i fieldObject =>
    if (h fieldObject).count = 1 then
      (h.modify fieldObject .fetchSub, some { f with access := .test currentObject i fieldObject })
    else (h.modify fieldObject .fetchSub, some { f with access := .clear currentObject i none })
  | .test currentObject i fieldObject =>
    if (h fieldObject).Suspected then (h, some { f with access := .clear currentObject i (some fieldObject) })
    else (h, some { f with access := .read currentObject (i + 1), checkObjects := fieldObject :: f.checkObjects })
  | .clear currentObject i root =>
    (h.modify currentObject (·.setField i 0),
      some { f with access := .read currentObject (i + 1), checkRoots := root.toList ++ f.checkRoots })
  | .mark (object :: objects) => (h.modify object (·.setState .waitingForGc), some { f with access := .mark objects })
  | .mark [] =>
    match f.checkRoots with
    | [] => (h, none)
    | next :: rest => (h, some (.make next rest))

/-- What that access does. -/
def WaitingCall.event (h : Heap) (f : WaitingCall) : Option ReleaseEvent :=
  match f.access with
  | .visit currentObject => some (.stateStore currentObject .processGc)
  | .sub currentObject i fieldObject => some (.fetchSub (some (currentObject, i)) fieldObject (h fieldObject).count)
  | .mark (object :: _) => some (.stateStore object .waitingForGc)
  | _ => none

/-- The access that the release loop of `decrement_reference_count` makes next. -/
inductive ReleaseAccess
  | read (i : Nat)
  | sub (i : Nat) (fieldObject : Address)
  | test (i : Nat) (fieldObject : Address)
  | waiting (i : Nat) (call : WaitingCall)
  | free

/-- The local variables of that loop. -/
structure ReleaseCall where
  access : ReleaseAccess
  currentObject : Address
  checkObjects : List Address

def ReleaseCall.make (object : Address) (checkObjects : List Address) : ReleaseCall :=
  { access := .read 0, currentObject := object, checkObjects := checkObjects }

/-- One access of the loop. -/
def ReleaseCall.advance (h : Heap) (f : ReleaseCall) : Heap × Option ReleaseCall :=
  match f.access with
  | .read i =>
    if i < (h f.currentObject).fields.length then
      let fieldObject := (h f.currentObject).field i
      if fieldObject = 0 then (h, some { f with access := .read (i + 1) })
      else (h, some { f with access := .sub i fieldObject })
    else (h, some { f with access := .free })
  | .sub i fieldObject =>
    if (h fieldObject).count = 1 then (h.modify fieldObject .fetchSub, some { f with access := .test i fieldObject })
    else (h.modify fieldObject .fetchSub, some { f with access := .read (i + 1) })
  | .test i fieldObject =>
    if (h fieldObject).Suspected then (h, some { f with access := .waiting i (.make fieldObject []) })
    else (h, some { f with access := .read (i + 1), checkObjects := fieldObject :: f.checkObjects })
  | .waiting i call =>
    match call.advance h with
    | (h, some call) => (h, some { f with access := .waiting i call })
    | (h, none) => (h, some { f with access := .read (i + 1) })
  | .free =>
    let h := h.modify f.currentObject (·.setState .dead)
    match f.checkObjects with
    | [] => (h, none)
    | next :: rest => (h, some (.make next rest))

def ReleaseCall.event (h : Heap) (f : ReleaseCall) : Option ReleaseEvent :=
  match f.access with
  | .sub i fieldObject => some (.fetchSub (some (f.currentObject, i)) fieldObject (h fieldObject).count)
  | .waiting _ call => call.event h
  | .free => some (.stateStore f.currentObject .dead)
  | _ => none

/-- Where a thread is inside `decrement_reference_count`. -/
inductive DropControl
  | idle
  | sub (object : Address)
  | test (object : Address)
  | release (call : ReleaseCall)
  | waiting (call : WaitingCall)

/-- One access of `decrement_reference_count`. -/
def DropControl.advance (h : Heap) : DropControl → Option (Heap × DropControl)
  | .idle => none
  | .sub object => some (h.modify object .fetchSub, if (h object).count = 1 then .test object else .idle)
  | .test object =>
    some (h, if (h object).Suspected then .waiting (.make object []) else .release (.make object []))
  | .release call => some ((call.advance h).1, (call.advance h).2.elim .idle .release)
  | .waiting call => some ((call.advance h).1, (call.advance h).2.elim .idle .waiting)

def DropControl.event (h : Heap) : DropControl → Option ReleaseEvent
  | .idle => none
  | .sub object => some (.fetchSub none object (h object).count)
  | .test _ => none
  | .release call => call.event h
  | .waiting call => call.event h

/-- The accesses of one thread that runs alone, with what they do. -/
inductive DropTrace (h : Heap) (control : DropControl) : List ReleaseEvent → Heap → DropControl → Prop
  | start : DropTrace h control [] h control
  | step {events : List ReleaseEvent} {h' h'' : Heap} {control' control'' : DropControl}
      (trace : DropTrace h control events h' control') (advanced : control'.advance h' = some (h'', control'')) :
      DropTrace h control (events ++ (control'.event h').toList) h'' control''

/-- A thread, with the references that it still has to drop. -/
structure DropThread where
  drops : Multiset Address
  control : DropControl

/-- Any number of threads that drop references. -/
structure DropConfig (ι : Type) where
  heap : Heap
  threads : ι → DropThread

def DropConfig.set {ι : Type} [DecidableEq ι] (c : DropConfig ι) (t : ι) (heap : Heap) (thread : DropThread) :
    DropConfig ι :=
  { heap := heap, threads := Function.update c.threads t thread }

/-- One step of one thread: the call of `decrement_reference_count`, or an
access. -/
inductive DropStep {ι : Type} [DecidableEq ι] (c : DropConfig ι) (t : ι) : Option ReleaseEvent → DropConfig ι → Prop
  | call {object : Address} {drops : Multiset Address} (idle : c.threads t = ⟨{object} + drops, .idle⟩) :
      DropStep c t none (c.set t c.heap ⟨drops, .sub object⟩)
  | advance {next : Heap × DropControl} (advanced : (c.threads t).control.advance c.heap = some next) :
      DropStep c t ((c.threads t).control.event c.heap) (c.set t next.1 ⟨(c.threads t).drops, next.2⟩)

/-- A run, with the thread and the event of each of its steps. -/
inductive DropRun {ι : Type} [DecidableEq ι] (start : DropConfig ι) :
    List (ι × Option ReleaseEvent) → DropConfig ι → Prop
  | start : DropRun start [] start
  | step {steps : List (ι × Option ReleaseEvent)} {c c' : DropConfig ι} {t : ι} {event : Option ReleaseEvent}
      (run : DropRun start steps c) (step : DropStep c t event c') : DropRun start (steps ++ [(t, event)]) c'

/-- Every thread has dropped all of its references. -/
def DropConfig.Finished {ι : Type} (c : DropConfig ι) : Prop := ∀ t, c.threads t = ⟨0, .idle⟩

end CatLa
