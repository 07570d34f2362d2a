import CatLa.Foundations.FuelLoop
import CatLa.Gc.HeapObject

namespace CatLa
open FuelLoop

/-- The memory and the collector's list of suspected objects. An
`unordered_set` is a list without repetitions; where it is iterated, the order
is an argument. -/
structure GcState where
  heap : Heap
  suspectedObjectList : List Address

/-- `add_suspected_object`. -/
def GcState.addSuspectedObject (m : GcState) (object : Address) : GcState :=
  { m with suspectedObjectList := m.suspectedObjectList.insert object }

/-- `increment_reference_count`. -/
def incrementReferenceCount (m : GcState) (object : Address) : GcState :=
  let previous := (m.heap object).count
  let m := { m with heap := m.heap.modify object .fetchAdd }
  if previous = 1 ∧ (m.heap object).isCyclicType then
    -- compare_exchange_strong from false to true
    if (m.heap object).asyncRelease = false then
      let m := { m with heap := m.heap.modify object fun o => { o with asyncRelease := true } }
      m.addSuspectedObject object
    else m
  else m

/-- The variables of `decrement_reference_count_waiting_gc_object`. Stacks and
vectors grow at the head of the list. -/
structure WaitingLoop where
  heap : Heap
  releaseObjects : List Address
  checkRoots : List Address
  checkObjects : List Address

/-- The body of the loop over `fields[i]`. -/
def waitingField (currentObject : Address) (s : WaitingLoop) (i : Nat) : WaitingLoop :=
  let fieldObject := (s.heap currentObject).field i
  if fieldObject = 0 then s
  else
    let previous := (s.heap fieldObject).count
    let heap := s.heap.modify fieldObject .fetchSub
    if previous = 1 then
      if (heap fieldObject).Suspected then
        { s with heap := heap.modify currentObject (·.setField i 0), checkRoots := fieldObject :: s.checkRoots }
      else { s with heap := heap, checkObjects := fieldObject :: s.checkObjects }
    else { s with heap := heap.modify currentObject (·.setField i 0) }

/-- One object of the inner loop: it joins `release_objects`, goes to
`process_gc`, and each of its fields is released. -/
def waitingObject (currentObject : Address) (s : WaitingLoop) : WaitingLoop :=
  let s := { s with releaseObjects := currentObject :: s.releaseObjects,
                    heap := s.heap.modify currentObject (·.setState .processGc) }
  (List.range (s.heap currentObject).fields.length).foldl (waitingField currentObject) s

/-- The inner `while (true)`, over `check_objects`. -/
def waitingInnerBody : Address × WaitingLoop → Option (Next (Address × WaitingLoop) WaitingLoop)
  | (currentObject, s) =>
    let s := waitingObject currentObject s
    match s.checkObjects with
    | [] => some (.done s)
    | next :: rest => some (.again (next, { s with checkObjects := rest }))

/-- The outer `while (true)`, over `check_roots`. `release_objects` is left to
the collector in the order in which its objects were visited. -/
def waitingOuterBody (fuel : Nat) : Address × Heap × List Address → Option (Next (Address × Heap × List Address) Heap)
  | (currentRoot, heap, checkRoots) =>
    let s : WaitingLoop := { heap := heap, releaseObjects := [], checkRoots := checkRoots, checkObjects := [] }
    (whileTrue waitingInnerBody fuel (currentRoot, s)).bind fun s =>
      let heap := s.releaseObjects.reverse.foldl (fun h o => h.modify o (·.setState .waitingForGc)) s.heap
      match s.checkRoots with
      | [] => some (.done heap)
      | next :: rest => some (.again (next, heap, rest))

/-- `decrement_reference_count_waiting_gc_object`. -/
def decrementReferenceCountWaitingGcObject (fuel : Nat) (heap : Heap) (object : Address) : Option Heap :=
  whileTrue (waitingOuterBody fuel) fuel (object, heap, [])

/-- The variables of the release loop of `decrement_reference_count`. -/
structure ReleaseLoop where
  heap : Heap
  checkObjects : List Address

/-- The body of the loop over `fields[i]`. A previous count of zero is only
reported by a `printf`. -/
def releaseField (fuel : Nat) (currentObject : Address) (s : ReleaseLoop) (i : Nat) : Option ReleaseLoop :=
  let fieldObject := (s.heap currentObject).field i
  if fieldObject = 0 then some s
  else
    let previous := (s.heap fieldObject).count
    let heap := s.heap.modify fieldObject .fetchSub
    if previous = 1 then
      if (heap fieldObject).Suspected then
        (decrementReferenceCountWaitingGcObject fuel heap fieldObject).map fun heap => { s with heap := heap }
      else some { heap := heap, checkObjects := fieldObject :: s.checkObjects }
    else some { s with heap := heap }

def releaseBody (fuel : Nat) : Address × ReleaseLoop → Option (Next (Address × ReleaseLoop) Heap)
  | (currentObject, s) =>
    let fieldLength := (s.heap currentObject).fields.length
    ((List.range fieldLength).foldlM (releaseField fuel currentObject) s).bind fun s =>
      let heap := s.heap.modify currentObject (·.setState .dead)
      match s.checkObjects with
      | [] => some (.done heap)
      | next :: rest => some (.again (next, { heap := heap, checkObjects := rest }))

/-- `decrement_reference_count`. -/
def decrementReferenceCount (fuel : Nat) (heap : Heap) (object : Address) : Option Heap :=
  let previous := (heap object).count
  let heap := heap.modify object .fetchSub
  if previous = 1 then
    if (heap object).Suspected then decrementReferenceCountWaitingGcObject fuel heap object
    else whileTrue (releaseBody fuel) fuel (object, { heap := heap, checkObjects := [] })
  else some heap

end CatLa
