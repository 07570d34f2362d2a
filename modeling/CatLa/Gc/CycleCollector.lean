import CatLa.Gc.ReferenceCount

namespace CatLa
open FuelLoop

/-- `object_color`, in the order of the enumeration. -/
inductive ObjectColor
  | red
  | gray
  | white
  | black
  deriving DecidableEq, Repr

/-- The maps and the stack that the collector keeps for one root. -/
structure Marking where
  colorMap : Address → Option ObjectColor
  countMap : Address → Nat
  checkObjects : List Address

namespace Marking

/-- `color_map[o]`: a missing key reads as the first colour. -/
def color (s : Marking) (o : Address) : ObjectColor := (s.colorMap o).getD .red

def paint (s : Marking) (o : Address) (c : ObjectColor) : Marking :=
  { s with colorMap := Function.update s.colorMap o (some c) }

def setCount (s : Marking) (o : Address) (n : Nat) : Marking :=
  { s with countMap := Function.update s.countMap o n }

def push (s : Marking) (o : Address) : Marking := { s with checkObjects := o :: s.checkObjects }

end Marking

/-- The variables of the lock phase. -/
structure LockLoop where
  heap : Heap
  marking : Marking
  cycleObjects : List Address
  isCyclicRoot : Bool

/-- The body of the lock phase's loop over `fields[i]`. -/
def lockField (root : Address) (s : LockLoop) (fieldObject : Address) : LockLoop :=
  if fieldObject = 0 then s
  else
    match s.marking.colorMap fieldObject with
    | none => { s with marking := (s.marking.paint fieldObject .red).push fieldObject }
    | some _ => if fieldObject = root then { s with isCyclicRoot := true } else s

/-- One pass of the lock phase; `object_lock` spins on an object that is
locked already. -/
def lockBody (root : Address) : Address × LockLoop → Option (Next (Address × LockLoop) LockLoop)
  | (currentObject, s) =>
    if (s.heap currentObject).lockFlag then none
    else
      let s := { s with heap := s.heap.modify currentObject (·.setLock true),
                        cycleObjects := currentObject :: s.cycleObjects }
      let s := (s.heap currentObject).fields.foldl (lockField root) s
      match s.marking.checkObjects with
      | [] => some (.done s)
      | next :: rest => some (.again (next, { s with marking := { s.marking with checkObjects := rest } }))

/-- The body of the loop over `fields[i]` of "Mark gray". -/
def grayField (heap : Heap) (s : Marking) (fieldObject : Address) : Marking :=
  if fieldObject = 0 then s
  else if s.color fieldObject = .gray then
    let previousRc := s.countMap fieldObject
    if previousRc > 0 then s.setCount fieldObject (previousRc - 1) else s
  else
    ((s.paint fieldObject .gray).push fieldObject).setCount fieldObject
      (HeapObject.sizePred (heap fieldObject).count)

def grayBody (heap : Heap) : Address × Marking → Option (Next (Address × Marking) Marking)
  | (currentObject, s) =>
    let s := (heap currentObject).fields.foldl (grayField heap) s
    match s.checkObjects with
    | [] => some (.done s)
    | next :: rest => some (.again (next, { s with checkObjects := rest }))

/-- "Mark gray". -/
def markGray (fuel : Nat) (heap : Heap) (root : Address) (s : Marking) : Option Marking :=
  whileTrue (grayBody heap) fuel (root, (s.setCount root (heap root).count).paint root .gray)

/-- The body of the loop over `fields[i]` of "Mark white or black". -/
def colorField (currentObjectColor : ObjectColor) (s : Marking) (fieldObject : Address) : Marking :=
  if fieldObject = 0 then s
  else
    let fieldObjectColor := s.color fieldObject
    let fieldObjectRc := s.countMap fieldObject
    match currentObjectColor with
    | .white =>
      if fieldObjectRc = 0 then
        if fieldObjectColor = .gray then (s.paint fieldObject .white).push fieldObject else s
      else
        let s := if fieldObjectColor ≠ .black then s.push fieldObject else s
        s.paint fieldObject .black
    | .black =>
      let s := s.setCount fieldObject (fieldObjectRc + 1)
      if fieldObjectColor ≠ .black then (s.paint fieldObject .black).push fieldObject else s
    | _ => s

def colorBody (heap : Heap) : Address × Marking → Option (Next (Address × Marking) Marking)
  | (currentObject, s) =>
    let currentObjectColor := s.color currentObject
    let s := (heap currentObject).fields.foldl (colorField currentObjectColor) s
    match s.checkObjects with
    | [] => some (.done s)
    | next :: rest => some (.again (next, { s with checkObjects := rest }))

/-- The colour that "Mark white or black" starts the root with. -/
def colorRoot (root : Address) (s : Marking) : Marking :=
  if s.countMap root = 0 then s.paint root .white else s.paint root .black

/-- "Mark white or black". -/
def markWhiteOrBlack (fuel : Nat) (heap : Heap) (root : Address) (s : Marking) : Option Marking :=
  whileTrue (colorBody heap) fuel (root, colorRoot root s)

/-- The variables of the search below a root that is on no cycle. -/
structure NonCycleLoop where
  nonCycleObjects : List Address
  checkObjects : List Address

def nonCycleField (objects stack : List Address) (fieldObject : Address) : List Address :=
  if fieldObject ≠ 0 ∧ fieldObject ∉ objects then fieldObject :: stack else stack

/-- One pass of that search. It ends with the objects found, or with nothing
when one of them is not waiting for the collector. -/
def nonCycleBody (heap : Heap) :
    Address × NonCycleLoop → Option (Next (Address × NonCycleLoop) (Option (List Address)))
  | (currentObject, s) =>
    if (heap currentObject).state ≠ .waitingForGc then some (.done none)
    else
      let objects := s.nonCycleObjects.insert currentObject
      let stack := (heap currentObject).fields.foldl (nonCycleField objects) s.checkObjects
      match stack with
      | [] => some (.done (some objects))
      | next :: rest => some (.again (next, { nonCycleObjects := objects, checkObjects := rest }))

/-- The variables of the loop over the roots. -/
structure CollectLoop where
  heap : Heap
  releaseObjects : List Address

/-- "Collect white", for one object of `cycle_objects`. -/
def collectWhite (marking : Marking) (s : CollectLoop) (object : Address) : CollectLoop :=
  if marking.color object = .white then
    { heap := s.heap.modify object (·.setState .waitingForGc), releaseObjects := s.releaseObjects.insert object }
  else s

def unlockObjects (objects : List Address) (heap : Heap) : Heap :=
  objects.foldl (fun h o => h.modify o (·.setLock false)) heap

/-- One root of `gc_collect`. -/
def collectRoot (fuel : Nat) (s : CollectLoop) (root : Address) : Option CollectLoop :=
  let marking : Marking :=
    { colorMap := Function.update (fun _ => none) root (some .red), countMap := fun _ => 0, checkObjects := [] }
  (whileTrue (lockBody root) fuel
    (root, { heap := s.heap, marking := marking, cycleObjects := [], isCyclicRoot := false })).bind fun l =>
  if l.isCyclicRoot then
    (markGray fuel l.heap root l.marking).bind fun marking =>
    (markWhiteOrBlack fuel l.heap root marking).bind fun marking =>
    let s := l.cycleObjects.foldl (collectWhite marking) { s with heap := l.heap }
    some { s with heap := unlockObjects l.cycleObjects s.heap }
  else
    let heap := unlockObjects l.cycleObjects l.heap
    (whileTrue (nonCycleBody heap) fuel (root, { nonCycleObjects := [], checkObjects := [] })).map fun
      | none => { s with heap := heap }
      | some objects =>
        { heap := heap, releaseObjects := objects.foldl (fun released o => released.insert o) s.releaseObjects }

/-- The variables of the release phase: the list the collection started with
and the new one. -/
structure ReleasePhase where
  heap : Heap
  roots : List Address
  suspectedObjectList : List Address

/-- The body of the release phase's loop over `fields[i]`. -/
def releaseChild (fuel : Nat) (object : Address) (s : ReleasePhase) (i : Nat) : Option ReleasePhase :=
  let fieldObject := (s.heap object).field i
  if fieldObject = 0 then some s
  else if (s.heap fieldObject).state = .live then
    (decrementReferenceCount fuel s.heap fieldObject).map fun heap => { s with heap := heap }
  else some s

/-- One object of the release phase. -/
def releaseObject (fuel : Nat) (s : ReleasePhase) (object : Address) : Option ReleasePhase :=
  let s := { s with roots := s.roots.erase object }
  let s :=
    if (s.heap object).Suspected then { s with suspectedObjectList := s.suspectedObjectList.erase object } else s
  (List.range (s.heap object).fields.length).foldlM (releaseChild fuel object) s

/-- The order in which an `unordered_set` is iterated. -/
structure IterationOrder where
  arrange : List Address → List Address
  perm : ∀ set, (arrange set).Perm set

/-- `gc_collect`. -/
def gcCollect (rootOrder releaseOrder : IterationOrder) (fuel : Nat) (m : GcState) : Option GcState :=
  let roots := m.suspectedObjectList
  ((rootOrder.arrange roots).foldlM (collectRoot fuel) { heap := m.heap, releaseObjects := [] }).bind fun c =>
  let releaseObjects := releaseOrder.arrange c.releaseObjects
  (releaseObjects.foldlM (releaseObject fuel)
    { heap := c.heap, roots := roots, suspectedObjectList := [] }).bind fun s =>
  let heap := releaseObjects.foldl (fun h o => h.modify o (·.setState .dead)) s.heap
  some { heap := heap,
         suspectedObjectList := (rootOrder.arrange s.roots).foldl (fun list o => list.insert o) s.suspectedObjectList }

end CatLa
