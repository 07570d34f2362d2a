import CatLa.Heap.HeapAllocator
import Mathlib.Logic.Function.Basic
import Mathlib.Logic.Relation

namespace CatLa

open ByteMemory

/-- One store into an object. -/
structure WordStore where
  address : Nat
  size : Nat
  value : Nat
  deriving DecidableEq, Repr

def WordStore.apply (m : Memory) (w : WordStore) : Memory := store m w.address w.size w.value

/-- The stores into a cell that is returned, in the order of the source. -/
def objectStores (object typeInfo fieldLength : Nat) (isCyclicType : Bool) : List WordStore :=
  (List.range fieldLength).map (fun j => ⟨fieldAddress object j, 8, 0⟩) ++
    [⟨object + 32, 8, typeInfo⟩, ⟨object + 24, 8, fieldLength⟩, ⟨object + 17, 1, 0⟩,
      ⟨object + 16, 1, ObjectState.live.toByte.toNat⟩, ⟨object + 18, 1, isCyclicType.toNat⟩, ⟨object, 8, 1⟩]

/-- One after the other they write what `HeapChunk::malloc` writes. -/
theorem objectStores_writeObject (m : Memory) (object typeInfo fieldLength : Nat) (isCyclicType : Bool) :
    (objectStores object typeInfo fieldLength isCyclicType).foldl WordStore.apply m =
      writeObject m object typeInfo fieldLength isCyclicType := by
  rw [objectStores, List.foldl_append, List.foldl_map]
  rfl

/-- What is recorded about a run. -/
inductive AllocatorEvent
  | returned (object : Nat)
  | released (object : Nat)
  | created (chunk : HeapChunk)
  deriving DecidableEq, Repr

/-- The memory and the allocator that the threads share, with the start indices
that callers can pass; the latest event comes first. -/
structure SharedHeap where
  system : SystemMemory
  chunksCellsSize : Nat
  chunks : List HeapChunk
  numberOfChunks : Nat
  starts : List Nat
  events : List AllocatorEvent

/-- The arguments of one call, what it loads from `is_cycling_type`, and the
class it chooses. -/
structure MallocCall where
  typeInfo : Nat
  fieldsLength : Nat
  isCyclicType : Bool
  index : Nat
  blockSize : Nat

/-- The local variables of `HeapAllocator::malloc`. -/
structure ChunkLoop where
  call : MallocCall
  heapChunks : List HeapChunk
  cs : Nat
  i : Nat
  currentChunkIndex : Nat

/-- The local variables of `HeapChunk::malloc` around its inner loop. -/
structure ClassLoop where
  outer : ChunkLoop
  chunk : HeapChunk
  index : Nat
  blockSize : Nat

/-- The local variables of the inner loop; `left` cells are still looked at. -/
structure CellLoop where
  outer : ClassLoop
  left : Nat
  blockEntry : Nat
  currentEntry : Nat
  currentEntryIndex : Nat

/-- Where a thread is: each constructor is before one access to shared memory,
or one section under the lock. -/
inductive MallocControl
  | idle
  | snapshot (call : MallocCall) (currentChunkIndex : Nat)
  | nextChunk (loop : ChunkLoop)
  | append (loop : ChunkLoop) (chunk : HeapChunk)
  | testEmpty (loop : ClassLoop)
  | readCursor (loop : ClassLoop)
  | testState (loop : CellLoop)
  | exchange (loop : CellLoop)
  | writeCursor (loop : CellLoop)
  | initialise (loop : ChunkLoop) (object : Nat) (stores : List WordStore)
  | fullCursor (loop : CellLoop)
  | fullFlag (loop : ClassLoop)

/-- The snapshot of the array that a thread searches. -/
def MallocControl.chunkLoop : MallocControl → Option ChunkLoop
  | .idle => none
  | .snapshot _ _ => none
  | .nextChunk loop => some loop
  | .append loop _ => some loop
  | .testEmpty loop => some loop.outer
  | .readCursor loop => some loop.outer
  | .testState loop => some loop.outer.outer
  | .exchange loop => some loop.outer.outer
  | .writeCursor loop => some loop.outer.outer
  | .initialise loop _ _ => some loop
  | .fullCursor loop => some loop.outer.outer
  | .fullFlag loop => some loop.outer

def SharedHeap.setMemory (h : SharedHeap) (m : Memory) : SharedHeap := { h with system.memory := m }

/-- The chunk had no room: `current_chunk_index++`, `i++`. -/
def ChunkLoop.missed (loop : ChunkLoop) : MallocControl :=
  let next := if loop.currentChunkIndex + 1 = loop.cs then 0 else loop.currentChunkIndex + 1
  .nextChunk { loop with i := loop.i + 1, currentChunkIndex := next }

/-- `index++` and the next size; null behind the last class. -/
def ClassLoop.nextClass (loop : ClassLoop) : MallocControl :=
  match nextBlockSize loop.blockSize with
  | none => loop.outer.missed
  | some blockSize =>
    if loop.index + 1 = 13 then loop.outer.missed
    else .testEmpty { loop with index := loop.index + 1, blockSize := blockSize }

/-- The condition of the inner loop. -/
def CellLoop.enter (loop : CellLoop) : MallocControl := if loop.left = 0 then .fullCursor loop else .testState loop

/-- The next cell; the class starts over at its end. -/
def CellLoop.nextCell (loop : CellLoop) : MallocControl :=
  if loop.currentEntryIndex + 1 = loop.outer.chunk.cellsSize then
    CellLoop.enter { loop with left := loop.left - 1, currentEntry := loop.blockEntry, currentEntryIndex := 0 }
  else
    CellLoop.enter { loop with left := loop.left - 1, currentEntry := loop.currentEntry + loop.outer.blockSize,
                               currentEntryIndex := loop.currentEntryIndex + 1 }

/-- One step of a thread inside `malloc`. -/
def MallocControl.advance (system : SystemAllocator) (h : SharedHeap) : MallocControl → Option (SharedHeap × MallocControl)
  | .idle => none
  | .snapshot call current => some (h, .nextChunk ⟨call, h.chunks, h.numberOfChunks, 0, current⟩)
  | .nextChunk loop =>
    if loop.i = loop.cs then
      (createHeapChunk system h.system h.chunksCellsSize).map fun (chunk, s) => ({ h with system := s }, .append loop chunk)
    else
      match loop.heapChunks[loop.currentChunkIndex]? with
      | none => none
      | some chunk => some (h, .testEmpty ⟨loop, chunk, loop.call.index, loop.call.blockSize⟩)
  | .append loop chunk =>
    some ({ h with chunks := h.chunks.take h.numberOfChunks ++ [chunk], numberOfChunks := h.numberOfChunks + 1,
                   events := .created chunk :: h.events }, .snapshot loop.call loop.currentChunkIndex)
  | .testEmpty loop =>
    if emptyFlag h.system.memory (loop.chunk.blockInfo loop.index) = false then some (h, loop.nextClass)
    else some (h, .readCursor loop)
  | .readCursor loop =>
    let blockInfo := loop.chunk.blockInfo loop.index
    let blockEntry := entryPosition h.system.memory blockInfo
    let current := currentLocation h.system.memory blockInfo
    some (h, CellLoop.enter ⟨loop, loop.chunk.cellsSize, blockEntry, blockEntry + current * loop.blockSize, current⟩)
  | .testState loop =>
    if stateOf h.system.memory loop.currentEntry ≠ 0 then some (h, loop.nextCell) else some (h, .exchange loop)
  | .exchange loop =>
    match claimCell true h.system.memory loop.currentEntry with
    | none => some (h, loop.nextCell)
    | some m => some (h.setMemory m, .writeCursor loop)
  | .writeCursor loop =>
    let next := if loop.currentEntryIndex + 1 = loop.outer.chunk.cellsSize then 0 else loop.currentEntryIndex + 1
    let call := loop.outer.outer.call
    some (h.setMemory (store h.system.memory (loop.outer.chunk.blockInfo loop.outer.index + 16) 8 next),
      .initialise loop.outer.outer loop.currentEntry
        (objectStores loop.currentEntry call.typeInfo call.fieldsLength call.isCyclicType))
  | .initialise loop object (w :: rest) => some (h.setMemory (w.apply h.system.memory), .initialise loop object rest)
  | .initialise loop object [] =>
    some ({ h with starts := loop.currentChunkIndex :: h.starts, events := .returned object :: h.events }, .idle)
  | .fullCursor loop =>
    some (h.setMemory (store h.system.memory (loop.outer.chunk.blockInfo loop.outer.index + 16) 8 loop.currentEntryIndex),
      .fullFlag loop.outer)
  | .fullFlag loop =>
    some (h.setMemory (store h.system.memory (loop.chunk.blockInfo loop.index + 8) 1 0), loop.nextClass)

/-- A thread enters `malloc`; a request that fits no class returns null at once. -/
def MallocControl.enter (typeInfo fieldsLength : Nat) (isCyclicType : Bool) (start : Nat) : MallocControl :=
  match HeapAllocator.chooseBlock fieldsLength with
  | none => .idle
  | some (index, blockSize) => .snapshot ⟨typeInfo, fieldsLength, isCyclicType, index, blockSize⟩ start

/-- The object has been returned and not released since. -/
def Allocated (object : Nat) : List AllocatorEvent → Prop
  | [] => False
  | .returned other :: rest => other = object ∨ Allocated object rest
  | .released other :: rest => other ≠ object ∧ Allocated object rest
  | .created _ :: rest => Allocated object rest

/-- `state.store(object_state::dead)`. -/
def SharedHeap.release (h : SharedHeap) (object : Nat) : SharedHeap :=
  { h.setMemory (store h.system.memory (object + 16) 1 ObjectState.dead.toByte.toNat) with
    events := .released object :: h.events }

/-- One step of the system: a thread calls `malloc` or goes on with its call,
or an object that is allocated is released. -/
inductive SharedStep {ι : Type} [DecidableEq ι] (system : SystemAllocator) :
    SharedHeap × (ι → MallocControl) → SharedHeap × (ι → MallocControl) → Prop
  | call {h : SharedHeap} {threads : ι → MallocControl} (t : ι) (free : threads t = .idle)
      {typeInfo fieldsLength start : Nat} (isCyclicType : Bool) (short : fieldsLength < 2 ^ 60) (known : start ∈ h.starts) :
      SharedStep system (h, threads)
        (h, Function.update threads t (.enter typeInfo fieldsLength isCyclicType start))
  | run {h h' : SharedHeap} {threads : ι → MallocControl} {control : MallocControl} (t : ι)
      (step : (threads t).advance system h = some (h', control)) :
      SharedStep system (h, threads) (h', Function.update threads t control)
  | release {h : SharedHeap} {threads : ι → MallocControl} {object : Nat} (held : Allocated object h.events) :
      SharedStep system (h, threads) (h.release object, threads)

/-- The state after the constructor, with no call under way. -/
def SharedHeap.start (a : HeapAllocator) (s : SystemMemory) : SharedHeap :=
  { system := s, chunksCellsSize := a.chunksCellsSize, chunks := a.chunks, numberOfChunks := a.chunks.length,
    starts := [0], events := [] }

def MallocControl.isIdle : MallocControl → Bool
  | .idle => true
  | _ => false

/-- The threads take their steps in the given order. -/
def runSchedule {ι : Type} [DecidableEq ι] (system : SystemAllocator) (order : List ι)
    (start : SharedHeap × (ι → MallocControl)) : Option (SharedHeap × (ι → MallocControl)) :=
  order.foldlM (fun (h, threads) t =>
    ((threads t).advance system h).map fun (h, control) => (h, Function.update threads t control)) start

theorem runSchedule_run {ι : Type} [DecidableEq ι] {system : SystemAllocator} {order : List ι}
    {start last : SharedHeap × (ι → MallocControl)} (ran : runSchedule system order start = some last) :
    Relation.ReflTransGen (SharedStep system) start last := by
  induction order generalizing start with
  | nil =>
    cases ran
    exact .refl
  | cons t rest ih =>
    rw [runSchedule, List.foldlM_cons, Option.bind_eq_bind, Option.bind_eq_some_iff] at ran
    obtain ⟨next, first, ran⟩ := ran
    rw [Option.map_eq_some_iff] at first
    obtain ⟨⟨h, control⟩, step, same⟩ := first
    cases same
    exact (Relation.ReflTransGen.single (.run t step)).trans (ih ran)

end CatLa
