import CatLa.Heap.ChunkMalloc

namespace CatLa

open ByteMemory FuelLoop

/-- `number_of_chunks` is the length of `chunks`; the back pointer to the
virtual machine is left out. -/
structure HeapAllocator where
  isThreadSafe : Bool
  chunksCellsSize : Nat
  chunks : List HeapChunk
  deriving DecidableEq, Repr

/-- `sizeof(HeapChunk)`. -/
def sizeofHeapChunk : Nat := 16

/-- The constructor: a block for the `HeapChunk`s themselves, whose size wraps,
then the chunks. The `HeapChunk`s and the array of them are kept as values. -/
def HeapAllocator.make (system : SystemAllocator) (s : SystemMemory) (isThreadSafe : Bool)
    (chunksCellsSize numberOfChunks : Nat) : Option (HeapAllocator × SystemMemory) :=
  let entrySize := (sizeofHeapChunk + chunkBytes chunksCellsSize) * numberOfChunks % 2 ^ 64
  match system.calloc s.blocks entrySize with
  | none => none
  | some entry =>
    (List.range numberOfChunks).foldlM (fun (a, s) _ =>
        (createHeapChunk system s chunksCellsSize).map fun (chunk, s) => ({ a with chunks := a.chunks ++ [chunk] }, s))
      (⟨isThreadSafe, chunksCellsSize, []⟩, ⟨clear s.memory entry entrySize, ⟨entry, entrySize⟩ :: s.blocks⟩)

/-- The sizes that the constructor computes do not wrap. -/
structure HeapAllocator.SizesFit (chunksCellsSize numberOfChunks : Nat) : Prop where
  chunk : chunkBytes chunksCellsSize < 2 ^ 64
  entry : (sizeofHeapChunk + chunkBytes chunksCellsSize) * numberOfChunks < 2 ^ 64

namespace HeapAllocator

/-- `create_new_chunk`: the array is copied and gets one more chunk. -/
def createNewChunk (system : SystemAllocator) (s : SystemMemory) (a : HeapAllocator) : Option (HeapAllocator × SystemMemory) :=
  (createHeapChunk system s a.chunksCellsSize).map fun (chunk, s) => ({ a with chunks := a.chunks ++ [chunk] }, s)

/-- The class for an object with `fieldsLength` fields and the size of its
cells; none where `malloc` returns null. -/
def chooseBlock (fieldsLength : Nat) : Option (Nat × Nat) :=
  let byteSize := (sizeofHeapObject + fieldsLength <<< 3) % 2 ^ 64
  if byteSize < 96 then
    let index :=
      if byteSize ≤ 32 then 0
      else
        let temp := byteSize - 32
        if temp &&& 0b111 = 0 then temp >>> 3 else temp >>> 3 + 1
    some (index, 32 + index <<< 3)
  else if byteSize ≤ 512 then
    let indexTemp :=
      if byteSize ≤ 128 then 0
      else
        let temp := byteSize - 128
        if temp &&& 0b1111111 = 0 then temp >>> 7 else temp >>> 7 + 1
    some (indexTemp + 9, 128 + indexTemp <<< 7)
  else none

/-- The state of the two nested loops of `malloc`. `heapChunks` is the array
that the search goes over; its length is `cs`. -/
structure Search where
  system : SystemMemory
  allocator : HeapAllocator
  heapChunks : List HeapChunk
  i : Nat
  currentChunkIndex : Nat

/-- What `malloc` returns, the start index it leaves, and the state after it. -/
structure Allocation where
  address : Option Nat
  chunkSearchStartIndex : Nat
  system : SystemMemory
  allocator : HeapAllocator

section Malloc

variable (system : SystemAllocator) (isCyclingType : Nat → Bool) (typeInfo fieldsLength : Nat)

/-- One pass through the inner loop. Once every chunk has been asked a new one
is created, the array is read again and the inner loop starts over. -/
def mallocPass (index blockSize : Nat) (s : Search) : Option (Next Search Allocation) :=
  if s.i = s.heapChunks.length then
    (createNewChunk system s.system s.allocator).map fun (allocator, system) =>
      .again ⟨system, allocator, allocator.chunks, 0, s.currentChunkIndex⟩
  else
    match s.heapChunks[s.currentChunkIndex]? with
    | none => none
    | some chunk =>
      match chunk.malloc isCyclingType s.system.memory typeInfo index blockSize fieldsLength s.allocator.isThreadSafe with
      | none => none
      | some (some address, memory) =>
        some (.done ⟨some address, s.currentChunkIndex, { s.system with memory := memory }, s.allocator⟩)
      | some (none, memory) =>
        let next := if s.currentChunkIndex + 1 = s.heapChunks.length then 0 else s.currentChunkIndex + 1
        some (.again { s with system := { s.system with memory := memory }, i := s.i + 1, currentChunkIndex := next })

/-- `HeapAllocator::malloc` of an allocator that no other thread uses. -/
def malloc (fuel : Nat) (s : SystemMemory) (a : HeapAllocator) (chunkSearchStartIndex : Nat) : Option Allocation :=
  match chooseBlock fieldsLength with
  | none => some ⟨none, chunkSearchStartIndex, s, a⟩
  | some (index, blockSize) =>
    whileTrue (mallocPass system isCyclingType typeInfo fieldsLength index blockSize) fuel
      ⟨s, a, a.chunks, 0, chunkSearchStartIndex⟩

end Malloc

theorem chooseBlock_none {fieldsLength : Nat} (small : objectSize fieldsLength < 2 ^ 64) :
    chooseBlock fieldsLength = none ↔ 512 < objectSize fieldsLength := by
  have bytes : (sizeofHeapObject + fieldsLength <<< 3) % 2 ^ 64 = objectSize fieldsLength := by
    rw [Nat.shiftLeft_eq, Nat.mul_comm]
    exact Nat.mod_eq_of_lt small
  unfold chooseBlock
  rw [bytes]
  dsimp only
  split
  · simp only [reduceCtorEq, false_iff]
    omega
  · split
    · simp only [reduceCtorEq, false_iff]
      omega
    · simp only [true_iff]
      omega

/-- The class that is chosen has room for the object, and its index and its
size belong together. -/
theorem chooseBlock_spec {fieldsLength index size : Nat} (short : fieldsLength < 2 ^ 60)
    (chosen : chooseBlock fieldsLength = some (index, size)) :
    0 < index ∧ index < numberOfBlocks ∧ size = blockSize index ∧ objectSize fieldsLength ≤ blockSize index := by
  have bytes : (sizeofHeapObject + fieldsLength <<< 3) % 2 ^ 64 = objectSize fieldsLength := by
    rw [Nat.shiftLeft_eq, Nat.mul_comm, objectSize, sizeofHeapObject]
    exact Nat.mod_eq_of_lt (by omega)
  have few : fieldsLength < 60 := by
    by_contra many
    rw [chooseBlock, bytes, objectSize, sizeofHeapObject, if_neg (by omega), if_neg (by omega)] at chosen
    cases chosen
  have table : ∀ n, n < 60 → ∀ c ∈ chooseBlock n,
      0 < c.1 ∧ c.1 < numberOfBlocks ∧ c.2 = blockSize c.1 ∧ objectSize n ≤ blockSize c.1 := by
    decide +kernel
  exact table fieldsLength few (index, size) chosen

end HeapAllocator

/-- What holds of an allocator between two calls. -/
structure HeapAllocator.Sound (s : SystemMemory) (a : HeapAllocator) : Prop where
  small : chunkBytes a.chunksCellsSize < 2 ^ 64
  chunk : ∀ c ∈ a.chunks, c.Sound s.memory
  cells : ∀ c ∈ a.chunks, c.cellsSize = a.chunksCellsSize
  listed : ∀ c ∈ a.chunks, c.block ∈ s.blocks
  apart : a.chunks.Pairwise fun c d => Apart c.block.start c.block.size d.block.start d.block.size

/-- A cell by the index of its chunk, its class and its index in the class. -/
structure Cell where
  chunk : Nat
  block : Nat
  index : Nat
  deriving DecidableEq, Repr

/-- `address` is where `cell` of the allocator starts. -/
def HeapAllocator.CellAt (a : HeapAllocator) (cell : Cell) (address : Nat) : Prop :=
  ∃ chunk, a.chunks[cell.chunk]? = some chunk ∧ cell.block < numberOfBlocks ∧ cell.index < chunk.cellsSize ∧
    address = chunk.cell cell.block cell.index

namespace HeapAllocator.Sound

variable {s : SystemMemory} {a : HeapAllocator} {c d : HeapChunk} {n p : Nat}

theorem blocks_apart (sound : a.Sound s) (left : a.chunks[n]? = some c) (right : a.chunks[p]? = some d)
    (different : n ≠ p) : Apart c.block.start c.block.size d.block.start d.block.size := by
  obtain ⟨inLeft, rfl⟩ := List.getElem?_eq_some_iff.mp left
  obtain ⟨inRight, rfl⟩ := List.getElem?_eq_some_iff.mp right
  rcases Nat.lt_or_gt_of_ne different with before | after
  · exact List.pairwise_iff_getElem.mp sound.apart n p inLeft inRight before
  · exact (List.pairwise_iff_getElem.mp sound.apart p n inRight inLeft after).symm

theorem off_block (sound : a.Sound s) (left : a.chunks[n]? = some c) (right : a.chunks[p]? = some d)
    (different : n ≠ p) {b : Nat} (member : c.InBlock b) : ¬d.InBlock b := by
  have apart : Apart c.start (chunkBytes c.cellsSize) d.start (chunkBytes d.cellsSize) :=
    sound.blocks_apart left right different
  unfold HeapChunk.InBlock Range Apart at *
  omega

/-- The bytes of a cell are those of its chunk. -/
theorem cell_inBlock (sound : a.Sound s) {cell : Cell} {address b : Nat} (left : a.chunks[cell.chunk]? = some c)
    (held : a.CellAt cell address) (member : Range address (blockSize cell.block) b) : c.InBlock b := by
  obtain ⟨chunk, atChunk, bound, inside, rfl⟩ := held
  obtain rfl : c = chunk := Option.some.inj (left.symm.trans atChunk)
  exact (sound.chunk c (List.mem_of_getElem? left)).placed.inCell bound inside member

/-- No byte of a cell is a byte of a table. -/
theorem cell_off_table (sound : a.Sound s) {cell : Cell} {address b : Nat} (held : a.CellAt cell address)
    (right : a.chunks[p]? = some d) (member : Range address (blockSize cell.block) b) : ¬d.InTable b := by
  obtain ⟨chunk, atChunk, bound, inside, rfl⟩ := id held
  have placed := (sound.chunk d (List.mem_of_getElem? right)).placed
  by_cases same : cell.chunk = p
  · obtain rfl : chunk = d := Option.some.inj (atChunk.symm.trans (same ▸ right))
    exact placed.cell_off_table bound inside member
  · exact fun inTable => sound.off_block atChunk right same (sound.cell_inBlock atChunk held member) (placed.inTable inTable)

/-- Two different cells of an allocator have no byte in common. -/
theorem cells_apart (sound : a.Sound s) {left right : Cell} {leftStart rightStart : Nat}
    (atLeft : a.CellAt left leftStart) (atRight : a.CellAt right rightStart) (different : left ≠ right) :
    Apart leftStart (blockSize left.block) rightStart (blockSize right.block) := by
  obtain ⟨c, atC, boundLeft, insideLeft, rfl⟩ := id atLeft
  obtain ⟨d, atD, boundRight, insideRight, rfl⟩ := id atRight
  by_cases same : left.chunk = right.chunk
  · obtain rfl : c = d := Option.some.inj (atC.symm.trans (same ▸ atD))
    refine HeapChunk.cells_apart insideLeft insideRight fun equal => different ?_
    obtain ⟨block, index⟩ := Prod.mk.inj equal
    cases left
    cases right
    simp_all
  · have placedLeft := (sound.chunk c (List.mem_of_getElem? atC)).placed
    have placedRight := (sound.chunk d (List.mem_of_getElem? atD)).placed
    have endLeft := placedLeft.cell_before_table boundLeft insideLeft
    have endRight := placedRight.cell_before_table boundRight insideRight
    have lastLeft := placedLeft.block_end
    have lastRight := placedRight.block_end
    have apart : Apart c.start (chunkBytes c.cellsSize) d.start (chunkBytes d.cellsSize) :=
      sound.blocks_apart atC atD same
    exact apart.within ⟨HeapChunk.Placed.start_le_cell c _ _, by omega⟩ ⟨HeapChunk.Placed.start_le_cell d _ _, by omega⟩

end HeapAllocator.Sound

/-- What one call of `malloc` does when it returns `address`: `chunk` has the
cell, and `searched` is the memory when its classes are searched. Up to there
only tables have changed and new chunks have been created. -/
structure MallocContract (before : SystemMemory) (a : HeapAllocator) (after : SystemMemory) (a' : HeapAllocator)
    (isCyclingType : Nat → Bool) (typeInfo fieldsLength address : Nat) (cell : Cell) (chunk : HeapChunk)
    (searched : Memory) : Prop where
  held : a'.chunks[cell.chunk]? = some chunk
  block : cell.block < numberOfBlocks
  index : cell.index < chunk.cellsSize
  start : address = entryPosition after.memory (chunk.blockInfo cell.block) + cell.index * blockSize cell.block
  nonnull : 0 < address
  size : objectSize fieldsLength ≤ blockSize cell.block
  region : address + blockSize cell.block ≤
    entryPosition after.memory (chunk.blockInfo cell.block) + chunk.cellsSize * blockSize cell.block
  table : entryPosition after.memory (chunk.blockInfo cell.block) + chunk.cellsSize * blockSize cell.block ≤
    chunk.blockInfoList
  apart : ∀ other start, a'.CellAt other start → other ≠ cell →
    Apart address (blockSize cell.block) start (blockSize other.block)
  dead : stateOf searched address = ObjectState.dead.toByte
  searching : ∀ other start, a.CellAt other start → ∀ b, Range start (blockSize other.block) b →
    searched b = before.memory b
  others : ∀ other start, a'.CellAt other start → other ≠ cell → ∀ b, Range start (blockSize other.block) b →
    after.memory b = searched b
  written : ObjectWritten searched after.memory address typeInfo fieldsLength (isCyclingType typeInfo)

section Search

variable {system : SystemAllocator} {isCyclingType : Nat → Bool} {s s' : SystemMemory} {a a' : HeapAllocator}
  {c : HeapChunk} {n typeInfo fieldsLength : Nat}

/-- A later state of an allocator: chunks have been added, and the cells that
there were have kept their bytes. -/
structure Later (s : SystemMemory) (a : HeapAllocator) (s' : SystemMemory) (a' : HeapAllocator) : Prop where
  chunks : a.chunks <+: a'.chunks
  threadSafe : a'.isThreadSafe = a.isThreadSafe
  cellsSize : a'.chunksCellsSize = a.chunksCellsSize
  cells : ∀ cell start, a.CellAt cell start → ∀ b, Range start (blockSize cell.block) b → s'.memory b = s.memory b

theorem Later.cellAt (later : Later s a s' a') {cell : Cell} {start : Nat} (held : a.CellAt cell start) :
    a'.CellAt cell start := by
  obtain ⟨chunk, atChunk, rest⟩ := held
  obtain ⟨inside, rfl⟩ := List.getElem?_eq_some_iff.mp atChunk
  refine ⟨_, ?_, rest⟩
  rw [List.getElem?_eq_some_iff]
  exact ⟨Nat.lt_of_lt_of_le inside later.chunks.length_le, (later.chunks.getElem inside).symm⟩

theorem Later.refl (s : SystemMemory) (a : HeapAllocator) : Later s a s a :=
  ⟨List.prefix_refl _, rfl, rfl, fun _ _ _ _ _ => rfl⟩

/-- Bytes of tables have changed, and no others. -/
theorem Later.table {s₁ : SystemMemory} {m : Memory} (later : Later s a s₁ a') (sound : a'.Sound s₁)
    (atChunk : a'.chunks[n]? = some c) (frame : Frame c.InTable s₁.memory m) :
    Later s a { s₁ with memory := m } a' where
  chunks := later.chunks
  threadSafe := later.threadSafe
  cellsSize := later.cellsSize
  cells cell start held b member := by
    exact (frame b (sound.cell_off_table (later.cellAt held) atChunk member)).trans (later.cells cell start held b member)

/-- One chunk's memory changes inside its block, and stays sound. -/
theorem HeapAllocator.Sound.chunk_changed {m : Memory} (sound : a.Sound s) (atChunk : a.chunks[n]? = some c)
    (frame : Frame c.InBlock s.memory m) (kept : c.Sound m) : a.Sound { s with memory := m } where
  small := sound.small
  cells := sound.cells
  listed := sound.listed
  apart := sound.apart
  chunk d member := by
    obtain ⟨p, atD⟩ := List.mem_iff_getElem?.mp member
    by_cases same : p = n
    · obtain rfl : c = d := Option.some.inj (atChunk.symm.trans (same ▸ atD))
      exact kept
    · exact (sound.chunk d member).outside frame fun b => sound.off_block atD atChunk same

/-- `create_new_chunk` adds one chunk, fresh and in a block of its own. -/
theorem createNewChunk_spec (sound : a.Sound s) (made : HeapAllocator.createNewChunk system s a = some (a', s')) :
    a'.Sound s' ∧ Later s a s' a' ∧ ∃ chunk, a'.chunks = a.chunks ++ [chunk] ∧ chunk.Fresh s'.memory := by
  rw [HeapAllocator.createNewChunk, Option.map_eq_some_iff] at made
  obtain ⟨⟨chunk, after⟩, called, same⟩ := made
  obtain ⟨rfl, rfl⟩ := Prod.mk.inj same
  obtain ⟨size, created⟩ := createHeapChunk_created sound.small called
  have beyond {d : HeapChunk} (member : d ∈ a.chunks) {b : Nat} (inside : d.InBlock b) : ¬chunk.InBlock b := by
    have apart : Apart chunk.start (chunkBytes chunk.cellsSize) d.start (chunkBytes d.cellsSize) :=
      created.apart d.block (sound.listed d member)
    unfold HeapChunk.InBlock Range Apart at *
    omega
  refine ⟨⟨sound.small, ?_, ?_, ?_, ?_⟩, ⟨List.prefix_append _ _, rfl, rfl, ?_⟩, chunk, rfl, created.fresh⟩
  · intro d member
    rcases List.mem_append.mp member with old | new
    · exact (sound.chunk d old).outside created.frame fun b => beyond old
    · obtain rfl := List.mem_singleton.mp new
      exact created.sound
  · intro d member
    rcases List.mem_append.mp member with old | new
    · exact sound.cells d old
    · obtain rfl := List.mem_singleton.mp new
      exact size
  · intro d member
    rw [created.blocks]
    rcases List.mem_append.mp member with old | new
    · exact List.mem_cons_of_mem _ (sound.listed d old)
    · obtain rfl := List.mem_singleton.mp new
      exact List.mem_cons_self
  · rw [List.pairwise_append]
    refine ⟨sound.apart, List.pairwise_singleton _ _, fun d old e new => ?_⟩
    obtain rfl := List.mem_singleton.mp new
    exact (created.apart d.block (sound.listed d old)).symm
  · intro cell start held b member
    obtain ⟨d, atD, rest⟩ := id held
    exact created.frame b (beyond (List.mem_of_getElem? atD) (sound.cell_inBlock atD held member))

/-- The invariant of the search: the array that it goes over is the
allocator's, and the allocator is a later state of the one that was called. -/
structure SearchInvariant (s : SystemMemory) (a : HeapAllocator) (st : HeapAllocator.Search) : Prop where
  sound : st.allocator.Sound st.system
  later : Later s a st.system st.allocator
  array : st.heapChunks = st.allocator.chunks
  current : st.currentChunkIndex < st.heapChunks.length

/-- What holds when `malloc` returns. -/
structure MallocPost (isCyclingType : Nat → Bool) (typeInfo fieldsLength : Nat) (s : SystemMemory) (a : HeapAllocator)
    (r : HeapAllocator.Allocation) : Prop where
  sound : r.allocator.Sound r.system
  chunks : a.chunks <+: r.allocator.chunks
  threadSafe : r.allocator.isThreadSafe = a.isThreadSafe
  start : r.chunkSearchStartIndex < r.allocator.chunks.length
  contract : ∀ address, r.address = some address → ∃ cell chunk searched,
    MallocContract s a r.system r.allocator isCyclingType typeInfo fieldsLength address cell chunk searched

variable {st : HeapAllocator.Search} {index size : Nat}

theorem SearchInvariant.create (inv : SearchInvariant s a st)
    (made : HeapAllocator.createNewChunk system st.system st.allocator = some (a', s')) :
    SearchInvariant s a ⟨s', a', a'.chunks, 0, st.currentChunkIndex⟩ ∧
      ∃ chunk, a'.chunks = st.allocator.chunks ++ [chunk] ∧ chunk.Fresh s'.memory := by
  obtain ⟨sound, grown, chunk, chunks, fresh⟩ := createNewChunk_spec inv.sound made
  refine ⟨⟨sound, ⟨inv.later.chunks.trans grown.chunks, grown.threadSafe.trans inv.later.threadSafe,
    grown.cellsSize.trans inv.later.cellsSize, ?_⟩, rfl, ?_⟩, chunk, chunks, fresh⟩
  · intro cell start held b member
    exact (grown.cells cell start (inv.later.cellAt held) b member).trans (inv.later.cells cell start held b member)
  · have before := inv.current
    rw [inv.array] at before
    exact Nat.lt_of_lt_of_le before grown.chunks.length_le

/-- The chunk that a pass asks, and its answer. -/
theorem SearchInvariant.ask (inv : SearchInvariant s a st) (system : SystemAllocator) (isCyclingType : Nat → Bool)
    (positive : 0 < index) (bound : index < numberOfBlocks) (fits : objectSize fieldsLength ≤ blockSize index)
    (known : typeInfo < 2 ^ 64) (more : st.i ≠ st.heapChunks.length) :
    ∃ chunk r, st.allocator.chunks[st.currentChunkIndex]? = some chunk ∧
      chunk.malloc isCyclingType st.system.memory typeInfo index (blockSize index) fieldsLength st.allocator.isThreadSafe =
        some r ∧
      ChunkOutcome isCyclingType st.system.memory chunk index typeInfo fieldsLength r ∧
      HeapAllocator.mallocPass system isCyclingType typeInfo fieldsLength index (blockSize index) st =
        match r with
        | (some address, m) =>
          some (.done ⟨some address, st.currentChunkIndex, { st.system with memory := m }, st.allocator⟩)
        | (none, m) =>
          some (.again ⟨{ st.system with memory := m }, st.allocator, st.heapChunks, st.i + 1,
            if st.currentChunkIndex + 1 = st.heapChunks.length then 0 else st.currentChunkIndex + 1⟩) := by
  have inside := inv.current
  rw [inv.array] at inside
  obtain ⟨chunk, atChunk⟩ : ∃ chunk, st.allocator.chunks[st.currentChunkIndex]? = some chunk :=
    ⟨_, List.getElem?_eq_getElem inside⟩
  obtain ⟨r, run, outcome⟩ := HeapChunk.malloc_spec st.allocator.isThreadSafe
    (inv.sound.chunk chunk (List.mem_of_getElem? atChunk)) positive bound fits known
  refine ⟨chunk, r, atChunk, run, outcome, ?_⟩
  have asked : st.heapChunks[st.currentChunkIndex]? = some chunk := by
    rw [inv.array]
    exact atChunk
  simp only [HeapAllocator.mallocPass, if_neg more, asked, run]
  obtain ⟨_ | address, m⟩ := r <;> rfl

/-- A chunk without room: only its table has changed. -/
theorem SearchInvariant.missed (inv : SearchInvariant s a st) {m : Memory}
    (atChunk : st.allocator.chunks[st.currentChunkIndex]? = some c)
    (outcome : ChunkOutcome isCyclingType st.system.memory c index typeInfo fieldsLength (none, m)) (next i : Nat)
    (inside : next < st.heapChunks.length) :
    SearchInvariant s a ⟨{ st.system with memory := m }, st.allocator, st.heapChunks, i, next⟩ := by
  cases outcome with
  | null frame kept =>
    have placed := kept.placed
    exact ⟨inv.sound.chunk_changed atChunk (frame.mono fun b => placed.inTable) kept,
      inv.later.table inv.sound atChunk frame, inv.array, inside⟩

/-- A chunk with room: the call meets its contract. -/
theorem SearchInvariant.found (inv : SearchInvariant s a st) {m : Memory} {address : Nat}
    (atChunk : st.allocator.chunks[st.currentChunkIndex]? = some c)
    (outcome : ChunkOutcome isCyclingType st.system.memory c index typeInfo fieldsLength (some address, m)) :
    MallocPost isCyclingType typeInfo fieldsLength s a
      ⟨some address, st.currentChunkIndex, { st.system with memory := m }, st.allocator⟩ := by
  cases outcome with
  | @cell _ k i lower bound inside dead fits written frame kept =>
    have placed := kept.placed
    have inBlock {b : Nat} (member : c.InTable b ∨ Range (c.cell k i) (objectSize fieldsLength) b) : c.InBlock b := by
      rcases member with table | object
      · exact placed.inTable table
      · refine placed.inCell bound inside ?_
        unfold HeapChunk.InCell Range at *
        omega
    have sound := inv.sound.chunk_changed atChunk (frame.mono fun b => inBlock) kept
    have held : st.allocator.CellAt ⟨st.currentChunkIndex, k, i⟩ (c.cell k i) := ⟨c, atChunk, bound, inside, rfl⟩
    have apart {other : Cell} {start : Nat} (atOther : st.allocator.CellAt other start)
        (different : other ≠ ⟨st.currentChunkIndex, k, i⟩) :
        Apart (c.cell k i) (blockSize k) start (blockSize other.block) :=
      sound.cells_apart held atOther (Ne.symm different)
    have entry := kept.entry k bound
    have last := c.position_succ k
    have room := HeapChunk.cell_end (k := k) inside
    rw [last, Nat.mul_comm] at room
    have table := placed.position_le_table bound
    rw [last, Nat.mul_comm] at table
    refine ⟨sound, inv.later.chunks, inv.later.threadSafe, by rw [← inv.array]; exact inv.current, ?_⟩
    rintro _ ⟨⟩
    refine ⟨⟨st.currentChunkIndex, k, i⟩, c, st.system.memory, ⟨atChunk, bound, inside, ?_, ?_, fits, ?_, ?_,
      fun other start => apart, dead, inv.later.cells, ?_, written⟩⟩
    · rw [entry, HeapChunk.cell]
    · exact Nat.lt_of_lt_of_le placed.nonnull (HeapChunk.Placed.start_le_cell c k i)
    · rw [entry]
      exact room
    · rw [entry]
      exact table
    · intro other start atOther different b member
      refine frame b fun touched => ?_
      rcases touched with table | object
      · exact inv.sound.cell_off_table atOther atChunk member table
      · have disjoint := apart atOther different
        unfold Apart Range at *
        omega

/-- Whenever `malloc` returns, it has met its contract. -/
theorem HeapAllocator.malloc_post (sound : a.Sound s) (short : fieldsLength < 2 ^ 60) (known : typeInfo < 2 ^ 64)
    {fuel start : Nat} (inside : start < a.chunks.length) {r : HeapAllocator.Allocation}
    (returned : a.malloc system isCyclingType typeInfo fieldsLength fuel s start = some r) :
    MallocPost isCyclingType typeInfo fieldsLength s a r := by
  unfold HeapAllocator.malloc at returned
  split at returned
  · cases returned
    exact ⟨sound, List.prefix_refl _, rfl, inside, fun address null => absurd null (by simp)⟩
  · rename_i index size chosen
    obtain ⟨positive, bound, rfl, fits⟩ := HeapAllocator.chooseBlock_spec short chosen
    refine whileTrue_post (SearchInvariant s a) (MallocPost isCyclingType typeInfo fieldsLength s a) ?_ ?_ returned
      ⟨sound, Later.refl s a, rfl, inside⟩
    · intro st st' inv pass
      by_cases asked : st.i = st.heapChunks.length
      · rw [HeapAllocator.mallocPass, if_pos asked, Option.map_eq_some_iff] at pass
        obtain ⟨⟨grown, after⟩, made, same⟩ := pass
        cases same
        exact (inv.create made).1
      · obtain ⟨chunk, ⟨_ | address, m⟩, atChunk, -, outcome, step⟩ := inv.ask _ _ positive bound fits known asked
        · cases step.symm.trans pass
          refine inv.missed atChunk outcome _ _ ?_
          have current := inv.current
          split <;> omega
        · cases step.symm.trans pass
    · intro st r inv pass
      by_cases asked : st.i = st.heapChunks.length
      · rw [HeapAllocator.mallocPass, if_pos asked, Option.map_eq_some_iff] at pass
        obtain ⟨_, -, same⟩ := pass
        cases same
      · obtain ⟨chunk, ⟨_ | address, m⟩, atChunk, -, outcome, step⟩ := inv.ask _ _ positive bound fits known asked
        · cases step.symm.trans pass
        · cases step.symm.trans pass
          exact inv.found atChunk outcome

/-- Whether a chunk can be created depends on what the system has handed out. -/
theorem createHeapChunk_some {cellsSize : Nat} (room : (createHeapChunk system s cellsSize).isSome)
    (blocks : s'.blocks = s.blocks) : ∃ made, createHeapChunk system s' cellsSize = some made := by
  refine Option.isSome_iff_exists.mp ?_
  simp only [createHeapChunk, blocks] at room ⊢
  split at room
  · cases room
  · rfl

end Search

end CatLa
