import CatLa.Foundations.ByteMemory
import CatLa.Gc.HeapObject
import Mathlib.Tactic.IntervalCases

namespace CatLa

open ByteMemory

/-- `BLOCK_SIZE0` to `BLOCK_SIZE12`. -/
def blockSizes : List Nat := [32, 40, 48, 56, 64, 72, 80, 88, 96, 128, 256, 384, 512]

def blockSize (k : Nat) : Nat := blockSizes.getD k 0

/-- `NUMBER_OF_BLOCKS`. -/
def numberOfBlocks : Nat := 13

/-- `BLOCKS_SIZE`. -/
def blocksSize : Nat := 1856

def sizeofHeapObject : Nat := 40

def sizeofBlockInfo : Nat := 24

def ObjectState.toByte : ObjectState → UInt8
  | .dead => 0
  | .live => 1
  | .processGc => 2
  | .waitingForGc => 3

/-! The fields of the `HeapObject` at `o`, at their offsets on a 64-bit
platform; the `crc` at offset 8 is never read. -/

def countOf (m : Memory) (o : Nat) : Nat := load m o 8

def stateOf (m : Memory) (o : Nat) : UInt8 := m (o + 16)

def asyncReleaseOf (m : Memory) (o : Nat) : Bool := m (o + 17) != 0

def isCyclicTypeOf (m : Memory) (o : Nat) : Bool := m (o + 18) != 0

def lockFlagOf (m : Memory) (o : Nat) : Bool := m (o + 19) != 0

def fieldLengthOf (m : Memory) (o : Nat) : Nat := load m (o + 24) 8

def typeInfoOf (m : Memory) (o : Nat) : Nat := load m (o + 32) 8

/-- The address of a field: `((HeapObject**) (object + 1)) + j`. -/
def fieldAddress (o : Nat) (j : Nat) : Nat := o + sizeofHeapObject + 8 * j

def fieldOf (m : Memory) (o : Nat) (j : Nat) : Nat := load m (fieldAddress o j) 8

/-- The bytes of an object with `fieldLength` fields. -/
def objectSize (fieldLength : Nat) : Nat := sizeofHeapObject + 8 * fieldLength

/-! The fields of the `BlockInfo` at `info`. -/

def entryPosition (m : Memory) (info : Nat) : Nat := load m info 8

def emptyFlag (m : Memory) (info : Nat) : Bool := m (info + 8) != 0

def currentLocation (m : Memory) (info : Nat) : Nat := load m (info + 16) 8

structure HeapChunk where
  cellsSize : Nat
  blockInfoList : Nat
  deriving DecidableEq, Repr

/-- A range of bytes that the system has handed out. -/
structure Block where
  start : Nat
  size : Nat
  deriving DecidableEq, Repr

/-- The system's `calloc`: what it returns, if it returns memory at all,
depends on what it has handed out, and shares no byte with it. -/
structure SystemAllocator where
  calloc : List Block → Nat → Option Nat
  nonnull : ∀ {blocks size a}, calloc blocks size = some a → 0 < a
  bounded : ∀ {blocks size a}, calloc blocks size = some a → a + size ≤ 2 ^ 64
  fresh : ∀ {blocks size a}, calloc blocks size = some a → ∀ b ∈ blocks, Apart a size b.start b.size

/-- The memory of the process and the blocks that `calloc` has handed out. -/
structure SystemMemory where
  memory : Memory
  blocks : List Block

/-- `position0` to `position12`, and the address behind the last class. -/
def blockPosition (position0 cellsSize : Nat) : Nat → Nat
  | 0 => position0
  | k + 1 => blockPosition position0 cellsSize k + blockSize k * cellsSize

/-- The number of bytes of a chunk: its classes and its table. -/
def chunkBytes (cellsSize : Nat) : Nat := cellsSize * blocksSize + sizeofBlockInfo * numberOfBlocks

/-- `create_heap_chunk`. The size and the positions are `size_t`s and wrap, and
whatever they wrap to is used. There is no outcome when `calloc` returns null:
the table is then written through it. -/
def createHeapChunk (system : SystemAllocator) (s : SystemMemory) (cellsSize : Nat) :
    Option (HeapChunk × SystemMemory) :=
  let size := chunkBytes cellsSize % 2 ^ 64
  match system.calloc s.blocks size with
  | none => none
  | some position0 =>
    let position (k : Nat) := blockPosition position0 cellsSize k % 2 ^ 64
    let list := position numberOfBlocks
    let placed := (List.range numberOfBlocks).foldl
      (fun m k => store m (list + sizeofBlockInfo * k) 8 (position k)) (clear s.memory position0 size)
    let opened := (List.range numberOfBlocks).foldl
      (fun m k => store m (list + sizeofBlockInfo * k + 8) 1 1) placed
    some (⟨cellsSize, list⟩, ⟨opened, ⟨position0, size⟩ :: s.blocks⟩)

/-! The layout of a chunk. -/

theorem blockPosition_le {position0 cellsSize j k : Nat} (order : j ≤ k) :
    blockPosition position0 cellsSize j ≤ blockPosition position0 cellsSize k := by
  induction order with
  | refl => exact Nat.le_refl _
  | step _ ih => exact ih.trans (Nat.le_add_right _ _)

theorem blockPosition_numberOfBlocks (position0 cellsSize : Nat) :
    blockPosition position0 cellsSize numberOfBlocks = position0 + blocksSize * cellsSize := by
  simp only [numberOfBlocks, blockPosition, blockSize, blockSizes, blocksSize, List.getD_cons_zero, List.getD_cons_succ]
  omega

/-- No position lies behind the last class. -/
theorem blockPosition_le_last (position0 cellsSize k : Nat) :
    blockPosition position0 cellsSize k ≤ position0 + blocksSize * cellsSize := by
  rw [← blockPosition_numberOfBlocks]
  rcases Nat.le_total k numberOfBlocks with before | behind
  · exact blockPosition_le before
  · refine Nat.le_of_eq ?_
    induction k, behind using Nat.le_induction with
    | base => rfl
    | succ k behind ih =>
      have none : blockSize k = 0 := List.getD_eq_default _ _ behind
      rw [blockPosition, ih, none, Nat.zero_mul, Nat.add_zero]

/-- Every cell has room for a state, and from the second class on for a header. -/
theorem blockSize_le {k : Nat} (bound : k < numberOfBlocks) :
    32 ≤ blockSize k ∧ (0 < k → sizeofHeapObject ≤ blockSize k) := by
  unfold numberOfBlocks at bound
  interval_cases k <;> decide

namespace HeapChunk

variable {c d : HeapChunk} {i j k l : Nat}

/-- The address of a `BlockInfo` of the table. -/
def blockInfo (c : HeapChunk) (k : Nat) : Nat := c.blockInfoList + sizeofBlockInfo * k

/-- The start of the chunk's block. -/
def start (c : HeapChunk) : Nat := c.blockInfoList - blocksSize * c.cellsSize

def position (c : HeapChunk) (k : Nat) : Nat := blockPosition c.start c.cellsSize k

/-- Cell `i` of class `k`. -/
def cell (c : HeapChunk) (k i : Nat) : Nat := c.position k + i * blockSize k

def block (c : HeapChunk) : Block := ⟨c.start, chunkBytes c.cellsSize⟩

/-- The bytes of the table. -/
def InTable (c : HeapChunk) : Nat → Prop := Range c.blockInfoList (sizeofBlockInfo * numberOfBlocks)

/-- The bytes of one cell. -/
def InCell (c : HeapChunk) (k i : Nat) : Nat → Prop := Range (c.cell k i) (blockSize k)

/-- The bytes of the chunk. -/
def InBlock (c : HeapChunk) : Nat → Prop := Range c.start (chunkBytes c.cellsSize)

theorem position_succ (c : HeapChunk) (k : Nat) : c.position (k + 1) = c.position k + blockSize k * c.cellsSize := rfl

theorem position_le (order : j ≤ k) : c.position j ≤ c.position k := blockPosition_le order

theorem cell_zero (c : HeapChunk) (k : Nat) : c.cell k 0 = c.position k := by
  rw [cell, Nat.zero_mul, Nat.add_zero]

theorem cell_next (c : HeapChunk) (k i : Nat) : c.cell k i + blockSize k = c.cell k (i + 1) := by
  rw [cell, cell, Nat.add_mul, Nat.one_mul, Nat.add_assoc]

theorem cell_end (bound : i < c.cellsSize) : c.cell k i + blockSize k ≤ c.position (k + 1) := by
  have inside : (i + 1) * blockSize k ≤ c.cellsSize * blockSize k := Nat.mul_le_mul_right _ bound
  rw [position_succ, cell, Nat.mul_comm (blockSize k)]
  rw [Nat.add_mul] at inside
  omega

/-- Two cells of one chunk have no byte in common. -/
theorem cells_apart (left : i < c.cellsSize) (right : j < c.cellsSize) (different : (k, i) ≠ (l, j)) :
    Apart (c.cell k i) (blockSize k) (c.cell l j) (blockSize l) := by
  have classes {k l i j : Nat} (left : i < c.cellsSize) (order : k < l) : c.cell k i + blockSize k ≤ c.cell l j :=
    (cell_end left).trans ((position_le order).trans (Nat.le_add_right _ _))
  have indices {i j : Nat} (order : i < j) : c.cell k i + blockSize k ≤ c.cell k j := by
    have less : (i + 1) * blockSize k ≤ j * blockSize k := Nat.mul_le_mul_right _ order
    rw [Nat.add_mul] at less
    unfold cell
    omega
  rcases Nat.lt_trichotomy k l with before | rfl | after
  · exact Or.inl (classes left before)
  · rcases Nat.lt_trichotomy i j with before | rfl | after
    · exact Or.inl (indices before)
    · exact absurd rfl different
    · exact Or.inr (indices after)
  · exact Or.inr (classes right after)

end HeapChunk

/-- The block of the chunk ends in its table. -/
structure HeapChunk.Placed (c : HeapChunk) : Prop where
  nonnull : 0 < c.start
  table : c.start + blocksSize * c.cellsSize = c.blockInfoList
  bounded : c.start + chunkBytes c.cellsSize ≤ 2 ^ 64

namespace HeapChunk.Placed

variable {c d : HeapChunk} {i j k l : Nat}

theorem position_last (placed : c.Placed) : c.position numberOfBlocks = c.blockInfoList := by
  rw [position, blockPosition_numberOfBlocks, placed.table]

theorem position_le_table (placed : c.Placed) (bound : k < numberOfBlocks) :
    c.position (k + 1) ≤ c.blockInfoList := (position_le bound).trans placed.position_last.le

theorem start_le_position (c : HeapChunk) (k : Nat) : c.start ≤ c.position k :=
  position_le (Nat.zero_le k)

/-- A cell lies inside its chunk and before the table. -/
theorem cell_before_table (placed : c.Placed) (bound : k < numberOfBlocks) (inside : i < c.cellsSize) :
    c.cell k i + blockSize k ≤ c.blockInfoList := (cell_end inside).trans (placed.position_le_table bound)

theorem start_le_cell (c : HeapChunk) (k i : Nat) : c.start ≤ c.cell k i :=
  (start_le_position c k).trans (Nat.le_add_right _ _)

theorem block_end (placed : c.Placed) :
    c.blockInfoList + sizeofBlockInfo * numberOfBlocks = c.start + chunkBytes c.cellsSize := by
  rw [← placed.table, chunkBytes, Nat.mul_comm c.cellsSize, Nat.add_assoc]

theorem inTable (placed : c.Placed) {b : Nat} (member : c.InTable b) : c.InBlock b := by
  have last := placed.block_end
  have first := placed.table
  unfold InTable InBlock Range at *
  omega

theorem inCell (placed : c.Placed) (bound : k < numberOfBlocks) (inside : i < c.cellsSize) {b : Nat}
    (member : c.InCell k i b) : c.InBlock b := by
  have last := placed.block_end
  have upper := placed.cell_before_table bound inside
  have lower := start_le_cell c k i
  unfold InCell InBlock Range at *
  omega

theorem cell_off_table (placed : c.Placed) (bound : k < numberOfBlocks) (inside : i < c.cellsSize) {b : Nat}
    (member : c.InCell k i b) : ¬c.InTable b := by
  have upper := placed.cell_before_table bound inside
  unfold InCell InTable Range at *
  omega

/-- The word of a `BlockInfo` lies in the table. -/
theorem info_inTable (c : HeapChunk) (bound : k < numberOfBlocks) (offset n : Nat) {b : Nat} (small : offset + n ≤ 24)
    (member : Range (c.blockInfo k + offset) n b) : c.InTable b := by
  unfold Range blockInfo InTable numberOfBlocks sizeofBlockInfo at *
  unfold Range
  omega

end HeapChunk.Placed

theorem inCell_of_ne {c : HeapChunk} {i j k l : Nat} (left : i < c.cellsSize) (right : j < c.cellsSize)
    (different : (k, i) ≠ (l, j)) {b : Nat} (member : c.InCell k i b) : ¬c.InCell l j b := by
  have apart := HeapChunk.cells_apart left right different
  unfold HeapChunk.InCell Range Apart at *
  omega

end CatLa
