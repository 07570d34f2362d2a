import CatLa.Foundations.FuelLoop
import CatLa.Heap.HeapLayout

namespace CatLa

open ByteMemory

/-- The table of a chunk says where the classes are, and every cursor is inside
its class (or at 0, in a chunk without cells). -/
structure HeapChunk.Laid (m : Memory) (c : HeapChunk) : Prop where
  placed : c.Placed
  entry : ∀ k, k < numberOfBlocks → entryPosition m (c.blockInfo k) = c.position k
  current : ∀ k, k < numberOfBlocks →
    currentLocation m (c.blockInfo k) = 0 ∨ currentLocation m (c.blockInfo k) < c.cellsSize

/-- What holds of a chunk between two calls: every cell has room for the object
it holds or held. No object fits the first class, whose cells stay dead. -/
structure HeapChunk.Sound (m : Memory) (c : HeapChunk) : Prop extends HeapChunk.Laid m c where
  smallest : ∀ i, i < c.cellsSize → stateOf m (c.cell 0 i) = 0
  fits : ∀ k i, 0 < k → k < numberOfBlocks → i < c.cellsSize →
    objectSize (fieldLengthOf m (c.cell k i)) ≤ blockSize k

/-- A chunk that no class of which has been found full, and whose cells are
all dead. -/
structure HeapChunk.Fresh (m : Memory) (c : HeapChunk) : Prop where
  empty : ∀ k, k < numberOfBlocks → emptyFlag m (c.blockInfo k) = true
  dead : ∀ k i, k < numberOfBlocks → i < c.cellsSize → stateOf m (c.cell k i) = 0

section Frames

variable {inside : Nat → Prop} {m m' : Memory} {c : HeapChunk} {i k : Nat}

theorem stateOf_frame (frame : Frame inside m m') (bound : k < numberOfBlocks)
    (beyond : ∀ b, c.InCell k i b → ¬inside b) : stateOf m' (c.cell k i) = stateOf m (c.cell k i) := by
  have room := (blockSize_le bound).1
  exact frame _ (beyond _ ⟨by omega, by omega⟩)

theorem fieldLengthOf_frame (frame : Frame inside m m') (positive : 0 < k) (bound : k < numberOfBlocks)
    (beyond : ∀ b, c.InCell k i b → ¬inside b) :
    fieldLengthOf m' (c.cell k i) = fieldLengthOf m (c.cell k i) := by
  have room := (blockSize_le bound).2 positive
  unfold sizeofHeapObject at room
  exact frame.load fun b range => beyond b ⟨by have := range.1; omega, by have := range.2; omega⟩

theorem entryPosition_frame (frame : Frame inside m m') (bound : k < numberOfBlocks)
    (beyond : ∀ b, c.InTable b → ¬inside b) : entryPosition m' (c.blockInfo k) = entryPosition m (c.blockInfo k) :=
  frame.load fun b range => beyond b (HeapChunk.Placed.info_inTable c bound 0 8 (by decide) range)

theorem currentLocation_frame (frame : Frame inside m m') (bound : k < numberOfBlocks)
    (beyond : ∀ b, c.InTable b → ¬inside b) :
    currentLocation m' (c.blockInfo k) = currentLocation m (c.blockInfo k) :=
  frame.load fun b range => beyond b (HeapChunk.Placed.info_inTable c bound 16 8 (by decide) range)

theorem emptyFlag_frame (frame : Frame inside m m') (bound : k < numberOfBlocks)
    (beyond : ∀ b, c.InTable b → ¬inside b) : emptyFlag m' (c.blockInfo k) = emptyFlag m (c.blockInfo k) := by
  unfold emptyFlag
  rw [frame _ (beyond _ (HeapChunk.Placed.info_inTable c bound 8 1 (by decide) ⟨Nat.le_refl _, by omega⟩))]

end Frames

/-- The table does not change. -/
theorem HeapChunk.Laid.outside {inside : Nat → Prop} {m m' : Memory} {c : HeapChunk} (laid : c.Laid m)
    (frame : Frame inside m m') (beyond : ∀ b, c.InTable b → ¬inside b) : c.Laid m' where
  placed := laid.placed
  entry k bound := by
    rw [entryPosition_frame frame bound beyond]
    exact laid.entry k bound
  current k bound := by
    rw [currentLocation_frame frame bound beyond]
    exact laid.current k bound

namespace HeapChunk.Sound

variable {m m' : Memory} {c : HeapChunk} {i k : Nat}

/-- A live object lies inside its cell. -/
theorem object_fits (sound : c.Sound m) (bound : k < numberOfBlocks) (inside : i < c.cellsSize)
    (alive : stateOf m (c.cell k i) ≠ 0) : 0 < k ∧ objectSize (fieldLengthOf m (c.cell k i)) ≤ blockSize k := by
  have positive : 0 < k := Nat.pos_of_ne_zero fun first => alive (first ▸ sound.smallest i inside)
  exact ⟨positive, sound.fits k i positive bound inside⟩

/-- Nothing happens to a chunk when bytes outside of it change. -/
theorem outside {inside : Nat → Prop} (sound : c.Sound m) (frame : Frame inside m m')
    (beyond : ∀ b, c.InBlock b → ¬inside b) : c.Sound m' where
  toLaid := sound.toLaid.outside frame fun b member => beyond b (sound.placed.inTable member)
  smallest i bound := by
    rw [stateOf_frame frame (by decide) fun b member => beyond b (sound.placed.inCell (by decide) bound member)]
    exact sound.smallest i bound
  fits k i positive bound inCell := by
    rw [fieldLengthOf_frame frame positive bound fun b member => beyond b (sound.placed.inCell bound inCell member)]
    exact sound.fits k i positive bound inCell

/-- The table changes, but not where it says the classes are. -/
theorem table (sound : c.Sound m) (frame : Frame c.InTable m m') (laid : c.Laid m') : c.Sound m' where
  toLaid := laid
  smallest i bound := by
    rw [stateOf_frame frame (by decide) fun b => sound.placed.cell_off_table (by decide) bound]
    exact sound.smallest i bound
  fits k i positive bound inCell := by
    rw [fieldLengthOf_frame frame positive bound fun b => sound.placed.cell_off_table bound inCell]
    exact sound.fits k i positive bound inCell

/-- One cell changes, and has room for what it holds then. -/
theorem cell (sound : c.Sound m) (bound : k < numberOfBlocks) (inside : i < c.cellsSize)
    (frame : Frame (c.InCell k i) m m') (smallest : k = 0 → stateOf m' (c.cell k i) = 0)
    (fits : 0 < k → objectSize (fieldLengthOf m' (c.cell k i)) ≤ blockSize k) : c.Sound m' where
  toLaid := sound.toLaid.outside frame fun b member inCell => sound.placed.cell_off_table bound inside inCell member
  smallest j small := by
    by_cases same : (0, j) = (k, i)
    · cases same
      exact smallest rfl
    · rw [stateOf_frame frame (by decide) fun b => inCell_of_ne small inside same]
      exact sound.smallest j small
  fits l j positive small inCell := by
    by_cases same : (l, j) = (k, i)
    · cases same
      exact fits positive
    · rw [fieldLengthOf_frame frame positive small fun b => inCell_of_ne inCell inside same]
      exact sound.fits l j positive small inCell

end HeapChunk.Sound

section Creation

variable {c : HeapChunk} {j k n : Nat}

/-- Writing one word of the table leaves the other words alone. -/
theorem load_store_info (m : Memory) (offset size v offset' size' : Nat) (small : offset + size ≤ 24)
    (small' : offset' + size' ≤ 24) (apart : j ≠ k ∨ Apart offset size offset' size') :
    load (store m (c.blockInfo k + offset) size v) (c.blockInfo j + offset') size' =
      load m (c.blockInfo j + offset') size' := by
  refine load_store_apart m v ?_
  unfold Apart HeapChunk.blockInfo sizeofBlockInfo at *
  omega

theorem store_info_frame (c : HeapChunk) (m : Memory) (v : Nat) (bound : k < numberOfBlocks) (offset size : Nat)
    (small : offset + size ≤ 24) : Frame c.InTable m (store m (c.blockInfo k + offset) size v) :=
  Frame.store v fun _ range => HeapChunk.Placed.info_inTable c bound offset size small range

/-- A cursor is written. -/
theorem HeapChunk.Laid.cursor {m : Memory} (laid : c.Laid m) (k : Nat) {current : Nat}
    (inside : current = 0 ∨ current < c.cellsSize) : c.Laid (store m (c.blockInfo k + 16) 8 current) where
  placed := laid.placed
  entry j small := by
    rw [← laid.entry j small]
    exact load_store_info m 16 8 _ 0 8 (by decide) (by decide) (Or.inr (Or.inr (by decide)))
  current j small := by
    have short : current < 256 ^ 8 := by
      have limit := laid.placed.bounded
      unfold chunkBytes blocksSize at limit
      omega
    by_cases same : j = k
    · rw [same, currentLocation, load_store m short]
      exact inside
    · rw [currentLocation, load_store_info m 16 8 _ 16 8 (by decide) (by decide) (Or.inl same)]
      exact laid.current j small

/-- A class is marked as full. -/
theorem HeapChunk.Laid.full {m : Memory} (laid : c.Laid m) (k : Nat) : c.Laid (store m (c.blockInfo k + 8) 1 0) where
  placed := laid.placed
  entry j small := by
    rw [← laid.entry j small]
    exact load_store_info m 8 1 _ 0 8 (by decide) (by decide) (Or.inr (Or.inr (by decide)))
  current j small := by
    rw [currentLocation, load_store_info m 8 1 _ 16 8 (by decide) (by decide) (Or.inr (Or.inl (by decide)))]
    exact laid.current j small

/-- What `create_heap_chunk` writes into the table. -/
structure TableWritten (c : HeapChunk) (before m : Memory) (placed opened : Nat) : Prop where
  frame : Frame c.InTable before m
  entry : ∀ k, k < placed → entryPosition m (c.blockInfo k) = c.position k
  empty : ∀ k, k < opened → emptyFlag m (c.blockInfo k) = true
  current : ∀ k, k < numberOfBlocks → currentLocation m (c.blockInfo k) = 0

theorem TableWritten.place {before m : Memory} (written : TableWritten c before m n 0) (placed : c.Placed)
    (bound : n < numberOfBlocks) :
    TableWritten c before (store m (c.blockInfo n) 8 (c.position n)) (n + 1) 0 where
  frame := written.frame.trans (store_info_frame c m _ bound 0 8 (by decide))
  entry k small := by
    rcases Nat.lt_succ_iff_lt_or_eq.mp small with before | rfl
    · rw [← written.entry k before]
      exact load_store_info m 0 8 _ 0 8 (by decide) (by decide) (Or.inl (Nat.ne_of_lt before))
    · refine load_store m ?_
      have inside := placed.position_le_table bound
      have upper : c.position k ≤ c.position (k + 1) := HeapChunk.position_le (Nat.le_succ k)
      have last := placed.block_end
      have limit := placed.bounded
      unfold sizeofBlockInfo numberOfBlocks at last
      omega
  empty k small := absurd small (Nat.not_lt_zero k)
  current k small := by
    rw [← written.current k small]
    exact load_store_info m 0 8 _ 16 8 (by decide) (by decide) (Or.inr (Or.inl (by decide)))

theorem TableWritten.openBlock {before m : Memory} (written : TableWritten c before m numberOfBlocks n)
    (bound : n < numberOfBlocks) :
    TableWritten c before (store m (c.blockInfo n + 8) 1 1) numberOfBlocks (n + 1) where
  frame := written.frame.trans (store_info_frame c m _ bound 8 1 (by decide))
  entry k small := by
    rw [← written.entry k small]
    exact load_store_info m 8 1 _ 0 8 (by decide) (by decide) (Or.inr (Or.inr (by decide)))
  empty k small := by
    unfold emptyFlag
    rcases Nat.lt_succ_iff_lt_or_eq.mp small with before | rfl
    · rw [store_apart m 1 (by unfold Apart HeapChunk.blockInfo sizeofBlockInfo; omega)]
      exact written.empty k before
    · rw [store_byte]
      rfl
  current k small := by
    rw [← written.current k small]
    exact load_store_info m 8 1 _ 16 8 (by decide) (by decide) (Or.inr (Or.inl (by decide)))

theorem TableWritten.all {m : Memory} (placed : c.Placed) (cleared : ∀ b, c.InBlock b → m b = 0) :
    TableWritten c m
      ((List.range numberOfBlocks).foldl (fun m k => store m (c.blockInfo k + 8) 1 1)
        ((List.range numberOfBlocks).foldl (fun m k => store m (c.blockInfo k) 8 (c.position k)) m))
      numberOfBlocks numberOfBlocks := by
  have start : TableWritten c m m 0 0 :=
    { frame := Frame.refl _ _
      entry := fun k small => absurd small (Nat.not_lt_zero k)
      empty := fun k small => absurd small (Nat.not_lt_zero k)
      current := fun k small => load_zero fun b range =>
        cleared b (placed.inTable (HeapChunk.Placed.info_inTable c small 16 8 (by decide) range)) }
  have entries := FuelLoop.forRange (fun n m' => TableWritten c m m' n 0)
    (fun k bound m' written => written.place placed bound) _ start
  exact FuelLoop.forRange (fun n m' => TableWritten c m m' numberOfBlocks n)
    (fun k bound m' written => written.openBlock bound) _ entries

/-- What `create_heap_chunk` returns: a chunk in a block of its own, with
nothing in it. -/
structure Created (s : SystemMemory) (c : HeapChunk) (s' : SystemMemory) : Prop where
  sound : c.Sound s'.memory
  fresh : c.Fresh s'.memory
  blocks : s'.blocks = c.block :: s.blocks
  apart : ∀ b ∈ s.blocks, Apart c.block.start c.block.size b.start b.size
  frame : Frame c.InBlock s.memory s'.memory

theorem TableWritten.created {s : SystemMemory} {m m' : Memory}
    (written : TableWritten c m m' numberOfBlocks numberOfBlocks) (placed : c.Placed)
    (cleared : ∀ b, c.InBlock b → m b = 0) (frame : Frame c.InBlock s.memory m)
    (apart : ∀ b ∈ s.blocks, Apart c.block.start c.block.size b.start b.size) :
    Created s c ⟨m', c.block :: s.blocks⟩ := by
  have zero {k i b : Nat} (bound : k < numberOfBlocks) (inside : i < c.cellsSize) (member : c.InCell k i b) :
      m' b = 0 := by
    rw [written.frame b (placed.cell_off_table bound inside member)]
    exact cleared b (placed.inCell bound inside member)
  have dead {k i : Nat} (bound : k < numberOfBlocks) (inside : i < c.cellsSize) : stateOf m' (c.cell k i) = 0 := by
    have room := (blockSize_le bound).1
    exact zero bound inside ⟨by omega, by omega⟩
  have laid : c.Laid m' := ⟨placed, written.entry, fun k bound => Or.inl (written.current k bound)⟩
  refine ⟨⟨laid, fun i inside => dead (by decide) inside, ?_⟩,
    ⟨written.empty, fun k i bound inside => dead bound inside⟩, rfl, apart, frame.trans ?_⟩
  · intro k i positive bound inside
    have room := (blockSize_le bound).2 positive
    have none : fieldLengthOf m' (c.cell k i) = 0 := load_zero fun b range =>
      zero bound inside (by unfold sizeofHeapObject at room; have := range.1; have := range.2; exact ⟨by omega, by omega⟩)
    rw [none]
    exact room
  · exact written.frame.mono fun b => placed.inTable

/-- A chunk whose size does not wrap. -/
theorem createHeapChunk_created {system : SystemAllocator} {s s' : SystemMemory} {cellsSize : Nat}
    (small : chunkBytes cellsSize < 2 ^ 64) (made : createHeapChunk system s cellsSize = some (c, s')) :
    c.cellsSize = cellsSize ∧ Created s c s' := by
  unfold createHeapChunk at made
  simp only [Nat.mod_eq_of_lt small] at made
  split at made
  · cases made
  · rename_i position0 called
    have bounded := system.bounded called
    have unwrapped (k : Nat) : blockPosition position0 cellsSize k % 2 ^ 64 = blockPosition position0 cellsSize k := by
      refine Nat.mod_eq_of_lt ?_
      have last := blockPosition_le_last position0 cellsSize k
      unfold chunkBytes sizeofBlockInfo numberOfBlocks at bounded
      rw [Nat.mul_comm] at bounded
      omega
    simp only [unwrapped, Option.some.injEq, Prod.mk.injEq] at made
    obtain ⟨rfl, rfl⟩ := made
    generalize chunk : (⟨cellsSize, blockPosition position0 cellsSize numberOfBlocks⟩ : HeapChunk) = c
    have size : c.cellsSize = cellsSize := by rw [← chunk]
    have list : c.blockInfoList = blockPosition position0 cellsSize numberOfBlocks := by rw [← chunk]
    have start : c.start = position0 := by
      rw [HeapChunk.start, list, size, blockPosition_numberOfBlocks, Nat.add_sub_cancel]
    have block : (⟨position0, chunkBytes cellsSize⟩ : Block) = c.block := by rw [HeapChunk.block, start, size]
    have placed : c.Placed :=
      { nonnull := by rw [start]; exact system.nonnull called
        table := by rw [start, list, size, blockPosition_numberOfBlocks]
        bounded := by rw [start, size]; exact bounded }
    have position (k : Nat) : blockPosition position0 cellsSize k = c.position k := by
      rw [HeapChunk.position, start, size]
    have info (k : Nat) : c.blockInfoList + sizeofBlockInfo * k = c.blockInfo k := rfl
    have inBlock {b : Nat} : Range position0 (chunkBytes cellsSize) b ↔ c.InBlock b := by
      rw [HeapChunk.InBlock, start, size]
    rw [← list]
    simp only [info, position, block]
    refine ⟨size, (TableWritten.all placed fun b member => ?_).created placed (fun b member => ?_) ?_ fun b member => ?_⟩
    · exact clear_byte _ (inBlock.mpr member).1 (inBlock.mpr member).2
    · exact clear_byte _ (inBlock.mpr member).1 (inBlock.mpr member).2
    · exact Frame.clear fun b => inBlock.mp
    · rw [← block]
      exact system.fresh called b member

end Creation

end CatLa
