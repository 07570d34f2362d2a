import CatLa.Gc.FieldOperations
import CatLa.Heap.ChunkInvariant

namespace CatLa

open ByteMemory FuelLoop

/-- The size of the cells of the next class; none where `HeapChunk::malloc`
returns null. -/
def nextBlockSize (blockSize : Nat) : Option Nat :=
  if blockSize < 96 then some (blockSize + 8)
  else if blockSize = 96 then some 128
  else if blockSize ≤ 512 then some (blockSize + 128)
  else none

/-- The second test of a cell's state: the exchange of a shared allocator, or
another load. -/
def claimCell (isThreadSafe : Bool) (m : Memory) (object : Nat) : Option Memory :=
  if isThreadSafe then
    if stateOf m object = ObjectState.dead.toByte then some (store m (object + 16) 1 ObjectState.live.toByte.toNat)
    else none
  else if stateOf m object ≠ 0 then none
  else some m

/-- The search for a dead cell of one class: `left` more cells are looked at,
and the class starts over at its end. The cell, if there is one, comes with
the cursor on it. -/
def findCell (isThreadSafe : Bool) (m : Memory) (blockEntry blockSize cellsSize : Nat) :
    Nat → Nat → Nat → Option Nat × Nat × Memory
  | 0, _, currentEntryIndex => (none, currentEntryIndex, m)
  | left + 1, currentEntry, currentEntryIndex =>
    let next :=
      if currentEntryIndex + 1 = cellsSize then findCell isThreadSafe m blockEntry blockSize cellsSize left blockEntry 0
      else findCell isThreadSafe m blockEntry blockSize cellsSize left (currentEntry + blockSize) (currentEntryIndex + 1)
    if stateOf m currentEntry ≠ 0 then next
    else
      match claimCell isThreadSafe m currentEntry with
      | none => next
      | some claimed => (some currentEntry, currentEntryIndex, claimed)

/-- What is written into a cell that is returned. -/
def writeObject (m : Memory) (object typeInfo fieldLength : Nat) (isCyclicType : Bool) : Memory :=
  let m := (List.range fieldLength).foldl (fun m j => store m (fieldAddress object j) 8 0) m
  let m := store m (object + 32) 8 typeInfo
  let m := store m (object + 24) 8 fieldLength
  let m := store m (object + 17) 1 0
  let m := store m (object + 16) 1 ObjectState.live.toByte.toNat
  let m := store m (object + 18) 1 isCyclicType.toNat
  store m object 8 1

/-- The state of the loop of `HeapChunk::malloc`. -/
structure ChunkSearch where
  memory : Memory
  index : Nat
  blockSize : Nat

/-- `index++` and the next size; null behind the last class. -/
def ChunkSearch.nextClass (s : ChunkSearch) (m : Memory) : Next ChunkSearch (Option Nat × Memory) :=
  match nextBlockSize s.blockSize with
  | none => .done (none, m)
  | some blockSize => if s.index + 1 = 13 then .done (none, m) else .again ⟨m, s.index + 1, blockSize⟩

namespace HeapChunk

/-- One pass through the loop of `HeapChunk::malloc`, over one class. -/
def mallocClass (chunk : HeapChunk) (isCyclingType : Nat → Bool) (typeInfo fieldLength : Nat) (isThreadSafe : Bool)
    (s : ChunkSearch) : Next ChunkSearch (Option Nat × Memory) :=
  let blockInfo := chunk.blockInfo s.index
  if emptyFlag s.memory blockInfo = false then s.nextClass s.memory
  else
    let blockEntry := entryPosition s.memory blockInfo
    let current := currentLocation s.memory blockInfo
    match findCell isThreadSafe s.memory blockEntry s.blockSize chunk.cellsSize chunk.cellsSize
      (blockEntry + current * s.blockSize) current with
    | (some object, found, m) =>
      let next := if found + 1 = chunk.cellsSize then 0 else found + 1
      let m := store m (blockInfo + 16) 8 next
      .done (some object, writeObject m object typeInfo fieldLength (isCyclingType typeInfo))
    | (none, current, m) => s.nextClass (store (store m (blockInfo + 16) 8 current) (blockInfo + 8) 1 0)

/-- `HeapChunk::malloc`. Every pass goes on to the next class, so that as many
passes as there are classes suffice. -/
def malloc (chunk : HeapChunk) (isCyclingType : Nat → Bool) (m : Memory)
    (typeInfo index blockSize fieldLength : Nat) (isThreadSafe : Bool) : Option (Option Nat × Memory) :=
  whileTrue (fun s => some (chunk.mallocClass isCyclingType typeInfo fieldLength isThreadSafe s)) numberOfBlocks
    ⟨m, index, blockSize⟩

end HeapChunk

theorem nextBlockSize_blockSize {k : Nat} (bound : k < numberOfBlocks) :
    ∃ size, nextBlockSize (blockSize k) = some size ∧ (k + 1 < numberOfBlocks → size = blockSize (k + 1)) := by
  unfold numberOfBlocks at bound
  interval_cases k <;> exact ⟨_, rfl, by decide⟩

theorem claimCell_dead (isThreadSafe : Bool) {m : Memory} {object : Nat} (dead : stateOf m object = 0) :
    ∃ claimed, claimCell isThreadSafe m object = some claimed ∧ Frame (Range (object + 16) 1) m claimed := by
  cases isThreadSafe with
  | true => exact ⟨_, if_pos dead, Frame.store _ fun _ member => member⟩
  | false => exact ⟨m, if_neg (not_not.mpr dead), Frame.refl _ m⟩

section Search

variable {m : Memory} {c : HeapChunk} {k : Nat}

/-- The outcome of the search: a dead cell and the cursor on it, or the cursor
back inside the class. -/
inductive CellFound (m : Memory) (c : HeapChunk) (k : Nat) : Option Nat × Nat × Memory → Prop
  | found {i : Nat} {claimed : Memory} (inside : i < c.cellsSize) (dead : stateOf m (c.cell k i) = 0)
      (frame : Frame (Range (c.cell k i + 16) 1) m claimed) : CellFound m c k (some (c.cell k i), i, claimed)
  | full {i : Nat} (inside : i = 0 ∨ i < c.cellsSize) : CellFound m c k (none, i, m)

theorem findCell_spec (isThreadSafe : Bool) (m : Memory) (k : Nat) {left current : Nat} (few : left ≤ c.cellsSize)
    (inside : current = 0 ∨ current < c.cellsSize) :
    CellFound m c k
      (findCell isThreadSafe m (c.position k) (blockSize k) c.cellsSize left (c.cell k current) current) := by
  induction left generalizing current with
  | zero => exact .full inside
  | succ left ih =>
    have next : CellFound m c k
        (if current + 1 = c.cellsSize then
          findCell isThreadSafe m (c.position k) (blockSize k) c.cellsSize left (c.position k) 0
        else
          findCell isThreadSafe m (c.position k) (blockSize k) c.cellsSize left (c.cell k current + blockSize k)
            (current + 1)) := by
      split
      · have again := ih (Nat.le_of_succ_le few) (Or.inl (Eq.refl 0))
        rwa [c.cell_zero] at again
      · rw [c.cell_next]
        exact ih (Nat.le_of_succ_le few) (by omega)
    rw [findCell]
    split
    · exact next
    · rename_i dead
      obtain ⟨claimed, success, frame⟩ := claimCell_dead isThreadSafe (not_not.mp dead)
      rw [success]
      exact .found (by omega) (not_not.mp dead) frame

end Search

/-- The object that `HeapChunk::malloc` leaves in the cell it returns. -/
structure ObjectWritten (m m' : Memory) (o typeInfo fieldLength : Nat) (isCyclicType : Bool) : Prop where
  state : stateOf m' o = ObjectState.live.toByte
  count : countOf m' o = 1
  released : asyncReleaseOf m' o = false
  cyclic : isCyclicTypeOf m' o = isCyclicType
  type : typeInfoOf m' o = typeInfo
  length : fieldLengthOf m' o = fieldLength
  lock : lockFlagOf m' o = lockFlagOf m o
  fields : ∀ j, j < fieldLength → fieldOf m' o j = 0

section Write

variable (m : Memory) (o : Nat) {typeInfo fieldLength : Nat} (isCyclicType : Bool)

theorem clearFields_spec (fieldLength : Nat) :
    Frame (Range (o + 40) (8 * fieldLength)) m
        ((List.range fieldLength).foldl (fun m j => store m (fieldAddress o j) 8 0) m) ∧
      ∀ j, j < fieldLength →
        fieldOf ((List.range fieldLength).foldl (fun m j => store m (fieldAddress o j) 8 0) m) o j = 0 := by
  refine FuelLoop.forRange (fun n m' => Frame (Range (o + 40) (8 * n)) m m' ∧ ∀ j, j < n → fieldOf m' o j = 0)
    (fun n bound m' before => ⟨?_, fun j small => ?_⟩) m ⟨Frame.refl _ m, fun j small => absurd small (Nat.not_lt_zero j)⟩
  · have wider : Frame (Range (o + 40) (8 * (n + 1))) m m' := before.1.mono fun b range => by
      unfold Range at *
      omega
    refine wider.trans (Frame.store 0 fun b range => ?_)
    unfold Range fieldAddress sizeofHeapObject at *
    omega
  · rcases Nat.lt_succ_iff_lt_or_eq.mp small with earlier | rfl
    · rw [← before.2 j earlier, fieldOf, fieldOf, load_store_apart]
      unfold Apart fieldAddress sizeofHeapObject
      omega
    · rw [fieldOf, load_store m' (by decide)]

theorem writeObject_frame (typeInfo fieldLength : Nat) :
    Frame (Range o (objectSize fieldLength)) m (writeObject m o typeInfo fieldLength isCyclicType) := by
  have header (m : Memory) (offset n v : Nat) (small : offset + n ≤ 40) :
      Frame (Range o (objectSize fieldLength)) m (store m (o + offset) n v) := Frame.store v fun b range => by
    unfold Range objectSize sizeofHeapObject at *
    omega
  have fields : Frame (Range o (objectSize fieldLength)) m
      ((List.range fieldLength).foldl (fun m j => store m (fieldAddress o j) 8 0) m) :=
    (clearFields_spec m o fieldLength).1.mono fun b range => by
      unfold Range objectSize sizeofHeapObject at *
      omega
  unfold writeObject
  exact (((((fields.trans (header _ 32 8 _ (by decide))).trans (header _ 24 8 _ (by decide))).trans
    (header _ 17 1 _ (by decide))).trans (header _ 16 1 _ (by decide))).trans (header _ 18 1 _ (by decide))).trans
    (header _ 0 8 _ (by decide))

theorem writeObject_written (known : typeInfo < 2 ^ 64) (short : fieldLength < 2 ^ 64) :
    ObjectWritten m (writeObject m o typeInfo fieldLength isCyclicType) o typeInfo fieldLength isCyclicType := by
  obtain ⟨frame, fields⟩ := clearFields_spec m o fieldLength
  unfold writeObject
  generalize (List.range fieldLength).foldl (fun m j => store m (fieldAddress o j) 8 0) m = cleared at *
  have apart {a n b k : Nat} (apart : a + n ≤ b ∨ b + k ≤ a) : Apart a n b k := apart
  dsimp only
  constructor
  · rw [stateOf, store_apart _ _ (apart (by omega)), store_apart _ _ (apart (by omega)), store_byte]
    rfl
  · exact load_store _ (by decide)
  · rw [asyncReleaseOf, store_apart _ _ (apart (by omega)), store_apart _ _ (apart (by omega)),
      store_apart _ _ (apart (by omega)), store_byte]
    rfl
  · rw [isCyclicTypeOf, store_apart _ _ (apart (by omega)), store_byte]
    cases isCyclicType <;> rfl
  · rw [typeInfoOf, load_store_apart _ _ (apart (by omega)), load_store_apart _ _ (apart (by omega)),
      load_store_apart _ _ (apart (by omega)), load_store_apart _ _ (apart (by omega)),
      load_store_apart _ _ (apart (by omega)), load_store _ known]
  · rw [fieldLengthOf, load_store_apart _ _ (apart (by omega)), load_store_apart _ _ (apart (by omega)),
      load_store_apart _ _ (apart (by omega)), load_store_apart _ _ (apart (by omega)), load_store _ short]
  · rw [lockFlagOf, lockFlagOf, store_apart _ _ (apart (by omega)), store_apart _ _ (apart (by omega)),
      store_apart _ _ (apart (by omega)), store_apart _ _ (apart (by omega)), store_apart _ _ (apart (by omega)),
      store_apart _ _ (apart (by omega)), frame _ (by unfold Range; omega)]
  · intro j bound
    rw [← fields j bound]
    have behind : o + 40 ≤ fieldAddress o j := by
      unfold fieldAddress sizeofHeapObject
      omega
    rw [fieldOf, load_store_apart _ _ (apart (by omega)), load_store_apart _ _ (apart (by omega)),
      load_store_apart _ _ (apart (by omega)), load_store_apart _ _ (apart (by omega)),
      load_store_apart _ _ (apart (by omega)), load_store_apart _ _ (apart (by omega)), fieldOf]

end Write

section Outcome

variable {isCyclingType : Nat → Bool} {m m₁ : Memory} {c : HeapChunk} {index typeInfo fieldLength : Nat}

/-- What a call of `HeapChunk::malloc` that starts at class `index` does: it
finds every class from there on full, or it turns a dead cell of one of them
into a live object, and only the table changes beside it. -/
inductive ChunkOutcome (isCyclingType : Nat → Bool) (m : Memory) (c : HeapChunk) (index typeInfo fieldLength : Nat) :
    Option Nat × Memory → Prop
  | null {m' : Memory} (frame : Frame c.InTable m m') (sound : c.Sound m') :
      ChunkOutcome isCyclingType m c index typeInfo fieldLength (none, m')
  | cell {m' : Memory} {k i : Nat} (lower : index ≤ k) (bound : k < numberOfBlocks) (inside : i < c.cellsSize)
      (dead : stateOf m (c.cell k i) = 0) (fits : objectSize fieldLength ≤ blockSize k)
      (written : ObjectWritten m m' (c.cell k i) typeInfo fieldLength (isCyclingType typeInfo))
      (frame : Frame (fun b => c.InTable b ∨ Range (c.cell k i) (objectSize fieldLength) b) m m')
      (sound : c.Sound m') :
      ChunkOutcome isCyclingType m c index typeInfo fieldLength (some (c.cell k i), m')

/-- The classes before the one where the search starts are full. -/
theorem ChunkOutcome.skip {r : Option Nat × Memory} (sound : c.Sound m) (frame : Frame c.InTable m m₁)
    (rest : ChunkOutcome isCyclingType m₁ c (index + 1) typeInfo fieldLength r) :
    ChunkOutcome isCyclingType m c index typeInfo fieldLength r := by
  cases rest with
  | null frame' sound' => exact .null (frame.trans frame') sound'
  | cell lower bound inside dead fits written frame' sound' =>
    have outside {b : Nat} := sound.placed.cell_off_table (b := b) bound inside
    rw [stateOf_frame frame bound fun b => outside] at dead
    have lock := written.lock
    refine .cell (Nat.le_of_succ_le lower) bound inside dead fits { written with lock := ?_ }
      ((frame.mono fun b => Or.inl).trans frame') sound'
    have room := (blockSize_le bound).1
    rw [lock, lockFlagOf, lockFlagOf, frame _ (outside ⟨by omega, by omega⟩)]

theorem blockSize_mono {j k : Nat} (order : j ≤ k) (bound : k < numberOfBlocks) : blockSize j ≤ blockSize k := by
  unfold numberOfBlocks at bound
  induction order with
  | refl => exact Nat.le_refl _
  | @step k order ih =>
    refine (ih (by omega)).trans ?_
    have small : k < 12 := by omega
    interval_cases k <;> decide

/-- What one pass over class `index` does. -/
inductive PassOutcome (isCyclingType : Nat → Bool) (m : Memory) (c : HeapChunk) (index typeInfo fieldLength : Nat) :
    Next ChunkSearch (Option Nat × Memory) → Prop
  | done {r : Option Nat × Memory} (outcome : ChunkOutcome isCyclingType m c index typeInfo fieldLength r) :
      PassOutcome isCyclingType m c index typeInfo fieldLength (.done r)
  | again {m' : Memory} (more : index + 1 < numberOfBlocks) (frame : Frame c.InTable m m') (sound : c.Sound m') :
      PassOutcome isCyclingType m c index typeInfo fieldLength (.again ⟨m', index + 1, blockSize (index + 1)⟩)

/-- After a class that is full the search goes on with the next class. -/
theorem nextClass_spec (bound : index < numberOfBlocks) (frame : Frame c.InTable m m₁) (sound : c.Sound m₁) :
    PassOutcome isCyclingType m c index typeInfo fieldLength
      ((⟨m, index, blockSize index⟩ : ChunkSearch).nextClass m₁) := by
  obtain ⟨size, next, same⟩ := nextBlockSize_blockSize bound
  simp only [ChunkSearch.nextClass, next]
  split
  · exact .done (.null frame sound)
  · rename_i more
    have more : index + 1 < numberOfBlocks := Nat.lt_of_le_of_ne bound more
    rw [same more]
    exact .again more frame sound

/-- A dead cell of the class becomes the object. -/
theorem ChunkOutcome.claimed {i next : Nat} {claimed : Memory} (sound : c.Sound m) (positive : 0 < index)
    (bound : index < numberOfBlocks) (fits : objectSize fieldLength ≤ blockSize index) (known : typeInfo < 2 ^ 64)
    (inside : i < c.cellsSize) (dead : stateOf m (c.cell index i) = 0)
    (frame : Frame (Range (c.cell index i + 16) 1) m claimed) (cursor : next = 0 ∨ next < c.cellsSize) :
    ChunkOutcome isCyclingType m c index typeInfo fieldLength
      (some (c.cell index i), writeObject (store claimed (c.blockInfo index + 16) 8 next) (c.cell index i) typeInfo
        fieldLength (isCyclingType typeInfo)) := by
  have short : fieldLength < 2 ^ 64 := by
    have small := blockSize_mono (Nat.le_of_lt_succ bound) (show 12 < numberOfBlocks by decide)
    have last : blockSize 12 = 512 := rfl
    unfold objectSize at fits
    omega
  have room := (blockSize_le bound).2 positive
  unfold sizeofHeapObject at room
  have header {b : Nat} (member : Range (c.cell index i + 16) 1 b) : Range (c.cell index i) (objectSize fieldLength) b := by
    unfold Range objectSize sizeofHeapObject at *
    omega
  have inCell {b : Nat} (member : Range (c.cell index i) (objectSize fieldLength) b) : c.InCell index i b := by
    unfold HeapChunk.InCell Range at *
    omega
  have soundClaimed : c.Sound claimed :=
    sound.cell bound inside (frame.mono fun b member => inCell (header member))
      (fun first => absurd first (Nat.ne_of_gt positive)) fun _ => by
        have same : fieldLengthOf claimed (c.cell index i) = fieldLengthOf m (c.cell index i) :=
          frame.load fun b range => by
            unfold Range at *
            omega
        rw [same]
        exact sound.fits index i positive bound inside
  have soundCursor := soundClaimed.table (store_info_frame c _ _ bound 16 8 (by decide))
    (soundClaimed.toLaid.cursor index cursor)
  have written := writeObject_written (store claimed (c.blockInfo index + 16) 8 next) (c.cell index i)
    (isCyclingType typeInfo) known short
  have frameCursor := store_info_frame c claimed next bound 16 8 (by decide)
  have frameWrite := writeObject_frame (store claimed (c.blockInfo index + 16) 8 next) (c.cell index i)
    (isCyclingType typeInfo) typeInfo fieldLength
  have lock : lockFlagOf (store claimed (c.blockInfo index + 16) 8 next) (c.cell index i) = lockFlagOf m (c.cell index i) := by
    have outside := sound.placed.cell_off_table bound inside (b := c.cell index i + 19) ⟨by omega, by omega⟩
    rw [lockFlagOf, lockFlagOf, frameCursor _ outside, frame _ (by unfold Range; omega)]
  refine .cell (Nat.le_refl index) bound inside dead fits { written with lock := written.lock.trans lock } ?_ ?_
  · exact ((frame.mono fun b member => Or.inr (header member)).trans (frameCursor.mono fun b => Or.inl)).trans
      (frameWrite.mono fun b => Or.inr)
  · refine soundCursor.cell bound inside (frameWrite.mono fun b => inCell) (fun first => absurd first (Nat.ne_of_gt positive))
      fun _ => ?_
    rw [written.length]
    exact fits

/-- One pass: a cell of the class, or the class is full and nothing but the
table has changed. -/
theorem mallocClass_spec (isThreadSafe : Bool) (sound : c.Sound m) (positive : 0 < index) (bound : index < numberOfBlocks)
    (fits : objectSize fieldLength ≤ blockSize index) (known : typeInfo < 2 ^ 64) :
    PassOutcome isCyclingType m c index typeInfo fieldLength
      (c.mallocClass isCyclingType typeInfo fieldLength isThreadSafe ⟨m, index, blockSize index⟩) := by
  have current := sound.current index bound
  have search := findCell_spec isThreadSafe m index (Nat.le_refl c.cellsSize) current
  simp only [HeapChunk.mallocClass, sound.entry index bound]
  split
  · exact nextClass_spec bound (Frame.refl _ m) sound
  · generalize result : findCell isThreadSafe m (c.position index) (blockSize index) c.cellsSize c.cellsSize
      (c.cell index (currentLocation m (c.blockInfo index))) (currentLocation m (c.blockInfo index)) = r at search
    rw [HeapChunk.cell] at result
    rw [result]
    cases search with
    | @found i claimed inside dead frame =>
      refine .done (.claimed sound positive bound fits known inside dead frame ?_)
      split <;> omega
    | @full i inside =>
      have cursor := store_info_frame c m i bound 16 8 (by decide)
      have flag := store_info_frame c (store m (c.blockInfo index + 16) 8 i) 0 bound 8 1 (by decide)
      have laid := (sound.toLaid.cursor index inside).full index
      exact nextClass_spec bound (cursor.trans flag) (sound.table (cursor.trans flag) laid)

/-- `HeapChunk::malloc` returns, within one pass for each class. -/
theorem HeapChunk.malloc_spec (isThreadSafe : Bool) (sound : c.Sound m) (positive : 0 < index) (bound : index < numberOfBlocks)
    (fits : objectSize fieldLength ≤ blockSize index) (known : typeInfo < 2 ^ 64) :
    ∃ r, c.malloc isCyclingType m typeInfo index (blockSize index) fieldLength isThreadSafe = some r ∧
      ChunkOutcome isCyclingType m c index typeInfo fieldLength r := by
  suffices passes : ∀ fuel, numberOfBlocks ≤ fuel + index → ∃ r,
      whileTrue (fun s => some (c.mallocClass isCyclingType typeInfo fieldLength isThreadSafe s)) fuel
        ⟨m, index, blockSize index⟩ = some r ∧ ChunkOutcome isCyclingType m c index typeInfo fieldLength r by
    exact passes numberOfBlocks (Nat.le_add_right _ _)
  intro fuel
  induction fuel generalizing m index with
  | zero => intro enough; exact absurd enough (by omega)
  | succ fuel ih =>
    intro enough
    have pass : PassOutcome isCyclingType m c index typeInfo fieldLength _ :=
      mallocClass_spec isThreadSafe sound positive bound fits known
    simp only [whileTrue]
    cases next : c.mallocClass isCyclingType typeInfo fieldLength isThreadSafe ⟨m, index, blockSize index⟩ with
    | done r =>
      rw [next] at pass
      cases pass with
      | done outcome => exact ⟨r, rfl, outcome⟩
    | again s =>
      rw [next] at pass
      cases pass with
      | again more frame sound' =>
        obtain ⟨r, run, outcome⟩ := ih sound' (Nat.succ_pos index) more
          (fits.trans (blockSize_mono (Nat.le_succ index) more)) (by omega)
        exact ⟨r, run, outcome.skip sound frame⟩

end Outcome

end CatLa
