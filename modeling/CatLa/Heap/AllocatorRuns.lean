import CatLa.Heap.HeapAllocator
import Mathlib.Logic.Relation

namespace CatLa

open ByteMemory FuelLoop

/-- A state of a run, with the start indices that callers can pass: 0 and
those that a call has written. -/
structure AllocatorState where
  system : SystemMemory
  allocator : HeapAllocator
  starts : List Nat

/-- What can happen to an allocator and its memory: a call of `malloc`, an
object whose state is set to dead, and a word that is stored in a field. -/
inductive AllocatorStep (system : SystemAllocator) (isCyclingType : Nat → Bool) : AllocatorState → AllocatorState → Prop
  | malloc {st : AllocatorState} {start typeInfo fieldsLength fuel : Nat} {r : HeapAllocator.Allocation}
      (known : start ∈ st.starts) (type : typeInfo < 2 ^ 64) (short : fieldsLength < 2 ^ 60)
      (returned : st.allocator.malloc system isCyclingType typeInfo fieldsLength fuel st.system start = some r) :
      AllocatorStep system isCyclingType st ⟨r.system, r.allocator, r.chunkSearchStartIndex :: st.starts⟩
  | release {st : AllocatorState} {cell : Cell} {object : Nat} (held : st.allocator.CellAt cell object) :
      AllocatorStep system isCyclingType st
        { st with system.memory := store st.system.memory (object + 16) 1 ObjectState.dead.toByte.toNat }
  | write {st : AllocatorState} {cell : Cell} {object j : Nat} (held : st.allocator.CellAt cell object)
      (alive : stateOf st.system.memory object ≠ ObjectState.dead.toByte)
      (bound : j < fieldLengthOf st.system.memory object) (value : Nat) :
      AllocatorStep system isCyclingType st
        { st with system.memory := store st.system.memory (fieldAddress object j) 8 value }

/-- The invariant of a run. -/
structure AllocatorState.Sound (st : AllocatorState) : Prop where
  allocator : st.allocator.Sound st.system
  starts : ∀ start ∈ st.starts, start < st.allocator.chunks.length

section Runs

variable {system : SystemAllocator} {isCyclingType : Nat → Bool} {s s' : SystemMemory} {a a' : HeapAllocator}

theorem createChunks_sound {xs : List Nat} {cellsSize : Nat} (sound : a.Sound s) (size : a.chunksCellsSize = cellsSize)
    (made : xs.foldlM (fun (a, s) _ =>
      (createHeapChunk system s cellsSize).map fun (chunk, s) =>
        (({ a with chunks := a.chunks ++ [chunk] } : HeapAllocator), s)) (a, s) = some (a', s')) :
    a'.Sound s' ∧ a'.chunks.length = a.chunks.length + xs.length := by
  induction xs generalizing a s with
  | nil =>
    cases made
    exact ⟨sound, rfl⟩
  | cons x xs ih =>
    rw [List.foldlM_cons, Option.bind_eq_bind, Option.bind_eq_some_iff] at made
    obtain ⟨⟨a₁, s₁⟩, first, rest⟩ := made
    have created : HeapAllocator.createNewChunk system s a = some (a₁, s₁) := by
      subst size
      exact first
    obtain ⟨kept, later, chunk, chunks, -⟩ := createNewChunk_spec sound created
    obtain ⟨last, length⟩ := ih kept (later.cellsSize.trans size) rest
    refine ⟨last, ?_⟩
    rw [length, chunks, List.length_append, List.length_singleton, List.length_cons]
    omega

/-- The constructor leaves a sound allocator with as many chunks as it is told. -/
theorem HeapAllocator.make_sound {isThreadSafe : Bool} {cellsSize n : Nat} (small : chunkBytes cellsSize < 2 ^ 64)
    (made : HeapAllocator.make system s isThreadSafe cellsSize n = some (a, s')) :
    a.Sound s' ∧ a.chunks.length = n := by
  unfold HeapAllocator.make at made
  dsimp only at made
  split at made
  · cases made
  · have empty (s : SystemMemory) : (⟨isThreadSafe, cellsSize, []⟩ : HeapAllocator).Sound s :=
      ⟨small, by simp, by simp, by simp, .nil⟩
    obtain ⟨sound, length⟩ := createChunks_sound (empty _) rfl made
    refine ⟨sound, ?_⟩
    rw [length, List.length_range, List.length_nil, Nat.zero_add]

/-- A byte or a word of one cell is written, and the header still fits. -/
theorem AllocatorState.Sound.cell {st : AllocatorState} (sound : st.Sound) {cell : Cell} {object offset n v : Nat}
    (held : st.allocator.CellAt cell object) (room : offset + n ≤ blockSize cell.block)
    (apart : Apart offset n 24 8) (state : Apart offset n 16 1 ∨ (offset = 16 ∧ n = 1 ∧ v = 0)) :
    AllocatorState.Sound { st with system.memory := store st.system.memory (object + offset) n v } := by
  obtain ⟨chunk, atChunk, bound, inside, rfl⟩ := held
  have chunkSound := sound.allocator.chunk chunk (List.mem_of_getElem? atChunk)
  have frame : Frame (chunk.InCell cell.block cell.index) st.system.memory
      (store st.system.memory (chunk.cell cell.block cell.index + offset) n v) :=
    Frame.store v fun b range => by
      unfold HeapChunk.InCell Range at *
      omega
  refine ⟨sound.allocator.chunk_changed atChunk (frame.mono fun b => chunkSound.placed.inCell bound inside) ?_, sound.starts⟩
  refine chunkSound.cell bound inside frame (fun smallest => ?_) fun positive => ?_
  · have dead := chunkSound.smallest cell.index inside
    rw [← smallest] at dead
    rcases state with state | ⟨rfl, rfl, rfl⟩
    · rw [stateOf, store_apart]
      · exact dead
      · unfold Apart at *
        omega
    · rw [stateOf, store_byte]
      rfl
  · have same : fieldLengthOf (store st.system.memory (chunk.cell cell.block cell.index + offset) n v)
        (chunk.cell cell.block cell.index) = fieldLengthOf st.system.memory (chunk.cell cell.block cell.index) := by
      refine load_store_apart _ v ?_
      unfold Apart at *
      omega
    rw [same]
    exact chunkSound.fits _ _ positive bound inside

/-- A step keeps the invariant. -/
theorem AllocatorStep.sound {st st' : AllocatorState} (sound : st.Sound) (step : AllocatorStep system isCyclingType st st') :
    st'.Sound := by
  cases step with
  | malloc known type short returned =>
    have post := HeapAllocator.malloc_post sound.allocator short type (sound.starts _ known) returned
    refine ⟨post.sound, fun start member => ?_⟩
    rcases List.mem_cons.mp member with rfl | old
    · exact post.start
    · exact Nat.lt_of_lt_of_le (sound.starts start old) post.chunks.length_le
  | release held =>
    obtain ⟨chunk, atChunk, bound, rest⟩ := id held
    have room := (blockSize_le bound).1
    exact sound.cell held (by omega) (Or.inl (by decide)) (Or.inr ⟨rfl, rfl, rfl⟩)
  | @write cell object j held alive bound value =>
    obtain ⟨chunk, atChunk, block, inside, rfl⟩ := id held
    have chunkSound := sound.allocator.chunk chunk (List.mem_of_getElem? atChunk)
    have fits := (chunkSound.object_fits block inside alive).2
    unfold objectSize sizeofHeapObject at fits
    have address : fieldAddress (chunk.cell cell.block cell.index) j = chunk.cell cell.block cell.index + (40 + 8 * j) := by
      unfold fieldAddress sizeofHeapObject
      omega
    rw [address]
    exact sound.cell held (by omega) (Or.inr (by omega)) (Or.inl (Or.inr (by omega)))

theorem AllocatorState.Sound.run {st st' : AllocatorState} (sound : st.Sound)
    (run : Relation.ReflTransGen (AllocatorStep system isCyclingType) st st') : st'.Sound := by
  induction run with
  | refl => exact sound
  | tail _ step ih => exact step.sound ih

/-- The first address behind every block. -/
def topOf (blocks : List Block) : Nat := blocks.foldr (fun b top => max top (b.start + b.size)) 4096

theorem topOf_le (blocks : List Block) : 4096 ≤ topOf blocks ∧ ∀ b ∈ blocks, b.start + b.size ≤ topOf blocks := by
  induction blocks with
  | nil => exact ⟨Nat.le_refl _, fun b member => absurd member List.not_mem_nil⟩
  | cons c rest ih =>
    have step : topOf (c :: rest) = max (topOf rest) (c.start + c.size) := rfl
    refine ⟨by omega, fun b member => ?_⟩
    rcases List.mem_cons.mp member with rfl | old
    · omega
    · have below := ih.2 b old
      omega

/-- A system that hands out one block behind the other. -/
def bumpAllocator : SystemAllocator where
  calloc blocks size := if topOf blocks + size ≤ 2 ^ 64 then some (topOf blocks) else none
  nonnull {blocks size a} called := by
    split at called
    · have lower := (topOf_le blocks).1
      have same := Option.some.inj called
      omega
    · cases called
  bounded {blocks size a} called := by
    split at called
    · have same := Option.some.inj called
      omega
    · cases called
  fresh {blocks size a} called b member := by
    split at called
    · have below := (topOf_le blocks).2 b member
      have same := Option.some.inj called
      exact Or.inr (by omega)
    · cases called

/-- Two chunks of two cells each. -/
def twoChunks : Option (HeapAllocator × SystemMemory) := HeapAllocator.make bumpAllocator ⟨fun _ => 0, []⟩ false 2 2

/-- Where no size wraps, every call of `malloc` in a run that returns a cell
meets its contract. -/
theorem malloc_contract {cellsSize n : Nat} (fit : HeapAllocator.SizesFit cellsSize n) (chunks : 0 < n)
    (made : HeapAllocator.make system s false cellsSize n = some (a, s')) {st : AllocatorState}
    (run : Relation.ReflTransGen (AllocatorStep system isCyclingType) ⟨s', a, [0]⟩ st)
    {start typeInfo fieldsLength fuel address : Nat} {r : HeapAllocator.Allocation} (known : start ∈ st.starts)
    (type : typeInfo < 2 ^ 64) (short : fieldsLength < 2 ^ 60)
    (returned : st.allocator.malloc system isCyclingType typeInfo fieldsLength fuel st.system start = some r)
    (result : r.address = some address) :
    ∃ cell chunk searched, MallocContract st.system st.allocator r.system r.allocator isCyclingType typeInfo fieldsLength
      address cell chunk searched := by
  obtain ⟨sound, length⟩ := HeapAllocator.make_sound fit.chunk made
  have first : AllocatorState.Sound ⟨s', a, [0]⟩ := ⟨sound, fun start member => by
    rw [List.mem_singleton.mp member, length]
    exact chunks⟩
  have last := first.run run
  exact (HeapAllocator.malloc_post last.allocator short type (last.starts start known) returned).contract address result

/-- An object with two fields is allocated, then another one. -/
theorem malloc_contract_twoChunks : ∃ a s first second cell chunk searched,
    HeapAllocator.make bumpAllocator ⟨fun _ => 0, []⟩ false 2 2 = some (a, s) ∧
      a.malloc bumpAllocator (fun _ => true) 8 2 3 s 0 = some first ∧
      first.allocator.malloc bumpAllocator (fun _ => true) 8 2 3 first.system first.chunkSearchStartIndex = some second ∧
      MallocContract first.system first.allocator second.system second.allocator (fun _ => true) 8 2 12472 cell chunk
        searched := by
  have calls : (do
      let (a, s) ← twoChunks
      let first ← a.malloc bumpAllocator (fun _ => true) 8 2 3 s 0
      let second ← first.allocator.malloc bumpAllocator (fun _ => true) 8 2 3 first.system first.chunkSearchStartIndex
      second.address) = some 12472 := by
    decide +kernel
  simp only [Option.bind_eq_bind, Option.bind_eq_some_iff] at calls
  obtain ⟨⟨a, s⟩, made, first, atFirst, second, atSecond, address⟩ := calls
  have run : Relation.ReflTransGen (AllocatorStep bumpAllocator fun _ => true) ⟨s, a, [0]⟩
      ⟨first.system, first.allocator, [first.chunkSearchStartIndex, 0]⟩ :=
    .single (.malloc List.mem_cons_self (by decide) (by decide) atFirst)
  obtain ⟨cell, chunk, searched, contract⟩ := malloc_contract ⟨by decide, by decide⟩ (by decide) made run List.mem_cons_self
    (by decide) (by decide) atSecond address
  exact ⟨a, s, first, second, cell, chunk, searched, made, atFirst, atSecond, contract⟩

/-- Calls on a chunk whose size wraps: its classes lie where those of a chunk of
one cell would, but each goes on for `2 ^ 61 + 1` cells. -/
def wrappedChunk : Option (HeapAllocator.Allocation × HeapAllocator.Allocation) := do
  let (a, s) ← HeapAllocator.make bumpAllocator ⟨fun _ => 0, []⟩ false (2 ^ 61 + 1) 1
  let first ← a.malloc bumpAllocator (fun _ => true) 8 1 1 s 0
  let second ← first.allocator.malloc bumpAllocator (fun _ => true) 8 1 1 first.system 0
  let third ← second.allocator.malloc bumpAllocator (fun _ => true) 8 0 1 second.system 0
  let fourth ← third.allocator.malloc bumpAllocator (fun _ => true) 8 0 1 third.system 0
  some (third, fourth)

/-- The object at 6400 is live when a call returns the cell at 6392, which goes on
over it. -/
theorem malloc_contract_wrapped : ∃ a s st fourth,
    HeapAllocator.make bumpAllocator ⟨fun _ => 0, []⟩ false (2 ^ 61 + 1) 1 = some (a, s) ∧
      Relation.ReflTransGen (AllocatorStep bumpAllocator fun _ => true) ⟨s, a, [0]⟩ st ∧ 0 ∈ st.starts ∧
      stateOf st.system.memory 6400 = ObjectState.live.toByte ∧ fieldLengthOf st.system.memory 6400 = 1 ∧
      st.allocator.malloc bumpAllocator (fun _ => true) 8 0 1 st.system 0 = some fourth ∧ fourth.address = some 6392 ∧
      stateOf fourth.system.memory 6400 = ObjectState.dead.toByte ∧
      ∀ cell chunk searched, ¬MallocContract st.system st.allocator fourth.system fourth.allocator (fun _ => true) 8 0 6392
        cell chunk searched := by
  have facts : wrappedChunk.map (fun (third, fourth) => decide (fourth.allocator.chunks = [⟨2 ^ 61 + 1, 8136⟩] ∧
      fourth.address = some 6392 ∧ stateOf third.system.memory 6400 = 1 ∧ fieldLengthOf third.system.memory 6400 = 1 ∧
      stateOf fourth.system.memory 6400 = 0)) = some true := by
    decide +kernel
  obtain ⟨⟨third, fourth⟩, state, same⟩ := Option.map_eq_some_iff.mp facts
  obtain ⟨chunks, address, live, length, dead⟩ := of_decide_eq_true same
  simp only [wrappedChunk, Option.bind_eq_bind, Option.bind_eq_some_iff, Option.some.injEq, Prod.mk.injEq] at state
  obtain ⟨⟨a, s⟩, made, first, atFirst, second, atSecond, third, atThird, fourth, atFourth, rfl, rfl⟩ := state
  refine ⟨a, s, ⟨third.system, third.allocator, [third.chunkSearchStartIndex, second.chunkSearchStartIndex,
    first.chunkSearchStartIndex, 0]⟩, fourth, made, ?_, by simp, live, length, atFourth, address, dead, ?_⟩
  · exact ((Relation.ReflTransGen.single (.malloc (by simp) (by decide) (by decide) atFirst)).tail
      (.malloc (by simp) (by decide) (by decide) atSecond)).tail (.malloc (by simp) (by decide) (by decide) atThird)
  · -- the region of the class would have to end before the table
    intro cell chunk searched contract
    obtain rfl : chunk = ⟨2 ^ 61 + 1, 8136⟩ := by
      have held := contract.held
      rw [chunks] at held
      exact List.mem_singleton.mp (List.mem_of_getElem? held)
    have table := contract.table
    have size := (blockSize_le contract.block).1
    have room := Nat.mul_le_mul_left (2 ^ 61 + 1) size
    dsimp only at table
    omega

end Runs

end CatLa
