import CatLa.Heap.AllocatorRuns
import Mathlib.Data.Nat.ModEq

namespace CatLa

open ByteMemory FuelLoop

/-- A cell that a search from class `index` on comes upon: it is dead, and its
class has not been found full. -/
def HeapChunk.Offers (m : Memory) (c : HeapChunk) (index : Nat) : Prop :=
  ∃ k i, index ≤ k ∧ k < numberOfBlocks ∧ i < c.cellsSize ∧ emptyFlag m (c.blockInfo k) = true ∧ stateOf m (c.cell k i) = 0

/-- Counting round a circle from any start gets everywhere. -/
theorem rotation_onto {n start p : Nat} (inside : start < n) (member : p < n) : ∃ j, j < n ∧ (start + j) % n = p := by
  refine ⟨(p + (n - start)) % n, Nat.mod_lt _ (by omega), ?_⟩
  rw [Nat.add_mod_mod, show start + (p + (n - start)) = p + n by omega, Nat.add_mod_right, Nat.mod_eq_of_lt member]

theorem rotation_inj {n start i j : Nat} (left : i < n) (right : j < n) (same : (start + i) % n = (start + j) % n) : i = j := by
  have equal : i % n = j % n := Nat.ModEq.add_left_cancel' start same
  rwa [Nat.mod_eq_of_lt left, Nat.mod_eq_of_lt right] at equal

theorem rotation_next {n start i current : Nat} (inside : start < n) (here : current = (start + i) % n) :
    (if current + 1 = n then 0 else current + 1) = (start + (i + 1)) % n := by
  have bound := Nat.mod_lt (start + i) (show 0 < n by omega)
  rw [← Nat.add_assoc, ← Nat.mod_add_mod, ← here]
  split
  · rename_i last
    rw [last, Nat.mod_self]
  · rw [Nat.mod_eq_of_lt (by omega)]

section Chunk

variable {m m' : Memory} {c : HeapChunk} {index k : Nat}

/-- A search without a result has seen every cell from the cursor on. -/
theorem findCell_none (isThreadSafe : Bool) {left current : Nat} (inside : current < c.cellsSize)
    (result : (findCell isThreadSafe m (c.position k) (blockSize k) c.cellsSize left (c.cell k current) current).1 = none) :
    ∀ j, j < left → stateOf m (c.cell k ((current + j) % c.cellsSize)) ≠ 0 := by
  induction left generalizing current with
  | zero => exact fun j small => absurd small (Nat.not_lt_zero j)
  | succ left ih =>
    by_cases dead : stateOf m (c.cell k current) = 0
    · obtain ⟨claimed, success, -⟩ := claimCell_dead isThreadSafe dead
      rw [findCell, if_neg (not_not.mpr dead), success] at result
      cases result
    · rw [findCell, if_pos dead] at result
      rintro (_ | j) small
      · rwa [Nat.add_zero, Nat.mod_eq_of_lt inside]
      · split at result
        · rename_i last
          have later := @ih 0 (by omega) (by rwa [c.cell_zero]) j (by omega)
          rwa [show current + (j + 1) = c.cellsSize + (0 + j) by omega, Nat.add_mod_left]
        · rename_i more
          rw [c.cell_next] at result
          have later := ih (by omega) result j (by omega)
          rwa [show current + (j + 1) = current + 1 + j by omega]

/-- A class without a result has no dead cell. -/
theorem findCell_full (isThreadSafe : Bool) {current : Nat} (inside : current = 0 ∨ current < c.cellsSize)
    (result : (findCell isThreadSafe m (c.position k) (blockSize k) c.cellsSize c.cellsSize (c.cell k current) current).1 =
      none) {i : Nat} (member : i < c.cellsSize) : stateOf m (c.cell k i) ≠ 0 := by
  have start : current < c.cellsSize := by omega
  obtain ⟨j, small, here⟩ := rotation_onto start member
  rw [← here]
  exact findCell_none isThreadSafe start result j small

theorem HeapChunk.Offers.congr (same : ∀ k, index ≤ k → k < numberOfBlocks →
    emptyFlag m' (c.blockInfo k) = emptyFlag m (c.blockInfo k) ∧
      ∀ i, i < c.cellsSize → stateOf m' (c.cell k i) = stateOf m (c.cell k i)) : c.Offers m' index ↔ c.Offers m index := by
  constructor
  · rintro ⟨k, i, lower, bound, inside, flag, dead⟩
    obtain ⟨flags, states⟩ := same k lower bound
    exact ⟨k, i, lower, bound, inside, flags ▸ flag, states i inside ▸ dead⟩
  · rintro ⟨k, i, lower, bound, inside, flag, dead⟩
    obtain ⟨flags, states⟩ := same k lower bound
    exact ⟨k, i, lower, bound, inside, flags.trans flag, (states i inside).trans dead⟩

/-- Nothing happens to the offers of a chunk when bytes outside of it change. -/
theorem HeapChunk.Offers.outside {P : Nat → Prop} (placed : c.Placed) (frame : Frame P m m')
    (beyond : ∀ b, c.InBlock b → ¬P b) : c.Offers m' index ↔ c.Offers m index :=
  Offers.congr fun _ _ bound => ⟨emptyFlag_frame frame bound fun b member => beyond b (placed.inTable member),
    fun _ inCell => stateOf_frame frame bound fun b member => beyond b (placed.inCell bound inCell member)⟩

/-- A class that is closed or full offers nothing. -/
theorem HeapChunk.Offers.next
    (nothing : emptyFlag m (c.blockInfo index) = true → ∀ i, i < c.cellsSize → stateOf m (c.cell index i) ≠ 0) :
    c.Offers m index ↔ c.Offers m (index + 1) := by
  constructor
  · rintro ⟨k, i, lower, bound, inside, flag, dead⟩
    rcases Nat.lt_or_eq_of_le lower with above | rfl
    · exact ⟨k, i, above, bound, inside, flag, dead⟩
    · exact absurd dead (nothing flag i inside)
  · rintro ⟨k, i, lower, rest⟩
    exact ⟨k, i, Nat.le_of_succ_le lower, rest⟩

/-- The answer of `HeapChunk::malloc`: a cell when one is offered, and null
otherwise, when only the table has changed. -/
inductive ChunkAnswer (m : Memory) (c : HeapChunk) (index : Nat) : Option Nat × Memory → Prop
  | cell {m' : Memory} {k i : Nat} (bound : k < numberOfBlocks) (inside : i < c.cellsSize) (offers : c.Offers m index) :
      ChunkAnswer m c index (some (c.cell k i), m')
  | null {m' : Memory} (frame : Frame c.InTable m m') (laid : c.Laid m') (nothing : ¬c.Offers m index) :
      ChunkAnswer m c index (none, m')

theorem ChunkAnswer.skip {r : Option Nat × Memory} (frame : Frame c.InTable m m')
    (same : c.Offers m index ↔ c.Offers m' (index + 1)) (rest : ChunkAnswer m' c (index + 1) r) :
    ChunkAnswer m c index r := by
  cases rest with
  | cell bound inside offers => exact .cell bound inside (same.mpr offers)
  | null frame' laid nothing => exact .null (frame.trans frame') laid (nothing ∘ same.mp)

/-- What one pass over class `index` does. -/
inductive ClassAnswer (m : Memory) (c : HeapChunk) (index : Nat) : Next ChunkSearch (Option Nat × Memory) → Prop
  | done {r : Option Nat × Memory} (answer : ChunkAnswer m c index r) : ClassAnswer m c index (.done r)
  | again {m' : Memory} (more : index + 1 < numberOfBlocks) (frame : Frame c.InTable m m') (laid : c.Laid m')
      (same : c.Offers m index ↔ c.Offers m' (index + 1)) :
      ClassAnswer m c index (.again ⟨m', index + 1, blockSize (index + 1)⟩)

theorem nextClass_answer (bound : index < numberOfBlocks) (frame : Frame c.InTable m m') (laid : c.Laid m')
    (same : c.Offers m index ↔ c.Offers m' (index + 1)) :
    ClassAnswer m c index ((⟨m, index, blockSize index⟩ : ChunkSearch).nextClass m') := by
  obtain ⟨size, next, sizes⟩ := nextBlockSize_blockSize bound
  simp only [ChunkSearch.nextClass, next]
  split
  · rename_i last
    refine .done (.null frame laid fun offers => ?_)
    obtain ⟨k, i, lower, inside, -⟩ := same.mp offers
    unfold numberOfBlocks at inside
    omega
  · rename_i more
    have more : index + 1 < numberOfBlocks := Nat.lt_of_le_of_ne bound more
    rw [sizes more]
    exact .again more frame laid same

theorem mallocClass_answer (isCyclingType : Nat → Bool) (typeInfo fieldLength : Nat) (isThreadSafe : Bool) (laid : c.Laid m)
    (bound : index < numberOfBlocks) :
    ClassAnswer m c index
      (c.mallocClass isCyclingType typeInfo fieldLength isThreadSafe ⟨m, index, blockSize index⟩) := by
  have current := laid.current index bound
  simp only [HeapChunk.mallocClass, laid.entry index bound]
  split
  · rename_i closed
    refine nextClass_answer bound (Frame.refl _ m) laid (HeapChunk.Offers.next fun opened => ?_)
    rw [closed] at opened
    cases opened
  · rename_i opened
    rw [Bool.not_eq_false] at opened
    have search := findCell_spec isThreadSafe m index (Nat.le_refl c.cellsSize) current
    have full := findCell_full (k := index) (m := m) isThreadSafe current
    generalize result : findCell isThreadSafe m (c.position index) (blockSize index) c.cellsSize c.cellsSize
      (c.cell index (currentLocation m (c.blockInfo index))) (currentLocation m (c.blockInfo index)) = r at search full
    rw [HeapChunk.cell] at result
    rw [result]
    cases search with
    | @found i claimed inside dead frame =>
      exact .done (.cell bound inside ⟨index, i, Nat.le_refl _, bound, inside, opened, dead⟩)
    | @full i inside =>
      have cursor := store_info_frame c m i bound 16 8 (by decide)
      have flag := store_info_frame c (store m (c.blockInfo index + 16) 8 i) 0 bound 8 1 (by decide)
      have frame := cursor.trans flag
      refine nextClass_answer bound frame ((laid.cursor index inside).full index)
        ((HeapChunk.Offers.next fun _ i member => full rfl member).trans
          (HeapChunk.Offers.congr fun k above inside => ⟨?_, ?_⟩).symm)
      · have apart {offset n : Nat} (small : offset + n ≤ 24) : Apart (c.blockInfo index + offset) n (c.blockInfo k + 8) 1 := by
          unfold Apart HeapChunk.blockInfo sizeofBlockInfo
          omega
        unfold emptyFlag
        rw [store_apart _ _ (apart (by decide)), store_apart _ _ (apart (by decide))]
      · exact fun i member => stateOf_frame frame inside fun b => laid.placed.cell_off_table inside member

/-- `HeapChunk::malloc` returns a cell exactly when one is offered. -/
theorem HeapChunk.malloc_answer (isCyclingType : Nat → Bool) (typeInfo fieldLength : Nat) (isThreadSafe : Bool)
    (laid : c.Laid m) (bound : index < numberOfBlocks) :
    ∃ r, c.malloc isCyclingType m typeInfo index (blockSize index) fieldLength isThreadSafe = some r ∧
      ChunkAnswer m c index r := by
  suffices passes : ∀ fuel, numberOfBlocks ≤ fuel + index → ∃ r,
      whileTrue (fun s => some (c.mallocClass isCyclingType typeInfo fieldLength isThreadSafe s)) fuel
        ⟨m, index, blockSize index⟩ = some r ∧ ChunkAnswer m c index r by
    exact passes numberOfBlocks (Nat.le_add_right _ _)
  intro fuel
  induction fuel generalizing m index with
  | zero => intro enough; exact absurd enough (by omega)
  | succ fuel ih =>
    intro enough
    have pass := mallocClass_answer isCyclingType typeInfo fieldLength isThreadSafe laid bound
    simp only [whileTrue]
    cases next : c.mallocClass isCyclingType typeInfo fieldLength isThreadSafe ⟨m, index, blockSize index⟩ with
    | done r =>
      rw [next] at pass
      cases pass with
      | done answer => exact ⟨r, rfl, answer⟩
    | again s =>
      rw [next] at pass
      cases pass with
      | again more frame laid' same =>
        obtain ⟨r, run, answer⟩ := ih laid' more (by omega)
        exact ⟨r, run, answer.skip frame same⟩

end Chunk

namespace HeapAllocator

/-- No chunk has a cell for the request. -/
def NothingOffered (m : Memory) (a : HeapAllocator) (index : Nat) : Prop := ∀ chunk ∈ a.chunks, ¬chunk.Offers m index

/-- What `malloc` returns when it does not return null: a cell of a chunk that
there was, or of the one chunk that it has created when nothing was offered. -/
inductive SearchResult (m : Memory) (a : HeapAllocator) (index : Nat) (r : Allocation) : Prop
  | reused {address k i : Nat} (offered : ¬a.NothingOffered m index) (same : r.allocator = a)
      (found : r.address = some address) (held : a.CellAt ⟨r.chunkSearchStartIndex, k, i⟩ address) : SearchResult m a index r
  | created {address k i : Nat} {fresh : HeapChunk} (nothing : a.NothingOffered m index)
      (chunks : r.allocator.chunks = a.chunks ++ [fresh]) (found : r.address = some address)
      (held : r.allocator.CellAt ⟨r.chunkSearchStartIndex, k, i⟩ address) : SearchResult m a index r

/-- The chunks are asked one after the other, from the start index on. Those
that have not been asked are as they were. -/
structure FirstRound (s : SystemMemory) (a : HeapAllocator) (start index : Nat) (st : Search) : Prop where
  allocator : st.allocator = a
  array : st.heapChunks = a.chunks
  few : st.i ≤ a.chunks.length
  current : st.currentChunkIndex = (start + st.i) % a.chunks.length
  sound : a.Sound st.system
  blocks : st.system.blocks = s.blocks
  asked : ∀ j, j < st.i → ∀ chunk, a.chunks[(start + j) % a.chunks.length]? = some chunk → ¬chunk.Offers s.memory index
  left : ∀ j, st.i ≤ j → j < a.chunks.length → ∀ chunk, a.chunks[(start + j) % a.chunks.length]? = some chunk →
    ∀ b, chunk.InBlock b → st.system.memory b = s.memory b

/-- The search that starts over after a chunk has been created. -/
structure SecondRound (a : HeapAllocator) (index : Nat) (fresh : HeapChunk) (st : Search) : Prop where
  chunks : st.allocator.chunks = a.chunks ++ [fresh]
  array : st.heapChunks = st.allocator.chunks
  sound : st.allocator.Sound st.system
  behind : st.i ≤ st.currentChunkIndex
  current : st.currentChunkIndex ≤ a.chunks.length
  offers : fresh.Offers st.system.memory index

section Rounds

variable {system : SystemAllocator} {isCyclingType : Nat → Bool} {typeInfo fieldsLength start index : Nat}
  {s : SystemMemory} {a : HeapAllocator} {st : Search} {fresh : HeapChunk}

/-- The pass over one chunk, by the chunk's answer. -/
theorem mallocPass_asked (system : SystemAllocator) (isCyclingType : Nat → Bool) (typeInfo fieldsLength : Nat) {chunk : HeapChunk} (more : st.i ≠ st.heapChunks.length)
    (here : st.heapChunks[st.currentChunkIndex]? = some chunk) (laid : chunk.Laid st.system.memory)
    (bound : index < numberOfBlocks) :
    ∃ r, ChunkAnswer st.system.memory chunk index r ∧
      mallocPass system isCyclingType typeInfo fieldsLength index (blockSize index) st =
        match r with
        | (some address, m) =>
          some (.done ⟨some address, st.currentChunkIndex, { st.system with memory := m }, st.allocator⟩)
        | (none, m) =>
          some (.again ⟨{ st.system with memory := m }, st.allocator, st.heapChunks, st.i + 1,
            if st.currentChunkIndex + 1 = st.heapChunks.length then 0 else st.currentChunkIndex + 1⟩) := by
  obtain ⟨r, run, answer⟩ := HeapChunk.malloc_answer isCyclingType typeInfo fieldsLength st.allocator.isThreadSafe laid bound
  refine ⟨r, answer, ?_⟩
  simp only [mallocPass, if_neg more, here, run]
  obtain ⟨_ | address, m⟩ := r <;> rfl

theorem FirstRound.first (sound : a.Sound s) (inside : start < a.chunks.length) :
    FirstRound s a start index ⟨s, a, a.chunks, 0, start⟩ where
  allocator := rfl
  array := rfl
  few := Nat.zero_le _
  current := (Nat.mod_eq_of_lt inside).symm
  sound := sound
  blocks := rfl
  asked j small := absurd small (Nat.not_lt_zero j)
  left _ _ _ _ _ _ _ := rfl

/-- Once all chunks have been asked, nothing was offered. -/
theorem FirstRound.over (round : FirstRound s a start index st) (inside : start < a.chunks.length)
    (last : st.i = a.chunks.length) : a.NothingOffered s.memory index := by
  intro chunk member
  obtain ⟨p, bound, here⟩ := List.getElem_of_mem member
  obtain ⟨j, small, rotated⟩ := rotation_onto inside bound
  refine round.asked j (by omega) chunk ?_
  rw [rotated, List.getElem?_eq_getElem bound, here]

variable (system isCyclingType typeInfo fieldsLength)

/-- One chunk is asked in the first round. -/
theorem FirstRound.pass (round : FirstRound s a start index st) (inside : start < a.chunks.length)
    (bound : index < numberOfBlocks) (more : st.i ≠ a.chunks.length) :
    ∃ next, mallocPass system isCyclingType typeInfo fieldsLength index (blockSize index) st = some next ∧
      match next with
      | .done r => SearchResult s.memory a index r
      | .again st' => FirstRound s a start index st' ∧ st'.i = st.i + 1 := by
  have few := round.few
  have rotated := round.current
  have current : st.currentChunkIndex < a.chunks.length := by
    rw [rotated]
    exact Nat.mod_lt _ (by omega)
  obtain ⟨chunk, here⟩ : ∃ chunk, a.chunks[st.currentChunkIndex]? = some chunk := ⟨_, List.getElem?_eq_getElem current⟩
  have member := List.mem_of_getElem? here
  have laid := (round.sound.chunk chunk member).toLaid
  have same : chunk.Offers st.system.memory index ↔ chunk.Offers s.memory index := by
    refine HeapChunk.Offers.outside (P := fun b => ¬chunk.InBlock b) laid.placed (fun b inBlock => ?_)
      fun b inBlock outside => outside inBlock
    exact round.left st.i (Nat.le_refl _) (by omega) chunk (by rw [← rotated, here]) b (not_not.mp inBlock)
  obtain ⟨r, answer, pass⟩ := mallocPass_asked system isCyclingType typeInfo fieldsLength (by rwa [round.array]) (by rwa [round.array]) laid bound
  cases answer with
  | cell small inCell offers =>
    exact ⟨_, pass, .reused (fun nothing => nothing chunk member (same.mp offers)) round.allocator rfl
      ⟨chunk, here, small, inCell, rfl⟩⟩
  | @null m frame laid' nothing =>
    have kept := (round.sound.chunk chunk member).table frame laid'
    refine ⟨_, pass, ⟨round.allocator, round.array, by dsimp only; omega, ?_,
      round.sound.chunk_changed here (frame.mono fun b => kept.placed.inTable) kept, round.blocks, ?_, ?_⟩, rfl⟩
    · dsimp only
      rw [round.array]
      exact rotation_next inside rotated
    · intro j small other atOther
      rcases Nat.lt_succ_iff_lt_or_eq.mp small with before | rfl
      · exact round.asked j before other atOther
      · rw [← rotated, here] at atOther
        obtain rfl := Option.some.inj atOther
        exact nothing ∘ same.mpr
    · intro j above small other atOther b inBlock
      rw [← round.left j (Nat.le_of_succ_le above) small other atOther b inBlock]
      refine frame b fun inTable => round.sound.off_block atOther here (fun equal => ?_) inBlock (kept.placed.inTable inTable)
      rw [rotated] at equal
      have equal := rotation_inj small (by omega) equal
      dsimp only at above
      omega

/-- One chunk is asked in the second round. -/
theorem SecondRound.pass (round : SecondRound a index fresh st) (nothing : a.NothingOffered s.memory index)
    (bound : index < numberOfBlocks) :
    ∃ next, mallocPass system isCyclingType typeInfo fieldsLength index (blockSize index) st = some next ∧
      match next with
      | .done r => SearchResult s.memory a index r
      | .again st' => SecondRound a index fresh st' ∧ st'.currentChunkIndex = st.currentChunkIndex + 1 := by
  have behind := round.behind
  have limit := round.current
  have length : st.heapChunks.length = a.chunks.length + 1 := by
    rw [round.array, round.chunks, List.length_append, List.length_singleton]
  have current : st.currentChunkIndex < st.allocator.chunks.length := by
    rw [← round.array]
    omega
  obtain ⟨chunk, here⟩ : ∃ chunk, st.allocator.chunks[st.currentChunkIndex]? = some chunk :=
    ⟨_, List.getElem?_eq_getElem current⟩
  have last : st.allocator.chunks[a.chunks.length]? = some fresh := by
    rw [round.chunks, List.getElem?_append_right (Nat.le_refl _), Nat.sub_self]
    rfl
  have member := List.mem_of_getElem? here
  have laid := (round.sound.chunk chunk member).toLaid
  obtain ⟨r, answer, pass⟩ := mallocPass_asked system isCyclingType typeInfo fieldsLength (by omega) (by rwa [round.array]) laid bound
  cases answer with
  | cell small inCell offers => exact ⟨_, pass, .created nothing round.chunks rfl ⟨chunk, here, small, inCell, rfl⟩⟩
  | @null m frame laid' refused =>
    have kept := (round.sound.chunk chunk member).table frame laid'
    have different : a.chunks.length ≠ st.currentChunkIndex := fun same => by
      rw [← same, last] at here
      exact refused (Option.some.inj here ▸ round.offers)
    rw [if_neg (by omega)] at pass
    refine ⟨_, pass, ⟨round.chunks, round.array, round.sound.chunk_changed here (frame.mono fun b => kept.placed.inTable) kept,
      Nat.succ_le_succ behind, by dsimp only; omega, ?_⟩, rfl⟩
    have placed := (round.sound.chunk fresh (List.mem_of_getElem? last)).placed
    refine (HeapChunk.Offers.outside placed (frame.mono fun b => kept.placed.inTable) fun b inBlock => ?_).mpr round.offers
    exact round.sound.off_block last here different inBlock

/-- A chunk is created between the rounds. -/
theorem FirstRound.create (round : FirstRound s a start index st) (inside : start < a.chunks.length)
    (bound : index < numberOfBlocks) (last : st.i = a.chunks.length) (inhabited : 0 < a.chunksCellsSize)
    (room : (createHeapChunk system s a.chunksCellsSize).isSome) :
    ∃ st' fresh, mallocPass system isCyclingType typeInfo fieldsLength index (blockSize index) st = some (.again st') ∧
      SecondRound a index fresh st' := by
  obtain ⟨⟨fresh, after⟩, made⟩ := createHeapChunk_some room round.blocks
  have created : createNewChunk system st.system a = some ({ a with chunks := a.chunks ++ [fresh] }, after) := by
    rw [createNewChunk, made, Option.map_some]
  obtain ⟨sound, later, chunk, chunks, empty⟩ := createNewChunk_spec round.sound created
  obtain rfl := (List.singleton_inj.mp (List.append_cancel_left chunks))
  have cells := sound.cells fresh (List.mem_append_right _ (List.mem_singleton_self _))
  refine ⟨⟨after, { a with chunks := a.chunks ++ [fresh] }, a.chunks ++ [fresh], 0, st.currentChunkIndex⟩, fresh, ?_, rfl, rfl,
    sound, Nat.zero_le _, ?_, index, 0, Nat.le_refl _, bound, by rw [cells]; exact inhabited, empty.empty index bound,
    empty.dead index 0 bound (by rw [cells]; exact inhabited)⟩
  · rw [mallocPass, if_pos (by rw [round.array, last]), round.allocator, created, Option.map_some]
  · have below := Nat.mod_lt (start + st.i) (show 0 < a.chunks.length by omega)
    rw [← round.current] at below
    exact Nat.le_of_lt below

variable {fieldsLength}

/-- The search returns. A chunk has to be created only when nothing is offered. -/
theorem malloc_search (sound : a.Sound s) (inside : start < a.chunks.length) {size : Nat}
    (chosen : chooseBlock fieldsLength = some (index, size)) (bound : index < numberOfBlocks) (same : size = blockSize index)
    (room : a.NothingOffered s.memory index →
      0 < a.chunksCellsSize ∧ (createHeapChunk system s a.chunksCellsSize).isSome) :
    ∃ r, Returns (fun fuel => a.malloc system isCyclingType typeInfo fieldsLength fuel s start) r ∧
      SearchResult s.memory a index r := by
  subst same
  simp only [malloc, chosen]
  have pass (left : Nat) (st : Search) (inv : (FirstRound s a start index st ∧ left = 2 * a.chunks.length + 2 - st.i) ∨
      a.NothingOffered s.memory index ∧ ∃ fresh, SecondRound a index fresh st ∧ left = a.chunks.length + 1 - st.currentChunkIndex) :
      ∃ next, Returns (fun _ => mallocPass system isCyclingType typeInfo fieldsLength index (blockSize index) st) next ∧
        Progress (fun left st => (FirstRound s a start index st ∧ left = 2 * a.chunks.length + 2 - st.i) ∨
          a.NothingOffered s.memory index ∧ ∃ fresh, SecondRound a index fresh st ∧
            left = a.chunks.length + 1 - st.currentChunkIndex) (SearchResult s.memory a index) left next := by
    rcases inv with ⟨round, rfl⟩ | ⟨nothing, fresh, round, rfl⟩
    · have few := round.few
      by_cases last : st.i = a.chunks.length
      · have nothing := round.over inside last
        obtain ⟨inhabited, room⟩ := room nothing
        obtain ⟨st', fresh, step, round'⟩ := round.create system isCyclingType typeInfo fieldsLength inside bound last inhabited room
        refine ⟨_, .of_eq fun _ => step, _, ?_, .inr ⟨nothing, fresh, round', rfl⟩⟩
        omega
      · obtain ⟨next, step, outcome⟩ := round.pass system isCyclingType typeInfo fieldsLength inside bound last
        refine ⟨next, .of_eq fun _ => step, ?_⟩
        cases next with
        | done r => exact outcome
        | again st' =>
          obtain ⟨round', next⟩ := outcome
          exact ⟨_, by omega, .inl ⟨round', rfl⟩⟩
    · have limit := round.current
      obtain ⟨next, step, outcome⟩ := round.pass system isCyclingType typeInfo fieldsLength nothing bound
      refine ⟨next, .of_eq fun _ => step, ?_⟩
      cases next with
      | done r => exact outcome
      | again st' =>
        obtain ⟨round', next⟩ := outcome
        exact ⟨_, by omega, .inr ⟨nothing, fresh, round', rfl⟩⟩
  exact returns_whileTrue _ pass (.inl ⟨.first sound inside, rfl⟩)

end Rounds

end HeapAllocator

end CatLa
