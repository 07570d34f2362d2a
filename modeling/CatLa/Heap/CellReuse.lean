import CatLa.Heap.CellSearch

namespace CatLa

open ByteMemory FuelLoop

instance (m : Memory) (c : HeapChunk) (index : Nat) : Decidable (c.Offers m index) :=
  decidable_of_iff (∃ k, k < numberOfBlocks ∧ ∃ i, i < c.cellsSize ∧ index ≤ k ∧
    emptyFlag m (c.blockInfo k) = true ∧ stateOf m (c.cell k i) = 0) <| by
    constructor
    · rintro ⟨k, bound, i, inside, lower, flag, dead⟩
      exact ⟨k, i, lower, bound, inside, flag, dead⟩
    · rintro ⟨k, i, lower, bound, inside, flag, dead⟩
      exact ⟨k, bound, i, inside, lower, flag, dead⟩

namespace HeapAllocator

instance (m : Memory) (a : HeapAllocator) (index : Nat) : Decidable (a.NothingOffered m index) :=
  inferInstanceAs (Decidable (∀ chunk ∈ a.chunks, ¬chunk.Offers m index))

/-- The index and the size of the class that is chosen belong together, also
when the size of the object wraps. -/
theorem chooseBlock_class {fieldsLength index size : Nat} (chosen : chooseBlock fieldsLength = some (index, size)) :
    index < numberOfBlocks ∧ size = blockSize index := by
  unfold chooseBlock at chosen
  generalize (sizeofHeapObject + fieldsLength <<< 3) % 2 ^ 64 = byteSize at chosen
  have eighths (n : Nat) : n >>> 3 = n / 8 ∧ n &&& 7 = n % 8 := ⟨Nat.shiftRight_eq_div_pow n 3, Nat.and_two_pow_sub_one_eq_mod n 3⟩
  have parts (n : Nat) : n >>> 7 = n / 128 ∧ n &&& 127 = n % 128 :=
    ⟨Nat.shiftRight_eq_div_pow n 7, Nat.and_two_pow_sub_one_eq_mod n 7⟩
  simp only [(eighths _).1, (eighths _).2, (parts _).1, (parts _).2, Nat.shiftLeft_eq] at chosen
  split at chosen
  · obtain ⟨rfl, rfl⟩ := Prod.mk.inj (Option.some.inj chosen)
    have small : (if byteSize ≤ 32 then 0
        else if (byteSize - 32) % 8 = 0 then (byteSize - 32) / 8 else (byteSize - 32) / 8 + 1) ≤ 8 := by
      split
      · omega
      · split <;> omega
    revert small
    generalize (if byteSize ≤ 32 then 0
      else if (byteSize - 32) % 8 = 0 then (byteSize - 32) / 8 else (byteSize - 32) / 8 + 1) = index
    intro small
    interval_cases index <;> decide
  · split at chosen
    · obtain ⟨rfl, rfl⟩ := Prod.mk.inj (Option.some.inj chosen)
      have small : (if byteSize ≤ 128 then 0
          else if (byteSize - 128) % 128 = 0 then (byteSize - 128) / 128 else (byteSize - 128) / 128 + 1) ≤ 3 := by
        split
        · omega
        · split <;> omega
      revert small
      generalize (if byteSize ≤ 128 then 0
        else if (byteSize - 128) % 128 = 0 then (byteSize - 128) / 128 else (byteSize - 128) / 128 + 1) = index
      intro small
      interval_cases index <;> decide
    · cases chosen

section Reuse

variable {system : SystemAllocator} {isCyclingType : Nat → Bool} {typeInfo fieldsLength start index size : Nat}
  {s : SystemMemory} {a : HeapAllocator}

/-- `malloc` returns a cell of a chunk that there is, and creates none. -/
def ReusesCell (system : SystemAllocator) (isCyclingType : Nat → Bool) (typeInfo fieldsLength : Nat) (s : SystemMemory)
    (a : HeapAllocator) (start : Nat) : Prop :=
  ∃ r address cell, Returns (fun fuel => a.malloc system isCyclingType typeInfo fieldsLength fuel s start) r ∧
    r.address = some address ∧ a.CellAt cell address ∧ r.allocator.chunks = a.chunks

/-- When nothing is offered, a call that returns has created a chunk. -/
theorem malloc_creates (sound : a.Sound s) (inside : start < a.chunks.length)
    (chosen : chooseBlock fieldsLength = some (index, size)) (nothing : a.NothingOffered s.memory index) {fuel : Nat}
    {r : Allocation} (returned : a.malloc system isCyclingType typeInfo fieldsLength fuel s start = some r) :
    a.chunks.length < r.allocator.chunks.length := by
  obtain ⟨bound, rfl⟩ := chooseBlock_class chosen
  simp only [malloc, chosen] at returned
  have created {st : Search} {next : Next Search Allocation} (asked : st.i = st.heapChunks.length)
      (pass : mallocPass system isCyclingType typeInfo fieldsLength index (blockSize index) st = some next) :
      ∃ st', next = .again st' ∧ st'.allocator.chunks.length = st.allocator.chunks.length + 1 := by
    rw [mallocPass, if_pos asked, Option.map_eq_some_iff] at pass
    obtain ⟨⟨grown, after⟩, made, rfl⟩ := pass
    rw [createNewChunk, Option.map_eq_some_iff] at made
    obtain ⟨_, -, same⟩ := made
    obtain ⟨rfl, -⟩ := Prod.mk.inj same
    exact ⟨_, rfl, List.length_append⟩
  have kept {st : Search} {next : Next Search Allocation} (more : st.i ≠ st.heapChunks.length)
      (pass : mallocPass system isCyclingType typeInfo fieldsLength index (blockSize index) st = some next) :
      (∀ r, next = .done r → r.allocator = st.allocator) ∧ ∀ st', next = .again st' → st'.allocator = st.allocator := by
    rw [mallocPass, if_neg more] at pass
    split at pass
    · cases pass
    · split at pass
      · cases pass
      · cases pass
        exact ⟨fun r same => (Next.done.inj same) ▸ rfl, fun st' same => absurd same (by simp)⟩
      · cases pass
        exact ⟨fun r same => absurd same (by simp), fun st' same => (Next.again.inj same) ▸ rfl⟩
  refine whileTrue_post (fun st => FirstRound s a start index st ∨ a.chunks.length < st.allocator.chunks.length)
    (fun r => a.chunks.length < r.allocator.chunks.length) ?_ ?_ returned (.inl (.first sound inside))
  · rintro st st' (round | grown) pass
    · by_cases last : st.i = a.chunks.length
      · obtain ⟨_, same, length⟩ := created (last.trans (by rw [round.array])) pass
        cases same
        rw [round.allocator] at length
        exact .inr (by omega)
      · obtain ⟨next, pass', outcome⟩ := round.pass system isCyclingType typeInfo fieldsLength inside bound last
        cases pass.symm.trans pass'
        exact .inl outcome.1
    · by_cases last : st.i = st.heapChunks.length
      · obtain ⟨_, same, length⟩ := created last pass
        cases same
        exact .inr (by omega)
      · have same : st'.allocator = st.allocator := (kept last pass).2 st' rfl
        exact .inr (same ▸ grown)
  · rintro st r (round | grown) pass
    · by_cases last : st.i = a.chunks.length
      · obtain ⟨_, same, -⟩ := created (last.trans (by rw [round.array])) pass
        cases same
      · obtain ⟨next, pass', outcome⟩ := round.pass system isCyclingType typeInfo fieldsLength inside bound last
        cases pass.symm.trans pass'
        cases outcome with
        | reused offered => exact absurd nothing offered
        | created _ chunks =>
          rw [chunks, List.length_append]
          exact Nat.lt_succ_self _
    · by_cases last : st.i = st.heapChunks.length
      · obtain ⟨_, same, -⟩ := created last pass
        cases same
      · have same : r.allocator = st.allocator := (kept last pass).1 r rfl
        exact same ▸ grown

theorem reusesCell_iff (sound : a.Sound s) (inside : start < a.chunks.length)
    (chosen : chooseBlock fieldsLength = some (index, size)) :
    a.ReusesCell system isCyclingType typeInfo fieldsLength s start ↔ ¬a.NothingOffered s.memory index := by
  constructor
  · rintro ⟨r, address, cell, ⟨enough, run⟩, -, -, same⟩ nothing
    have longer := malloc_creates sound inside chosen nothing (run enough (Nat.le_refl _))
    rw [same] at longer
    exact absurd longer (Nat.lt_irrefl _)
  · intro offered
    obtain ⟨bound, class'⟩ := chooseBlock_class chosen
    obtain ⟨r, run, result⟩ := malloc_search system isCyclingType typeInfo sound inside chosen bound class' fun nothing => absurd nothing offered
    cases result with
    | reused _ same found held => exact ⟨r, _, _, run, found, held, by rw [same]⟩
    | created nothing => exact absurd nothing offered

/-- The first call of an allocator without chunks is that of the allocator with
one. -/
theorem malloc_empty (empty : a.chunks = []) (chosen : chooseBlock fieldsLength = some (index, size)) (fuel : Nat) :
    a.malloc system isCyclingType typeInfo fieldsLength (fuel + 1) s 0 =
      (createNewChunk system s a).bind fun made =>
        made.1.malloc system isCyclingType typeInfo fieldsLength fuel made.2 0 := by
  simp only [malloc, chosen]
  rw [whileTrue, mallocPass, if_pos (by rw [empty]; rfl)]
  cases createNewChunk system s a <;> rfl

end Reuse

end HeapAllocator

theorem HeapAllocator.returns_malloc {system : SystemAllocator} {isCyclingType : Nat → Bool} {typeInfo fieldsLength start fuel : Nat}
    {s : SystemMemory} {a : HeapAllocator} {r : Allocation}
    (returned : a.malloc system isCyclingType typeInfo fieldsLength fuel s start = some r) :
    Returns (fun fuel => a.malloc system isCyclingType typeInfo fieldsLength fuel s start) r := by
  unfold HeapAllocator.malloc at returned ⊢
  split at returned
  · exact .of_eq fun _ => returned
  · exact .of_whileTrue returned

/-- The invariant of a run that may begin without chunks. -/
inductive AllocatorState.Fit (st : AllocatorState) : Prop
  | empty (chunks : st.allocator.chunks = []) (allocator : st.allocator.Sound st.system) (starts : ∀ start ∈ st.starts, start = 0)
  | sound (sound : st.Sound)

section Runs

variable {system : SystemAllocator} {isCyclingType : Nat → Bool} {s s' : SystemMemory} {a : HeapAllocator}
  {st st' : AllocatorState} {cellsSize n : Nat}

theorem AllocatorState.Fit.allocator (fit : st.Fit) : st.allocator.Sound st.system := by
  cases fit with
  | empty _ allocator => exact allocator
  | sound sound => exact sound.allocator

theorem AllocatorStep.fit (fit : st.Fit) (step : AllocatorStep system isCyclingType st st') : st'.Fit := by
  cases fit with
  | sound sound => exact .sound (step.sound sound)
  | empty chunks allocator starts =>
    have nowhere {cell : Cell} {object : Nat} (held : st.allocator.CellAt cell object) : False := by
      obtain ⟨chunk, here, -⟩ := held
      rw [chunks] at here
      cases here
    cases step with
    | release held => exact (nowhere held).elim
    | write held => exact (nowhere held).elim
    | @malloc start typeInfo fieldsLength fuel r known type short returned =>
      obtain rfl := starts start known
      cases chosen : HeapAllocator.chooseBlock fieldsLength with
      | none =>
        simp only [HeapAllocator.malloc, chosen, Option.some.injEq] at returned
        subst returned
        exact .empty chunks allocator fun start member => (List.mem_cons.mp member).elim id (starts start)
      | some block =>
        obtain ⟨index, size⟩ := block
        cases fuel with
        | zero =>
          simp only [HeapAllocator.malloc, chosen] at returned
          cases returned
        | succ fuel =>
          rw [HeapAllocator.malloc_empty chunks chosen] at returned
          obtain ⟨⟨grown, after⟩, made, returned⟩ := Option.bind_eq_some_iff.mp returned
          obtain ⟨sound, -, chunk, grownChunks, -⟩ := createNewChunk_spec allocator made
          have post := HeapAllocator.malloc_post sound short type (by rw [grownChunks]; simp) returned
          refine .sound ⟨post.sound, fun start member => ?_⟩
          rcases List.mem_cons.mp member with rfl | old
          · exact post.start
          · rw [starts start old]
            exact Nat.lt_of_le_of_lt (Nat.zero_le _) post.start

theorem AllocatorState.Fit.run (fit : st.Fit) (run : Relation.ReflTransGen (AllocatorStep system isCyclingType) st st') :
    st'.Fit := by
  induction run with
  | refl => exact fit
  | tail _ step ih => exact step.fit ih

theorem HeapAllocator.make_fit (small : chunkBytes cellsSize < 2 ^ 64) (made : HeapAllocator.make system s false cellsSize n = some (a, s')) :
    AllocatorState.Fit ⟨s', a, [0]⟩ := by
  obtain ⟨sound, length⟩ := HeapAllocator.make_sound small made
  rcases Nat.eq_zero_or_pos n with rfl | chunks
  · exact .empty (List.length_eq_zero_iff.mp length) sound fun start => List.mem_singleton.mp
  · refine .sound ⟨sound, fun start member => ?_⟩
    rw [List.mem_singleton.mp member, length]
    exact chunks

/-- Where no size wraps, a cell of a class that would do is reused exactly when
some class with a dead cell has never been found full. -/
theorem malloc_reuses (fits : HeapAllocator.SizesFit cellsSize n)
    (made : HeapAllocator.make system s false cellsSize n = some (a, s'))
    (run : Relation.ReflTransGen (AllocatorStep system isCyclingType) ⟨s', a, [0]⟩ st) {start : Nat}
    (inside : start < st.allocator.chunks.length) (typeInfo : Nat) {fieldsLength index size : Nat}
    (chosen : HeapAllocator.chooseBlock fieldsLength = some (index, size)) :
    st.allocator.ReusesCell system isCyclingType typeInfo fieldsLength st.system start ↔
      ∃ chunk ∈ st.allocator.chunks, chunk.Offers st.system.memory index := by
  have fit := (HeapAllocator.make_fit fits.chunk made).run run
  rw [HeapAllocator.reusesCell_iff fit.allocator inside chosen, HeapAllocator.NothingOffered]
  simp only [not_forall, not_not, exists_prop]

/-- The only cell of the last class is taken and released. -/
def takenState : Option (HeapAllocator.Allocation × HeapChunk) := do
  let (a, s) ← HeapAllocator.make bumpAllocator ⟨fun _ => 0, []⟩ false 1 1
  let first ← a.malloc bumpAllocator (fun _ => false) 8 44 2 s 0
  let chunk ← first.allocator.chunks[0]?
  some (first, chunk)

/-- The class has not been searched since it was found to have a cell: the next
object gets the same cell. -/
theorem malloc_reuses_taken : ∃ first chunk, takenState = some (first, chunk) ∧ first.address = some (chunk.cell 12 0) ∧
    first.allocator.ReusesCell bumpAllocator (fun _ => false) 8 44
      { first.system with memory := store first.system.memory (chunk.cell 12 0 + 16) 1 0 } 0 := by
  have facts : takenState.map (fun (first, chunk) => (chunk.cellsSize, first.allocator.chunks.length,
      decide (first.address = some (chunk.cell 12 0)),
      decide (∃ c ∈ first.allocator.chunks, c.Offers (store first.system.memory (chunk.cell 12 0 + 16) 1 0) 12))) =
        some (1, 1, true, true) := by
    decide +kernel
  obtain ⟨⟨first, chunk⟩, state, same⟩ := Option.map_eq_some_iff.mp facts
  simp only [Prod.mk.injEq, decide_eq_true_eq] at same
  obtain ⟨cells, length, address, offers⟩ := same
  refine ⟨first, chunk, state, address, ?_⟩
  simp only [takenState, Option.bind_eq_bind, Option.bind_eq_some_iff, Option.some.injEq, Prod.mk.injEq] at state
  obtain ⟨⟨a, s⟩, made, first, called, chunk, here, rfl, rfl⟩ := state
  have held : first.allocator.CellAt ⟨0, 12, 0⟩ (chunk.cell 12 0) := ⟨chunk, here, by decide, by rw [cells]; exact Nat.one_pos, rfl⟩
  have run : Relation.ReflTransGen (AllocatorStep bumpAllocator fun _ => false) ⟨s, a, [0]⟩
      ⟨{ first.system with memory := store first.system.memory (chunk.cell 12 0 + 16) 1 0 }, first.allocator,
        [first.chunkSearchStartIndex, 0]⟩ :=
    (Relation.ReflTransGen.single (.malloc (List.mem_singleton_self _) (by decide) (by decide) called)).tail
      (.release held)
  exact (malloc_reuses ⟨by decide, by decide⟩ made run (show 0 < first.allocator.chunks.length by omega) 8 rfl).mpr offers

/-- One cell in each class: two objects of the last class need two chunks. Then
the first object is set to dead. -/
def releasedState : Option AllocatorState := do
  let (a, s) ← HeapAllocator.make bumpAllocator ⟨fun _ => 0, []⟩ false 1 1
  let first ← a.malloc bumpAllocator (fun _ => false) 8 44 2 s 0
  let second ← first.allocator.malloc bumpAllocator (fun _ => false) 8 44 4 first.system 0
  let chunk ← second.allocator.chunks[0]?
  some ⟨{ second.system with memory := store second.system.memory (chunk.cell 12 0 + 16) 1 0 }, second.allocator,
    [second.chunkSearchStartIndex, first.chunkSearchStartIndex, 0]⟩

/-- The class of the dead cell has been found full, so that the next object of
the class needs a third chunk. -/
theorem malloc_reuses_released : ∃ a s st cell address,
    HeapAllocator.make bumpAllocator ⟨fun _ => 0, []⟩ false 1 1 = some (a, s) ∧
      Relation.ReflTransGen (AllocatorStep bumpAllocator fun _ => false) ⟨s, a, [0]⟩ st ∧
      HeapAllocator.chooseBlock 44 = some (12, 512) ∧ st.allocator.CellAt cell address ∧ 12 ≤ cell.block ∧
      stateOf st.system.memory address = 0 ∧ ¬st.allocator.ReusesCell bumpAllocator (fun _ => false) 8 44 st.system 0 := by
  have facts : releasedState.map (fun st => (st.allocator.chunks.map (·.cellsSize),
      decide (st.allocator.NothingOffered st.system.memory 12),
      st.allocator.chunks.map fun c => stateOf st.system.memory (c.cell 12 0))) = some ([1, 1], true, [0, 1]) := by
    decide +kernel
  obtain ⟨st, state, same⟩ := Option.map_eq_some_iff.mp facts
  simp only [releasedState, Option.bind_eq_bind, Option.bind_eq_some_iff, Option.some.injEq] at state
  obtain ⟨⟨a, s⟩, made, first, atFirst, second, atSecond, chunk, here, rfl⟩ := state
  simp only [Prod.mk.injEq, decide_eq_true_eq] at same
  obtain ⟨sizes, nothing, states⟩ := same
  obtain ⟨rest, chunks⟩ : ∃ rest, second.allocator.chunks = chunk :: rest := by
    cases list : second.allocator.chunks with
    | nil => simp [list] at here
    | cons head rest =>
      rw [list] at here
      exact ⟨rest, by rw [Option.some.inj here]⟩
  have inside : 0 < chunk.cellsSize := by
    rw [chunks] at sizes
    have one : chunk.cellsSize = 1 := (List.cons.inj sizes).1
    exact one ▸ Nat.one_pos
  have held : second.allocator.CellAt ⟨0, 12, 0⟩ (chunk.cell 12 0) := ⟨chunk, here, by decide, inside, rfl⟩
  have dead : stateOf (store second.system.memory (chunk.cell 12 0 + 16) 1 0) (chunk.cell 12 0) = 0 := by
    rw [chunks] at states
    exact (List.cons.inj states).1
  have run : Relation.ReflTransGen (AllocatorStep bumpAllocator fun _ => false) ⟨s, a, [0]⟩
      ⟨{ second.system with memory := store second.system.memory (chunk.cell 12 0 + 16) 1 0 }, second.allocator,
        [second.chunkSearchStartIndex, first.chunkSearchStartIndex, 0]⟩ :=
    ((Relation.ReflTransGen.single (.malloc (List.mem_singleton_self _) (by decide) (by decide) atFirst)).tail
      (.malloc (by simp) (by decide) (by decide) atSecond)).tail (.release held)
  have fit := (HeapAllocator.make_fit (by decide) made).run run
  refine ⟨a, s, _, ⟨0, 12, 0⟩, chunk.cell 12 0, made, run, rfl, held, Nat.le_refl _, dead, fun reuses => ?_⟩
  refine (HeapAllocator.reusesCell_iff fit.allocator ?_ rfl).mp reuses nothing
  dsimp only
  rw [chunks]
  exact Nat.succ_pos _

/-- A chunk refuses a request: its `malloc` returns null. -/
def HeapChunk.Refuses (isCyclingType : Nat → Bool) (m : Memory) (typeInfo index size fieldsLength : Nat) (isThreadSafe : Bool)
    (chunk : HeapChunk) : Prop :=
  ∃ m', chunk.malloc isCyclingType m typeInfo index size fieldsLength isThreadSafe = some (none, m')

theorem HeapAllocator.NothingOffered.refuses {index : Nat} (nothing : a.NothingOffered s.memory index) (sound : a.Sound s)
    (bound : index < numberOfBlocks) (isCyclingType : Nat → Bool) (typeInfo fieldsLength : Nat) (isThreadSafe : Bool) :
    ∀ chunk ∈ a.chunks, chunk.Refuses isCyclingType s.memory typeInfo index (blockSize index) fieldsLength isThreadSafe := by
  intro chunk member
  obtain ⟨answer, asked, shape⟩ := HeapChunk.malloc_answer isCyclingType typeInfo fieldsLength isThreadSafe
    (sound.chunk chunk member).toLaid bound
  cases shape with
  | cell _ _ offers => exact absurd offers (nothing chunk member)
  | @null m _ _ _ => exact ⟨m, asked⟩

/-- What `HeapAllocator::malloc` does from every reachable state, where no size
wraps and the system has memory for one more chunk if every chunk refuses. -/
theorem malloc_total (fits : HeapAllocator.SizesFit cellsSize n)
    (made : HeapAllocator.make system s false cellsSize n = some (a, s'))
    (run : Relation.ReflTransGen (AllocatorStep system isCyclingType) ⟨s', a, [0]⟩ st)
    (cells : 0 < st.allocator.chunksCellsSize) {start : Nat} (inside : start < st.allocator.chunks.length) (typeInfo : Nat)
    {fieldsLength : Nat} (short : fieldsLength < 2 ^ 60)
    (room : ∀ index size, HeapAllocator.chooseBlock fieldsLength = some (index, size) →
      (∀ chunk ∈ st.allocator.chunks,
        chunk.Refuses isCyclingType st.system.memory typeInfo index size fieldsLength st.allocator.isThreadSafe) →
      (createHeapChunk system st.system st.allocator.chunksCellsSize).isSome) :
    ∃ r, Returns (fun fuel => st.allocator.malloc system isCyclingType typeInfo fieldsLength fuel st.system start) r ∧
      (r.address = none ↔ 512 < 40 + 8 * fieldsLength) ∧
      (r.allocator.chunks = st.allocator.chunks ∨
        ∃ fresh index size, r.allocator.chunks = st.allocator.chunks ++ [fresh] ∧
          HeapAllocator.chooseBlock fieldsLength = some (index, size) ∧
          ∀ chunk ∈ st.allocator.chunks,
            chunk.Refuses isCyclingType st.system.memory typeInfo index size fieldsLength st.allocator.isThreadSafe) ∧
      ∀ address, r.address = some address → r.chunkSearchStartIndex < r.allocator.chunks.length ∧
        ∃ k i, r.allocator.CellAt ⟨r.chunkSearchStartIndex, k, i⟩ address := by
  have fit := (HeapAllocator.make_fit fits.chunk made).run run
  have null : HeapAllocator.chooseBlock fieldsLength = none ↔ 512 < 40 + 8 * fieldsLength :=
    HeapAllocator.chooseBlock_none (by rw [objectSize, sizeofHeapObject]; omega)
  cases chosen : HeapAllocator.chooseBlock fieldsLength with
  | none =>
    refine ⟨⟨none, start, st.system, st.allocator⟩, .of_eq fun fuel => ?_, ?_, .inl rfl, fun address found => by cases found⟩
    · rw [HeapAllocator.malloc, chosen]
    · simp only [true_iff]
      exact null.mp chosen
  | some block =>
    obtain ⟨index, size⟩ := block
    obtain ⟨bound, rfl⟩ := HeapAllocator.chooseBlock_class chosen
    have refuses (nothing : st.allocator.NothingOffered st.system.memory index) :=
      nothing.refuses fit.allocator bound isCyclingType typeInfo fieldsLength st.allocator.isThreadSafe
    obtain ⟨r, returns, result⟩ := HeapAllocator.malloc_search system isCyclingType typeInfo fit.allocator inside chosen bound rfl
      fun nothing => ⟨cells, room index _ chosen (refuses nothing)⟩
    have large : ¬512 < 40 + 8 * fieldsLength := fun large => by
      rw [null.mpr large] at chosen
      cases chosen
    refine ⟨r, returns, ?_⟩
    cases result with
    | reused offered same found held =>
      refine ⟨by simp [found, large], .inl (by rw [same]), fun address found' => ?_⟩
      obtain rfl := Option.some.inj (found.symm.trans found')
      rw [same]
      obtain ⟨chunk, here, -⟩ := id held
      exact ⟨(List.getElem?_eq_some_iff.mp here).1, _, _, held⟩
    | @created address k i fresh nothing chunks found held =>
      refine ⟨by simp [found, large], .inr ⟨fresh, index, _, chunks, rfl, refuses nothing⟩, fun address found' => ?_⟩
      obtain rfl := Option.some.inj (found.symm.trans found')
      obtain ⟨chunk, here, -⟩ := id held
      exact ⟨(List.getElem?_eq_some_iff.mp here).1, _, _, held⟩

/-- The only cell of the last class is taken: the next object of the class gets
a cell of a second chunk. -/
theorem malloc_total_full : ∃ a s first r fresh, HeapAllocator.make bumpAllocator ⟨fun _ => 0, []⟩ false 1 1 = some (a, s) ∧
    a.malloc bumpAllocator (fun _ => false) 8 44 2 s 0 = some first ∧
    Returns (fun fuel => first.allocator.malloc bumpAllocator (fun _ => false) 8 44 fuel first.system 0) r ∧
    r.allocator.chunks = first.allocator.chunks ++ [fresh] ∧ r.address ≠ none ∧ r.chunkSearchStartIndex < 2 := by
  have facts : takenState.map (fun (first, _) => (first.allocator.chunksCellsSize, first.allocator.chunks.length,
      decide (first.allocator.NothingOffered first.system.memory 12),
      (createHeapChunk bumpAllocator first.system 1).isSome)) = some (1, 1, true, true) := by
    decide +kernel
  obtain ⟨⟨first, chunk⟩, state, same⟩ := Option.map_eq_some_iff.mp facts
  simp only [Prod.mk.injEq, decide_eq_true_eq] at same
  obtain ⟨cells, length, nothing, room⟩ := same
  simp only [takenState, Option.bind_eq_bind, Option.bind_eq_some_iff, Option.some.injEq, Prod.mk.injEq] at state
  obtain ⟨⟨a, s⟩, made, first, called, chunk, here, rfl, rfl⟩ := state
  have run : Relation.ReflTransGen (AllocatorStep bumpAllocator fun _ => false) ⟨s, a, [0]⟩
      ⟨first.system, first.allocator, [first.chunkSearchStartIndex, 0]⟩ :=
    .single (.malloc (List.mem_singleton_self _) (by decide) (by decide) called)
  obtain ⟨r, returns, null, grown, found⟩ := malloc_total ⟨by decide, by decide⟩ made run (show 0 < first.allocator.chunksCellsSize by omega)
    (show 0 < first.allocator.chunks.length by omega) 8 (show 44 < 2 ^ 60 by decide)
    fun _ _ _ _ => cells ▸ room
  have some : r.address ≠ none := fun none => absurd (null.mp none) (by decide)
  obtain ⟨fresh, chunks⟩ : ∃ fresh, r.allocator.chunks = first.allocator.chunks ++ [fresh] := by
    rcases grown with kept | ⟨fresh, _, _, chunks, -⟩
    · obtain ⟨enough, returned⟩ := returns
      have longer := HeapAllocator.malloc_creates ((HeapAllocator.make_fit (by decide) made).run run).allocator
        (show 0 < first.allocator.chunks.length by omega) rfl nothing (returned enough (Nat.le_refl _))
      rw [kept] at longer
      exact absurd longer (Nat.lt_irrefl _)
    · exact ⟨fresh, chunks⟩
  refine ⟨a, s, first, r, fresh, made, called, returns, chunks, some, ?_⟩
  obtain ⟨address, here⟩ := Option.ne_none_iff_exists'.mp some
  have inside := (found address here).1
  rw [chunks, List.length_append, length] at inside
  exact inside

/-- The size of a chunk wraps, so that its classes and its table are at one
address: the first object is written over the table. -/
def overTable : Option (HeapAllocator.Allocation × HeapAllocator.Allocation) := do
  let (a, s) ← HeapAllocator.make bumpAllocator ⟨fun _ => 0, []⟩ false (2 ^ 61) 1
  let first ← a.malloc bumpAllocator (fun _ => false) 8 0 1 s 0
  let second ← first.allocator.malloc bumpAllocator (fun _ => false) 8 0 1 first.system 0
  some (first, second)

/-- The second call reads a null position in the table, and returns an address
behind it, in no block of the system. -/
theorem malloc_total_wrapped : ∃ a s first, HeapAllocator.make bumpAllocator ⟨fun _ => 0, []⟩ false (2 ^ 61) 1 = some (a, s) ∧
    a.malloc bumpAllocator (fun _ => false) 8 0 1 s 0 = some first ∧
    first.allocator.chunks = [⟨2 ^ 61, 4424⟩] ∧ first.address = some 4424 ∧
    ∀ r, Returns (fun fuel => first.allocator.malloc bumpAllocator (fun _ => false) 8 0 fuel first.system 0) r →
      r.address = some 40 ∧ (∀ b ∈ r.system.blocks, 40 < b.start) ∧ ∀ cell, ¬r.allocator.CellAt cell 40 := by
  have facts : overTable.map (fun (first, second) => (decide (first.allocator.chunks = [⟨2 ^ 61, 4424⟩]), first.address,
      decide (second.allocator.chunks = [⟨2 ^ 61, 4424⟩]), second.address, decide (∀ b ∈ second.system.blocks, 40 < b.start))) =
        some (true, some 4424, true, some 40, true) := by
    decide +kernel
  obtain ⟨⟨first, second⟩, state, same⟩ := Option.map_eq_some_iff.mp facts
  simp only [Prod.mk.injEq, decide_eq_true_eq] at same
  obtain ⟨before, table, after, address, blocks⟩ := same
  simp only [overTable, Option.bind_eq_bind, Option.bind_eq_some_iff, Option.some.injEq, Prod.mk.injEq] at state
  obtain ⟨⟨a, s⟩, made, first, called, second, again, rfl, rfl⟩ := state
  refine ⟨a, s, first, made, called, before, table, fun r returns => ?_⟩
  obtain rfl : second = r := (HeapAllocator.returns_malloc again).unique returns
  refine ⟨address, blocks, ?_⟩
  rintro ⟨chunk, k, i⟩ ⟨c, here, bound, -, start⟩
  obtain rfl : c = ⟨2 ^ 61, 4424⟩ := by
    rw [after] at here
    exact List.mem_singleton.mp (List.mem_of_getElem? here)
  dsimp only at start bound
  rcases Nat.eq_zero_or_pos k with rfl | positive
  · simp only [HeapChunk.cell, HeapChunk.position, HeapChunk.start, blockPosition, blocksSize,
      show blockSize 0 = 32 from rfl] at start
    omega
  · have behind : HeapChunk.position ⟨2 ^ 61, 4424⟩ 1 ≤ HeapChunk.position ⟨2 ^ 61, 4424⟩ k := HeapChunk.position_le positive
    have first : 2 ^ 66 ≤ HeapChunk.position ⟨2 ^ 61, 4424⟩ 1 := by decide
    unfold HeapChunk.cell at start
    omega

end Runs

end CatLa
