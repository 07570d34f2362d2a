import CatLa.Heap.AllocatorRuns
import Mathlib.Data.List.Perm.Basic

namespace CatLa

open ByteMemory FuelLoop

/-- The allocators of a virtual machine, its own and those of its threads, and
its `heap_chunk_list`. -/
structure VMHeap where
  system : SystemMemory
  allocators : List HeapAllocator
  heapChunkList : List HeapChunk

namespace VMHeap

/-- `add_heap_allocator_chunk`. -/
def addHeapAllocatorChunk (vm : VMHeap) (chunk : HeapChunk) : VMHeap :=
  { vm with heapChunkList := vm.heapChunkList ++ [chunk] }

/-- `clone_heap_chunk_list`. The copy is as long as the list before anything is
pushed to it, and null is `none`. -/
def cloneHeapChunkList (vm : VMHeap) : List (Option HeapChunk) :=
  vm.heapChunkList.foldl (fun newChunkList chunk => newChunkList ++ [some chunk]) (List.replicate vm.heapChunkList.length none)

/-- `HeapAllocator::HeapAllocator`, for the machine or for one of its threads. -/
def addAllocator (system : SystemAllocator) (isThreadSafe : Bool) (vm : VMHeap) : Option VMHeap :=
  (HeapAllocator.make system vm.system isThreadSafe 1024 1).map fun made =>
    { vm with system := made.2, allocators := vm.allocators ++ [made.1] }

/-- `CatVM::CatVM`. -/
def make (system : SystemAllocator) (s : SystemMemory) : Option VMHeap := addAllocator system true ⟨s, [], []⟩

/-- `create_thread`. -/
def createThread (system : SystemAllocator) (vm : VMHeap) : Option VMHeap := addAllocator system false vm

/-- `malloc` of one of the allocators: each chunk that it creates is added to
the list. -/
def malloc (system : SystemAllocator) (isCyclingType : Nat → Bool) (typeInfo fieldsLength fuel : Nat) (vm : VMHeap)
    (k chunkSearchStartIndex : Nat) : Option (Option Nat × VMHeap) :=
  (vm.allocators[k]?).bind fun a =>
    (a.malloc system isCyclingType typeInfo fieldsLength fuel vm.system chunkSearchStartIndex).map fun r =>
      (r.address, (r.allocator.chunks.drop a.chunks.length).foldl addHeapAllocatorChunk
        { vm with system := r.system, allocators := vm.allocators.set k r.allocator })

end VMHeap

/-- A call of `create_thread` or of `malloc`. -/
inductive VMHeapStep (system : SystemAllocator) (isCyclingType : Nat → Bool) : VMHeap → VMHeap → Prop
  | createThread {vm vm' : VMHeap} (made : vm.createThread system = some vm') : VMHeapStep system isCyclingType vm vm'
  | malloc {vm vm' : VMHeap} {typeInfo fieldsLength fuel k start : Nat} {address : Option Nat}
      (returned : vm.malloc system isCyclingType typeInfo fieldsLength fuel k start = some (address, vm')) :
      VMHeapStep system isCyclingType vm vm'

/-- The list that is copied out has all chunks, with the cells of all objects. -/
structure VMHeap.KnowsChunks (vm : VMHeap) : Prop where
  nonnull : none ∉ vm.cloneHeapChunkList
  once : ∀ a ∈ vm.allocators, ∀ chunk ∈ a.chunks, vm.cloneHeapChunkList.count (some chunk) = 1
  cells : ∀ a ∈ vm.allocators, ∀ cell address, a.CellAt cell address →
    ∃ chunk, some chunk ∈ vm.cloneHeapChunkList ∧ chunk.InBlock address

/-- What a run keeps: the first chunk of an allocator is not in the list, and
those that were created on demand are. -/
structure VMHeap.Inv (vm : VMHeap) : Prop where
  blocks : ∀ chunk ∈ vm.heapChunkList, chunk.block ∈ vm.system.blocks
  first : ∀ a ∈ vm.allocators, ∃ chunk chunks, a.chunks = chunk :: chunks ∧ chunk.block ∈ vm.system.blocks ∧
    chunk ∉ vm.heapChunkList
  demand : vm.heapChunkList.Perm (vm.allocators.flatMap (·.chunks.tail))
  sizes : ∀ a ∈ vm.allocators, chunkBytes a.chunksCellsSize < 2 ^ 64

section Growth
variable {system : SystemAllocator} {isCyclingType : Nat → Bool} {s s' : SystemMemory} {a a' : HeapAllocator} {c : HeapChunk}

/-- A chunk in memory that had not been handed out. -/
structure NewChunk (s s' : SystemMemory) (c : HeapChunk) : Prop where
  listed : c.block ∈ s'.blocks
  apart : ∀ b ∈ s.blocks, Apart c.block.start c.block.size b.start b.size

theorem NewChunk.other (new : NewChunk s s' c) {d : HeapChunk} (known : d.block ∈ s.blocks) : c ≠ d := by
  rintro rfl
  have apart := new.apart c.block known
  have size : 0 < c.block.size := by
    show 0 < chunkBytes c.cellsSize
    rw [chunkBytes, sizeofBlockInfo, numberOfBlocks]
    omega
  unfold Apart at apart
  omega

theorem createHeapChunk_new {cellsSize : Nat} (small : chunkBytes cellsSize < 2 ^ 64)
    (made : createHeapChunk system s cellsSize = some (c, s')) : NewChunk s s' c ∧ ∀ b ∈ s.blocks, b ∈ s'.blocks := by
  obtain ⟨_, created⟩ := createHeapChunk_created small made
  refine ⟨⟨?_, created.apart⟩, fun b member => ?_⟩
  · rw [created.blocks]
    exact List.mem_cons_self
  · rw [created.blocks]
    exact List.mem_cons_of_mem _ member

/-- The allocator has got these chunks, all of them new. -/
structure Grown (s : SystemMemory) (a : HeapAllocator) (s' : SystemMemory) (a' : HeapAllocator) (extra : List HeapChunk) :
    Prop where
  chunks : a'.chunks = a.chunks ++ extra
  blocks : ∀ b ∈ s.blocks, b ∈ s'.blocks
  new : ∀ chunk ∈ extra, NewChunk s s' chunk
  cellsSize : a'.chunksCellsSize = a.chunksCellsSize

theorem Grown.create {extra : List HeapChunk} (grown : Grown s a s' a' extra) (small : chunkBytes a.chunksCellsSize < 2 ^ 64)
    {s'' : SystemMemory} {a'' : HeapAllocator} (made : HeapAllocator.createNewChunk system s' a' = some (a'', s'')) :
    ∃ chunk, Grown s a s'' a'' (extra ++ [chunk]) := by
  obtain ⟨⟨chunk, after⟩, called, same⟩ := Option.map_eq_some_iff.mp made
  obtain ⟨rfl, rfl⟩ := Prod.mk.inj same
  obtain ⟨new, kept⟩ := createHeapChunk_new (grown.cellsSize ▸ small) called
  refine ⟨chunk, ?_, fun b member => kept b (grown.blocks b member), fun other member => ?_, grown.cellsSize⟩
  · rw [grown.chunks, List.append_assoc]
  · rcases List.mem_append.mp member with old | last
    · exact ⟨kept _ (grown.new other old).listed, (grown.new other old).apart⟩
    · obtain rfl := List.mem_singleton.mp last
      exact ⟨new.listed, fun b known => new.apart b (grown.blocks b known)⟩

theorem Grown.written {extra : List HeapChunk} (grown : Grown s a s' a' extra) (m : Memory) :
    Grown s a { s' with memory := m } a' extra :=
  ⟨grown.chunks, grown.blocks, fun chunk member => ⟨(grown.new chunk member).listed, (grown.new chunk member).apart⟩,
    grown.cellsSize⟩

/-- `malloc` leaves the chunks that there were, and adds new ones behind them. -/
theorem malloc_grown (small : chunkBytes a.chunksCellsSize < 2 ^ 64) {typeInfo fieldsLength fuel start : Nat}
    {r : HeapAllocator.Allocation} (run : a.malloc system isCyclingType typeInfo fieldsLength fuel s start = some r) :
    ∃ extra, Grown s a r.system r.allocator extra := by
  have still : Grown s a s a [] := ⟨(List.append_nil _).symm, fun _ => id, fun _ member => absurd member List.not_mem_nil, rfl⟩
  unfold HeapAllocator.malloc at run
  split at run
  · obtain rfl := Option.some.inj run
    exact ⟨[], still⟩
  · rename_i index size _
    refine whileTrue_post (fun st => ∃ extra, Grown s a st.system st.allocator extra)
      (fun r => ∃ extra, Grown s a r.system r.allocator extra) (fun st st' grown pass => ?_) (fun st r grown pass => ?_) run ⟨[], still⟩
    · obtain ⟨extra, grown⟩ := grown
      unfold HeapAllocator.mallocPass at pass
      split at pass
      · obtain ⟨⟨allocator, after⟩, made, same⟩ := Option.map_eq_some_iff.mp pass
        obtain rfl := Next.again.inj same
        obtain ⟨chunk, grown⟩ := grown.create small made
        exact ⟨extra ++ [chunk], grown⟩
      · split at pass
        · exact absurd pass (by simp)
        · split at pass
          · exact absurd pass (by simp)
          · exact absurd (Option.some.inj pass) (by simp)
          · obtain rfl := Next.again.inj (Option.some.inj pass)
            exact ⟨extra, grown.written _⟩
    · obtain ⟨extra, grown⟩ := grown
      unfold HeapAllocator.mallocPass at pass
      split at pass
      · obtain ⟨_, _, same⟩ := Option.map_eq_some_iff.mp pass
        exact absurd same (by simp)
      · split at pass
        · exact absurd pass (by simp)
        · split at pass
          · exact absurd pass (by simp)
          · obtain rfl := Next.done.inj (Option.some.inj pass)
            exact ⟨extra, grown.written _⟩
          · exact absurd (Option.some.inj pass) (by simp)

/-- The constructor creates one chunk. -/
theorem make_first {isThreadSafe : Bool} {cellsSize : Nat} (small : chunkBytes cellsSize < 2 ^ 64)
    (made : HeapAllocator.make system s isThreadSafe cellsSize 1 = some (a, s')) :
    ∃ chunk, a.chunks = [chunk] ∧ NewChunk s s' chunk ∧ (∀ b ∈ s.blocks, b ∈ s'.blocks) ∧ a.chunksCellsSize = cellsSize := by
  unfold HeapAllocator.make at made
  dsimp only at made
  split at made
  · cases made
  · rw [List.range_one, List.foldlM_cons, Option.bind_eq_bind, Option.bind_eq_some_iff] at made
    obtain ⟨⟨a₁, s₁⟩, first, rest⟩ := made
    obtain ⟨⟨chunk, after⟩, called, same⟩ := Option.map_eq_some_iff.mp first
    obtain ⟨rfl, rfl⟩ := Prod.mk.inj same
    obtain ⟨rfl, rfl⟩ := Prod.mk.inj (Option.some.inj rest)
    obtain ⟨new, kept⟩ := createHeapChunk_new small called
    refine ⟨chunk, rfl, ⟨new.listed, fun b member => new.apart b (List.mem_cons_of_mem _ member)⟩, fun b member => ?_, rfl⟩
    exact kept b (List.mem_cons_of_mem _ member)

end Growth

namespace VMHeap
variable {system : SystemAllocator} {isCyclingType : Nat → Bool} {vm vm' : VMHeap}

theorem cloneHeapChunkList_eq (vm : VMHeap) :
    vm.cloneHeapChunkList = List.replicate vm.heapChunkList.length none ++ vm.heapChunkList.map some := by
  have pushed (list : List HeapChunk) (start : List (Option HeapChunk)) :
      list.foldl (fun newChunkList chunk => newChunkList ++ [some chunk]) start = start ++ list.map some := by
    induction list generalizing start with
    | nil => simp
    | cons chunk list ih => rw [List.foldl_cons, ih, List.map_cons, List.append_assoc, List.singleton_append]
  exact pushed _ _

theorem foldl_addHeapAllocatorChunk (chunks : List HeapChunk) (vm : VMHeap) :
    chunks.foldl addHeapAllocatorChunk vm = { vm with heapChunkList := vm.heapChunkList ++ chunks } := by
  induction chunks generalizing vm with
  | nil => simp
  | cons chunk chunks ih =>
    rw [List.foldl_cons, ih]
    simp [addHeapAllocatorChunk]

theorem Inv.addAllocator {isThreadSafe : Bool} (inv : vm.Inv) (made : vm.addAllocator system isThreadSafe = some vm') :
    vm'.Inv := by
  obtain ⟨⟨a, s'⟩, called, rfl⟩ := Option.map_eq_some_iff.mp made
  obtain ⟨chunk, only, new, kept, size⟩ := make_first (by decide) called
  refine ⟨fun other member => kept _ (inv.blocks other member), fun a' member => ?_, ?_, fun a' member => ?_⟩
  · rcases List.mem_append.mp member with old | last
    · obtain ⟨first, rest, chunks, known, unlisted⟩ := inv.first a' old
      exact ⟨first, rest, chunks, kept _ known, unlisted⟩
    · obtain rfl := List.mem_singleton.mp last
      exact ⟨chunk, [], only, new.listed, fun listed => new.other (inv.blocks chunk listed) rfl⟩
  · rw [List.flatMap_append, List.flatMap_singleton, only, List.tail_cons, List.append_nil]
    exact inv.demand
  · rcases List.mem_append.mp member with old | last
    · exact inv.sizes a' old
    · obtain rfl := List.mem_singleton.mp last
      rw [size]
      decide

theorem Inv.malloc {typeInfo fieldsLength fuel k start : Nat} {address : Option Nat} (inv : vm.Inv)
    (returned : vm.malloc system isCyclingType typeInfo fieldsLength fuel k start = some (address, vm')) : vm'.Inv := by
  obtain ⟨a, here, called⟩ := Option.bind_eq_some_iff.mp returned
  obtain ⟨r, run, same⟩ := Option.map_eq_some_iff.mp called
  obtain ⟨_, rfl⟩ := Prod.mk.inj same
  obtain ⟨extra, grown⟩ := malloc_grown (inv.sizes a (List.mem_of_getElem? here)) run
  rw [foldl_addHeapAllocatorChunk, grown.chunks, List.drop_left]
  obtain ⟨inside, at_k⟩ := List.getElem?_eq_some_iff.mp here
  obtain ⟨first, rest, chunks, known, unlisted⟩ := inv.first a (List.mem_of_getElem? here)
  have keeps {chunk : HeapChunk} (known : chunk.block ∈ vm.system.blocks) (unlisted : chunk ∉ vm.heapChunkList) :
      chunk ∉ vm.heapChunkList ++ extra := fun member =>
    (List.mem_append.mp member).elim unlisted fun new => (grown.new chunk new).other known rfl
  refine ⟨fun chunk member => ?_, fun a' member => ?_, ?_, fun a' member => ?_⟩
  · rcases List.mem_append.mp member with old | new
    · exact grown.blocks _ (inv.blocks chunk old)
    · exact (grown.new chunk new).listed
  · rcases List.mem_or_eq_of_mem_set member with old | rfl
    · obtain ⟨first, rest, chunks, known, unlisted⟩ := inv.first a' old
      exact ⟨first, rest, chunks, grown.blocks _ known, keeps known unlisted⟩
    · refine ⟨first, rest ++ extra, ?_, grown.blocks _ known, keeps known unlisted⟩
      rw [grown.chunks, chunks, List.cons_append]
  · -- the chunks created on demand are those behind the first
    have split : vm.allocators = vm.allocators.take k ++ a :: vm.allocators.drop (k + 1) := by
      rw [← at_k, List.getElem_cons_drop, List.take_append_drop]
    have demand := inv.demand
    rw [split, List.flatMap_append, List.flatMap_cons, chunks, List.tail_cons] at demand
    rw [List.set_eq_take_append_cons_drop, if_pos inside, List.flatMap_append, List.flatMap_cons, grown.chunks, chunks,
      List.cons_append, List.tail_cons]
    refine (demand.append_right extra).trans ?_
    simp only [List.append_assoc]
    exact ((List.perm_append_comm).append_left rest).append_left _
  · rcases List.mem_or_eq_of_mem_set member with old | rfl
    · exact inv.sizes a' old
    · rw [grown.cellsSize]
      exact inv.sizes a (List.mem_of_getElem? here)

theorem allocators_ne_nil {start : VMHeap} (some : start.allocators ≠ [])
    (run : Relation.ReflTransGen (VMHeapStep system isCyclingType) start vm) : vm.allocators ≠ [] := by
  induction run with
  | refl => exact some
  | tail _ step ih =>
    cases step with
    | createThread made =>
      obtain ⟨_, _, rfl⟩ := Option.map_eq_some_iff.mp made
      simp
    | malloc returned =>
      obtain ⟨a, _, called⟩ := Option.bind_eq_some_iff.mp returned
      obtain ⟨r, _, same⟩ := Option.map_eq_some_iff.mp called
      obtain ⟨_, rfl⟩ := Prod.mk.inj same
      rw [foldl_addHeapAllocatorChunk]
      simpa using ih

theorem Inv.run {start : VMHeap} (inv : start.Inv) (run : Relation.ReflTransGen (VMHeapStep system isCyclingType) start vm) :
    vm.Inv := by
  induction run with
  | refl => exact inv
  | tail _ step ih =>
    cases step with
    | createThread made => exact ih.addAllocator made
    | malloc returned => exact ih.malloc returned

end VMHeap

/-- In no run does the machine know its chunks: the copied list has the chunks
that were created on demand, behind as many null pointers, and of none of the
allocators the first chunk. -/
theorem vm_chunks {system : SystemAllocator} {isCyclingType : Nat → Bool} {s : SystemMemory} {start vm : VMHeap}
    (made : VMHeap.make system s = some start) (run : Relation.ReflTransGen (VMHeapStep system isCyclingType) start vm) :
    ¬vm.KnowsChunks ∧ vm.heapChunkList.Perm (vm.allocators.flatMap (·.chunks.tail)) ∧
      vm.cloneHeapChunkList = List.replicate vm.heapChunkList.length none ++ vm.heapChunkList.map some ∧
      ∀ a ∈ vm.allocators, ∃ chunk ∈ a.chunks, some chunk ∉ vm.cloneHeapChunkList := by
  have empty : (⟨s, [], []⟩ : VMHeap).Inv := ⟨by simp, by simp, .refl _, by simp⟩
  have inv := (empty.addAllocator made).run run
  have missing (a : HeapAllocator) (member : a ∈ vm.allocators) : ∃ chunk ∈ a.chunks, some chunk ∉ vm.cloneHeapChunkList := by
    obtain ⟨first, rest, chunks, _, unlisted⟩ := inv.first a member
    refine ⟨first, chunks ▸ List.mem_cons_self, ?_⟩
    rw [vm.cloneHeapChunkList_eq]
    simp [List.mem_replicate, unlisted]
  refine ⟨fun knows => ?_, inv.demand, vm.cloneHeapChunkList_eq, missing⟩
  have some : start.allocators ≠ [] := by
    obtain ⟨_, _, rfl⟩ := Option.map_eq_some_iff.mp made
    simp
  obtain ⟨a, member⟩ := List.exists_mem_of_ne_nil _ (VMHeap.allocators_ne_nil some run)
  obtain ⟨chunk, held, unlisted⟩ := missing a member
  have once := knows.once a member chunk held
  rw [List.count_eq_zero_of_not_mem unlisted] at once
  exact absurd once (by decide)

/-- A machine, a thread and an object of the thread. -/
def allocatedHeap : Option (VMHeap × VMHeap × VMHeap) := do
  let start ← VMHeap.make bumpAllocator ⟨fun _ => 0, []⟩
  let threaded ← start.createThread bumpAllocator
  let (_, vm) ← threaded.malloc bumpAllocator (fun _ => true) 8 2 1 1 0
  some (start, threaded, vm)

theorem vm_chunks_made : ∃ start threaded vm, allocatedHeap = some (start, threaded, vm) ∧ vm.allocators.length = 2 ∧
    ¬vm.KnowsChunks ∧ ∀ a ∈ vm.allocators, ∃ chunk ∈ a.chunks, some chunk ∉ vm.cloneHeapChunkList := by
  have facts : allocatedHeap.map (·.2.2.allocators.length) = some 2 := by
    decide +kernel
  obtain ⟨⟨start, threaded, vm⟩, state, length⟩ := Option.map_eq_some_iff.mp facts
  refine ⟨start, threaded, vm, state, length, ?_⟩
  simp only [allocatedHeap, Option.bind_eq_bind, Option.bind_eq_some_iff, Option.some.injEq, Prod.mk.injEq] at state
  obtain ⟨start, made, threaded, created, ⟨_, vm⟩, returned, rfl, rfl, rfl⟩ := state
  have run : Relation.ReflTransGen (VMHeapStep bumpAllocator fun _ => true) start vm :=
    (Relation.ReflTransGen.single (.createThread created)).tail (.malloc returned)
  obtain ⟨unknown, -, -, missing⟩ := vm_chunks made run
  exact ⟨unknown, missing⟩

/-- The first chunk of the machine's own allocator is not listed. -/
theorem vm_chunks_unlisted : ∃ start a chunk, VMHeap.make bumpAllocator ⟨fun _ => 0, []⟩ = some start ∧
    start.allocators = [a] ∧ chunk ∈ a.chunks ∧ start.cloneHeapChunkList = [] ∧ ¬start.KnowsChunks := by
  obtain ⟨start, made⟩ : ∃ start, VMHeap.make bumpAllocator ⟨fun _ => 0, []⟩ = some start :=
    Option.isSome_iff_exists.mp (by decide +kernel)
  have called := made
  rw [VMHeap.make, VMHeap.addAllocator] at called
  obtain ⟨⟨a, s⟩, called', rfl⟩ := Option.map_eq_some_iff.mp called
  obtain ⟨chunk, only, _⟩ := make_first (by decide) called'
  have held : chunk ∈ a.chunks := only ▸ List.mem_cons_self
  refine ⟨_, a, chunk, made, rfl, held, rfl, fun knows => ?_⟩
  have once := knows.once a List.mem_cons_self chunk held
  exact absurd once (by simp [VMHeap.cloneHeapChunkList])

end CatLa
