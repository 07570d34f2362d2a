import CatLa.Heap.SharedAllocator

namespace CatLa

open ByteMemory

/-- `object` is the start of a cell of one of the chunks. -/
def IsCell (chunks : List HeapChunk) (object : Nat) : Prop :=
  ∃ c ∈ chunks, ∃ k i, k < numberOfBlocks ∧ i < c.cellsSize ∧ object = c.cell k i

/-- The class has room for the object, and its index and size belong together. -/
structure MallocCall.Sound (call : MallocCall) : Prop where
  bound : call.index < numberOfBlocks
  size : call.blockSize = CatLa.blockSize call.index
  fits : objectSize call.fieldsLength ≤ CatLa.blockSize call.index

/-- The snapshot is a former state of the array with its length. -/
structure ChunkLoop.Sound (chunks : List HeapChunk) (loop : ChunkLoop) : Prop where
  call : loop.call.Sound
  length : loop.cs = loop.heapChunks.length
  former : loop.heapChunks <+: chunks
  asked : loop.i ≤ loop.cs
  start : loop.currentChunkIndex = 0 ∨ loop.currentChunkIndex < loop.cs

structure ClassLoop.Sound (chunks : List HeapChunk) (loop : ClassLoop) : Prop where
  outer : loop.outer.Sound chunks
  asking : loop.outer.i < loop.outer.cs
  inside : loop.outer.currentChunkIndex < loop.outer.cs
  member : loop.chunk ∈ chunks
  bound : loop.index < numberOfBlocks
  size : loop.blockSize = CatLa.blockSize loop.index
  fits : objectSize loop.outer.call.fieldsLength ≤ CatLa.blockSize loop.index

structure CellLoop.Sound (chunks : List HeapChunk) (loop : CellLoop) : Prop where
  outer : loop.outer.Sound chunks
  few : loop.left ≤ loop.outer.chunk.cellsSize
  entry : loop.blockEntry = loop.outer.chunk.position loop.outer.index
  current : loop.currentEntryIndex = 0 ∨ loop.currentEntryIndex < loop.outer.chunk.cellsSize
  address : loop.currentEntry = loop.outer.chunk.cell loop.outer.index loop.currentEntryIndex

/-- The stores that are left stay inside the cell, and none of them makes the
object dead. -/
structure StoresSound (c : HeapChunk) (k i object : Nat) (stores : List WordStore) : Prop where
  bound : k < numberOfBlocks
  inside : i < c.cellsSize
  address : object = c.cell k i
  range : ∀ w ∈ stores, object ≤ w.address ∧ w.address + w.size ≤ object + blockSize k
  state : ∀ w ∈ stores, Apart w.address w.size (object + 16) 1 ∨ w = ⟨object + 16, 1, ObjectState.live.toByte.toNat⟩

namespace MallocControl

/-- What the local variables of a thread say. -/
def Sound (chunks : List HeapChunk) : MallocControl → Prop
  | .idle => True
  | .snapshot call current => call.Sound ∧ (current = 0 ∨ current < chunks.length)
  | .nextChunk loop => loop.Sound chunks
  | .append loop _ => loop.Sound chunks
  | .testEmpty loop => loop.Sound chunks
  | .readCursor loop => loop.Sound chunks
  | .testState loop => loop.Sound chunks ∧ 0 < loop.left
  | .exchange loop => loop.Sound chunks ∧ 0 < loop.left
  | .writeCursor loop => loop.Sound chunks ∧ 0 < loop.left
  | .initialise loop object stores =>
    loop.Sound chunks ∧ loop.currentChunkIndex < loop.cs ∧ ∃ c ∈ chunks, ∃ k i, StoresSound c k i object stores
  | .fullCursor loop => loop.Sound chunks
  | .fullFlag loop => loop.Sound chunks

/-- The cell that the thread has claimed and not returned yet. -/
def owned : MallocControl → Option Nat
  | .writeCursor loop => some loop.currentEntry
  | .initialise _ object _ => some object
  | _ => none

/-- The chunk that the thread has created and not put into the array yet. -/
def pending : MallocControl → Option HeapChunk
  | .append _ chunk => some chunk
  | _ => none

end MallocControl

section Growth

variable {chunks more : List HeapChunk}

theorem IsCell.mono (grown : chunks <+: more) {object : Nat} (cell : IsCell chunks object) : IsCell more object := by
  obtain ⟨c, member, rest⟩ := cell
  exact ⟨c, grown.subset member, rest⟩

theorem ChunkLoop.Sound.mono (grown : chunks <+: more) {loop : ChunkLoop} (sound : loop.Sound chunks) : loop.Sound more :=
  { sound with former := sound.former.trans grown }

theorem ClassLoop.Sound.mono (grown : chunks <+: more) {loop : ClassLoop} (sound : loop.Sound chunks) : loop.Sound more :=
  { sound with outer := sound.outer.mono grown, member := grown.subset sound.member }

theorem CellLoop.Sound.mono (grown : chunks <+: more) {loop : CellLoop} (sound : loop.Sound chunks) : loop.Sound more :=
  { sound with outer := sound.outer.mono grown }

/-- The array only grows, and nothing that a thread knows is lost. -/
theorem MallocControl.Sound.mono (grown : chunks <+: more) {control : MallocControl} (sound : control.Sound chunks) :
    control.Sound more := by
  cases control with
  | idle => trivial
  | snapshot call current => exact ⟨sound.1, sound.2.imp_right fun inside => Nat.lt_of_lt_of_le inside grown.length_le⟩
  | nextChunk loop => exact ChunkLoop.Sound.mono grown sound
  | append loop chunk => exact ChunkLoop.Sound.mono grown sound
  | testEmpty loop => exact ClassLoop.Sound.mono grown sound
  | readCursor loop => exact ClassLoop.Sound.mono grown sound
  | testState loop => exact ⟨sound.1.mono grown, sound.2⟩
  | exchange loop => exact ⟨sound.1.mono grown, sound.2⟩
  | writeCursor loop => exact ⟨sound.1.mono grown, sound.2⟩
  | initialise loop object stores =>
    obtain ⟨outer, inside, c, member, rest⟩ := sound
    exact ⟨outer.mono grown, inside, c, grown.subset member, rest⟩
  | fullCursor loop => exact CellLoop.Sound.mono grown sound
  | fullFlag loop => exact ClassLoop.Sound.mono grown sound

end Growth

/-- What has been claimed is a cell. -/
theorem MallocControl.Sound.owned_cell {chunks : List HeapChunk} {control : MallocControl} (sound : control.Sound chunks)
    {object : Nat} (owned : control.owned = some object) : IsCell chunks object := by
  cases control with
  | writeCursor loop =>
    obtain ⟨sound, positive⟩ := sound
    cases owned
    have few := sound.few
    have current := sound.current
    exact ⟨_, sound.outer.member, _, _, sound.outer.bound, by omega, sound.address⟩
  | initialise loop object stores =>
    obtain ⟨-, -, c, member, k, i, stores⟩ := sound
    cases owned
    exact ⟨c, member, k, i, stores.bound, stores.inside, stores.address⟩
  | _ => cases owned

/-- Between two returns of an object there is a release: newest first, nothing
is returned that is still allocated. -/
inductive Orderly : List AllocatorEvent → Prop
  | nil : Orderly []
  | returned {rest : List AllocatorEvent} {object : Nat} (free : ¬Allocated object rest) (orderly : Orderly rest) :
      Orderly (.returned object :: rest)
  | released {rest : List AllocatorEvent} (object : Nat) (orderly : Orderly rest) : Orderly (.released object :: rest)
  | created {rest : List AllocatorEvent} (chunk : HeapChunk) (orderly : Orderly rest) : Orderly (.created chunk :: rest)

theorem allocated_since {object : Nat} {between earlier : List AllocatorEvent} (kept : .released object ∉ between) :
    Allocated object (between ++ .returned object :: earlier) := by
  induction between with
  | nil => exact Or.inl rfl
  | cons event rest ih =>
    have later := ih fun member => kept (List.mem_cons_of_mem _ member)
    cases event with
    | returned other => exact Or.inr later
    | released other => exact ⟨fun same => kept (by rw [same]; exact List.mem_cons_self), later⟩
    | created chunk => exact later

theorem Orderly.released_between {events : List AllocatorEvent} (orderly : Orderly events)
    {later between earlier : List AllocatorEvent} {object : Nat}
    (returns : events = later ++ .returned object :: (between ++ .returned object :: earlier)) :
    .released object ∈ between := by
  induction orderly generalizing later with
  | nil => cases later <;> cases returns
  | returned free orderly ih =>
    cases later with
    | nil =>
      cases returns
      by_contra kept
      exact free (allocated_since kept)
    | cons event later =>
      cases returns
      exact ih rfl
  | released other orderly ih =>
    cases later with
    | nil => cases returns
    | cons event later =>
      cases returns
      exact ih rfl
  | created chunk orderly ih =>
    cases later with
    | nil => cases returns
    | cons event later =>
      cases returns
      exact ih rfl

section Invariant

variable {ι : Type}

/-- A chunk of the array, or one that a thread is about to put there. -/
def Known (h : SharedHeap) (threads : ι → MallocControl) (c : HeapChunk) : Prop :=
  c ∈ h.chunks ∨ ∃ t, (threads t).pending = some c

/-- What holds in every state of a shared allocator. A cell is dead, or claimed
by one thread, or allocated. -/
structure SharedInvariant (h : SharedHeap) (threads : ι → MallocControl) : Prop where
  count : h.numberOfChunks = h.chunks.length
  nodup : h.chunks.Nodup
  laid : ∀ c, Known h threads c → c.Laid h.system.memory
  listed : ∀ c, Known h threads c → c.block ∈ h.system.blocks
  apart : ∀ c d, Known h threads c → Known h threads d → c ≠ d →
    Apart c.block.start c.block.size d.block.start d.block.size
  unlisted : ∀ t c, (threads t).pending = some c → c ∉ h.chunks
  single : ∀ t u c, (threads t).pending = some c → (threads u).pending = some c → t = u
  starts : ∀ start ∈ h.starts, start = 0 ∨ start < h.chunks.length
  created : ∀ c, .created c ∈ h.events → c ∈ h.chunks
  control : ∀ t, (threads t).Sound h.chunks
  owned : ∀ t object, (threads t).owned = some object →
    stateOf h.system.memory object ≠ 0 ∧ ¬Allocated object h.events
  exclusive : ∀ t u object, (threads t).owned = some object → (threads u).owned = some object → t = u
  allocated : ∀ object, Allocated object h.events → IsCell h.chunks object ∧ stateOf h.system.memory object ≠ 0
  orderly : Orderly h.events
  small : chunkBytes h.chunksCellsSize < 2 ^ 64

namespace SharedInvariant

variable {h : SharedHeap} {threads : ι → MallocControl} {c d : HeapChunk} {i j k l : Nat}

theorem off_block (inv : SharedInvariant h threads) (left : Known h threads c) (right : Known h threads d)
    (different : c ≠ d) {b : Nat} (member : c.InBlock b) : ¬d.InBlock b := by
  have apart : Apart c.start (chunkBytes c.cellsSize) d.start (chunkBytes d.cellsSize) :=
    inv.apart c d left right different
  unfold HeapChunk.InBlock Range Apart at *
  omega

/-- No byte of a cell is a byte of a table. -/
theorem cell_off_table (inv : SharedInvariant h threads) (left : c ∈ h.chunks) (right : Known h threads d)
    (bound : k < numberOfBlocks) (inside : i < c.cellsSize) {b : Nat} (member : c.InCell k i b) : ¬d.InTable b := by
  have placed := (inv.laid c (Or.inl left)).placed
  by_cases same : c = d
  · rw [← same]
    exact placed.cell_off_table bound inside member
  · exact fun table => inv.off_block (Or.inl left) right same (placed.inCell bound inside member)
      ((inv.laid d right).placed.inTable table)

/-- Two cells that start at different addresses have no byte in common. -/
theorem off_cell (inv : SharedInvariant h threads) (left : c ∈ h.chunks) (right : d ∈ h.chunks)
    (boundLeft : k < numberOfBlocks) (insideLeft : i < c.cellsSize) (boundRight : l < numberOfBlocks)
    (insideRight : j < d.cellsSize) (different : c.cell k i ≠ d.cell l j) {b : Nat} (member : c.InCell k i b) :
    ¬d.InCell l j b := by
  by_cases same : c = d
  · subst same
    refine inCell_of_ne insideLeft insideRight (fun equal => different ?_) member
    cases equal
    rfl
  · exact fun other => inv.off_block (Or.inl left) (Or.inl right) same
      ((inv.laid c (Or.inl left)).placed.inCell boundLeft insideLeft member)
      ((inv.laid d (Or.inl right)).placed.inCell boundRight insideRight other)

/-- Memory changes and one thread goes on: no chunk loses its layout and no
cell dies, and what the thread has claimed then was its own or dead before. -/
theorem local_step [DecidableEq ι] (inv : SharedInvariant h threads) {m : Memory} {t : ι} {control : MallocControl}
    (laid : ∀ c, Known h threads c → c.Laid m)
    (alive : ∀ object, IsCell h.chunks object → stateOf h.system.memory object ≠ 0 → stateOf m object ≠ 0)
    (sound : control.Sound h.chunks) (pending : control.pending = none) (none : (threads t).pending = none)
    (owned : ∀ object, control.owned = some object → (threads t).owned = some object ∨
      stateOf h.system.memory object = 0 ∧ stateOf m object ≠ 0) :
    SharedInvariant (h.setMemory m) (Function.update threads t control) := by
  have same (u : ι) : (Function.update threads t control u).pending = (threads u).pending := by
    by_cases self : u = t
    · rw [self, Function.update_self, pending, none]
    · rw [Function.update_of_ne self]
  have known {c : HeapChunk} (member : Known (h.setMemory m) (Function.update threads t control) c) :
      Known h threads c :=
    member.imp_right (Exists.imp fun u atU => (same u).symm.trans atU)
  have other {u : ι} (self : u ≠ t) : Function.update threads t control u = threads u := Function.update_of_ne self ..
  have cell {u : ι} {object : Nat} (atU : (threads u).owned = some object) : IsCell h.chunks object :=
    (inv.control u).owned_cell atU
  refine ⟨inv.count, inv.nodup, fun c member => laid c (known member), fun c member => inv.listed c (known member),
    fun c d left right => inv.apart c d (known left) (known right), fun u c atU => inv.unlisted u c ((same u).symm.trans atU),
    fun u v c atU atV => inv.single u v c ((same u).symm.trans atU) ((same v).symm.trans atV), inv.starts, inv.created, ?_,
    ?_, ?_, fun object held => ⟨(inv.allocated object held).1, alive object (inv.allocated object held).1
      (inv.allocated object held).2⟩, inv.orderly, inv.small⟩
  · intro u
    by_cases self : u = t
    · rw [self, Function.update_self]
      exact sound
    · rw [other self]
      exact inv.control u
  · intro u object atU
    by_cases self : u = t
    · rw [self, Function.update_self] at atU
      rcases owned object atU with old | ⟨dead, now⟩
      · exact ⟨alive object (cell old) (inv.owned t object old).1, (inv.owned t object old).2⟩
      · exact ⟨now, fun held => (inv.allocated object held).2 dead⟩
    · rw [other self] at atU
      exact ⟨alive object (cell atU) (inv.owned u object atU).1, (inv.owned u object atU).2⟩
  · -- a dead cell is nobody's, so the thread that claims it is alone
    have alone {u : ι} {object : Nat} (self : u ≠ t) (atU : (threads u).owned = some object)
        (mine : control.owned = some object) : False := by
      rcases owned object mine with old | ⟨dead, -⟩
      · exact self (inv.exclusive u t object atU old)
      · exact (inv.owned u object atU).1 dead
    intro u v object atU atV
    by_cases left : u = t <;> by_cases right : v = t
    · exact left.trans right.symm
    · rw [left, Function.update_self] at atU
      rw [other right] at atV
      exact (alone right atV atU).elim
    · rw [other left] at atU
      rw [right, Function.update_self] at atV
      exact (alone left atU atV).elim
    · rw [other left] at atU
      rw [other right] at atV
      exact inv.exclusive u v object atU atV

/-- A table changes and stays a table. -/
theorem table_changed (inv : SharedInvariant h threads) {m : Memory} (member : c ∈ h.chunks)
    (frame : Frame c.InTable h.system.memory m) (laid : c.Laid m) :
    (∀ d, Known h threads d → d.Laid m) ∧
      ∀ object, IsCell h.chunks object → stateOf h.system.memory object ≠ 0 → stateOf m object ≠ 0 := by
  refine ⟨fun d known => ?_, ?_⟩
  · by_cases same : d = c
    · rw [same]
      exact laid
    · refine (inv.laid d known).outside frame fun b table other => ?_
      exact inv.off_block known (Or.inl member) same ((inv.laid d known).placed.inTable table) (laid.placed.inTable other)
  · rintro _ ⟨d, inArray, k, i, bound, inside, rfl⟩ alive
    rwa [stateOf_frame frame bound fun b => inv.cell_off_table inArray (Or.inl member) bound inside]

/-- A cell changes and does not die. -/
theorem cell_changed (inv : SharedInvariant h threads) {m : Memory} (member : c ∈ h.chunks) (bound : k < numberOfBlocks)
    (inside : i < c.cellsSize) (frame : Frame (c.InCell k i) h.system.memory m)
    (state : stateOf h.system.memory (c.cell k i) ≠ 0 → stateOf m (c.cell k i) ≠ 0) :
    (∀ d, Known h threads d → d.Laid m) ∧
      ∀ object, IsCell h.chunks object → stateOf h.system.memory object ≠ 0 → stateOf m object ≠ 0 := by
  refine ⟨fun d known => (inv.laid d known).outside frame fun b table inCell =>
    inv.cell_off_table member known bound inside inCell table, ?_⟩
  rintro _ ⟨d, inArray, l, j, small, inCell, rfl⟩ alive
  by_cases same : d.cell l j = c.cell k i
  · rw [same] at alive ⊢
    exact state alive
  · rwa [stateOf_frame frame small fun b => inv.off_cell inArray member small inCell bound inside same]

end SharedInvariant

end Invariant

/-- A control point with nothing claimed and no chunk in hand. -/
structure MallocControl.Quiet (chunks : List HeapChunk) (control : MallocControl) : Prop where
  sound : control.Sound chunks
  owned : control.owned = none
  pending : control.pending = none

section Locals

variable {chunks : List HeapChunk}

theorem ChunkLoop.Sound.missed {loop : ChunkLoop} (sound : loop.Sound chunks) (asking : loop.i < loop.cs)
    (inside : loop.currentChunkIndex < loop.cs) : loop.missed.Quiet chunks := by
  refine ⟨?_, rfl, rfl⟩
  refine { call := sound.call, length := sound.length, former := sound.former, asked := asking, start := ?_ }
  dsimp only
  split
  · exact Or.inl rfl
  · exact Or.inr (by omega)

theorem ClassLoop.Sound.nextClass {loop : ClassLoop} (sound : loop.Sound chunks) : loop.nextClass.Quiet chunks := by
  have missed := sound.outer.missed sound.asking sound.inside
  obtain ⟨size, next, same⟩ := nextBlockSize_blockSize sound.bound
  simp only [ClassLoop.nextClass, sound.size, next]
  split
  · exact missed
  · rename_i more
    have more : loop.index + 1 < numberOfBlocks := Nat.lt_of_le_of_ne sound.bound more
    refine ⟨{ sound with bound := more, size := same more, fits := ?_ }, rfl, rfl⟩
    exact sound.fits.trans (blockSize_mono (Nat.le_succ _) more)

theorem CellLoop.Sound.enter {loop : CellLoop} (sound : loop.Sound chunks) : loop.enter.Quiet chunks := by
  unfold CellLoop.enter
  split
  · exact ⟨sound, rfl, rfl⟩
  · rename_i more
    exact ⟨⟨sound, Nat.pos_of_ne_zero more⟩, rfl, rfl⟩

theorem CellLoop.Sound.nextCell {loop : CellLoop} (sound : loop.Sound chunks) (positive : 0 < loop.left) :
    loop.nextCell.Quiet chunks := by
  have few := sound.few
  have current := sound.current
  unfold CellLoop.nextCell
  split
  · refine CellLoop.Sound.enter { sound with few := ?_, current := Or.inl rfl, address := ?_ }
    · dsimp only
      omega
    · dsimp only
      rw [HeapChunk.cell_zero]
      exact sound.entry
  · refine CellLoop.Sound.enter { sound with few := ?_, current := Or.inr ?_, address := ?_ }
    · dsimp only
      omega
    · dsimp only
      omega
    · dsimp only
      rw [← HeapChunk.cell_next, sound.address, sound.outer.size]

/-- The stores into a claimed cell stay inside it. -/
theorem CellLoop.Sound.stores {loop : CellLoop} (sound : loop.Sound chunks) (positive : 0 < loop.left)
    (typeInfo : Nat) (isCyclicType : Bool) :
    StoresSound loop.outer.chunk loop.outer.index loop.currentEntryIndex loop.currentEntry
      (objectStores loop.currentEntry typeInfo loop.outer.outer.call.fieldsLength isCyclicType) := by
  have few := sound.few
  have current := sound.current
  have fits := sound.outer.fits
  unfold objectSize sizeofHeapObject at fits
  refine ⟨sound.outer.bound, by omega, sound.address, fun w member => ?_, fun w member => ?_⟩
  · rcases List.mem_append.mp member with field | header
    · obtain ⟨j, small, rfl⟩ := List.mem_map.mp field
      have bound := List.mem_range.mp small
      unfold fieldAddress sizeofHeapObject
      dsimp only
      omega
    · simp only [List.mem_cons, List.not_mem_nil, or_false] at header
      rcases header with rfl | rfl | rfl | rfl | rfl | rfl <;> dsimp only <;> omega
  · unfold Apart
    rcases List.mem_append.mp member with field | header
    · obtain ⟨j, small, rfl⟩ := List.mem_map.mp field
      unfold fieldAddress sizeofHeapObject
      dsimp only
      omega
    · simp only [List.mem_cons, List.not_mem_nil, or_false] at header
      rcases header with rfl | rfl | rfl | rfl | rfl | rfl <;> first | exact Or.inr rfl | (dsimp only; omega)

end Locals

end CatLa
