import CatLa.Heap.AllocatorRuns
import CatLa.Heap.SharedInvariant

namespace CatLa

open ByteMemory

section Steps

variable {ι : Type} [DecidableEq ι] {system : SystemAllocator} {h h' : SharedHeap} {threads : ι → MallocControl} {t : ι}
  {control : MallocControl}

namespace SharedInvariant

/-- A thread goes on without a claim, and leaves memory as it is. -/
theorem quiet (inv : SharedInvariant h threads) (free : (threads t).pending = none) (quiet : control.Quiet h.chunks) :
    SharedInvariant h (Function.update threads t control) :=
  inv.local_step inv.laid (fun _ _ alive => alive) quiet.sound quiet.pending free
    fun _ atT => absurd (quiet.owned.symm.trans atT) (by simp)

/-- A thread writes to a table. -/
theorem writeTable (inv : SharedInvariant h threads) (free : (threads t).pending = none) {c : HeapChunk} {m : Memory}
    (member : c ∈ h.chunks) (frame : Frame c.InTable h.system.memory m) (laid : c.Laid m) (sound : control.Sound h.chunks)
    (pending : control.pending = none) (owned : ∀ object, control.owned = some object → (threads t).owned = some object) :
    SharedInvariant (h.setMemory m) (Function.update threads t control) :=
  have changed := inv.table_changed member frame laid
  inv.local_step changed.1 changed.2 sound pending free fun object atT => Or.inl (owned object atT)

/-- A thread claims the cell that it has found dead a second time. -/
theorem claim (inv : SharedInvariant h threads) {loop : CellLoop} {m : Memory} (atT : threads t = .exchange loop)
    (claimed : claimCell true h.system.memory loop.currentEntry = some m) :
    SharedInvariant (h.setMemory m) (Function.update threads t (.writeCursor loop)) := by
  have sound := inv.control t
  rw [atT] at sound
  obtain ⟨sound, positive⟩ := sound
  have few := sound.few
  have current := sound.current
  have room := (blockSize_le sound.outer.bound).1
  unfold claimCell at claimed
  rw [if_pos rfl] at claimed
  split at claimed
  · rename_i dead
    cases claimed
    have live : stateOf (store h.system.memory (loop.currentEntry + 16) 1 ObjectState.live.toByte.toNat)
        loop.currentEntry = 1 := store_byte ..
    have frame : Frame (loop.outer.chunk.InCell loop.outer.index loop.currentEntryIndex) h.system.memory
        (store h.system.memory (loop.currentEntry + 16) 1 ObjectState.live.toByte.toNat) :=
      Frame.store _ fun b range => by
        rw [sound.address] at range
        unfold HeapChunk.InCell Range at *
        omega
    have changed := inv.cell_changed sound.outer.member sound.outer.bound (by omega) frame fun _ => by
      rw [← sound.address, live]
      decide
    refine inv.local_step changed.1 changed.2 ⟨sound, positive⟩ rfl (by rw [atT]; rfl) fun object mine => Or.inr ?_
    cases mine
    exact ⟨dead, by rw [live]; decide⟩
  · cases claimed

/-- A thread writes to the cell that it has claimed. -/
theorem writeObject (inv : SharedInvariant h threads) {loop : ChunkLoop} {object : Nat} {w : WordStore}
    {rest : List WordStore} (atT : threads t = .initialise loop object (w :: rest)) :
    SharedInvariant (h.setMemory (w.apply h.system.memory)) (Function.update threads t (.initialise loop object rest)) := by
  have sound := inv.control t
  rw [atT] at sound
  obtain ⟨outer, inside, c, member, k, i, stores⟩ := sound
  obtain ⟨lower, upper⟩ := stores.range w List.mem_cons_self
  have address := stores.address
  have frame : Frame (c.InCell k i) h.system.memory (w.apply h.system.memory) :=
    Frame.store _ fun b range => by
      unfold HeapChunk.InCell Range at *
      omega
  have changed := inv.cell_changed member stores.bound stores.inside frame fun alive => by
    rw [← address] at alive ⊢
    rcases stores.state w List.mem_cons_self with apart | rfl
    · rw [stateOf, WordStore.apply, store_apart _ _ apart]
      exact alive
    · rw [stateOf, WordStore.apply, store_byte]
      show UInt8.ofNat ObjectState.live.toByte.toNat ≠ 0
      decide
  have after : StoresSound c k i object rest :=
    { stores with
      range := fun w later => stores.range w (List.mem_cons_of_mem _ later)
      state := fun w later => stores.state w (List.mem_cons_of_mem _ later) }
  refine inv.local_step changed.1 changed.2 ⟨outer, inside, c, member, k, i, after⟩ rfl (by rw [atT]; rfl)
    fun mine same => Or.inl ?_
  rw [atT]
  exact same

/-- `malloc` returns the cell that it has claimed. -/
theorem returns (inv : SharedInvariant h threads) {loop : ChunkLoop} {object : Nat}
    (atT : threads t = .initialise loop object []) :
    SharedInvariant
      { h with starts := loop.currentChunkIndex :: h.starts, events := .returned object :: h.events }
      (Function.update threads t .idle) := by
  have sound := inv.control t
  rw [atT] at sound
  obtain ⟨outer, inside, c, member, k, i, stores⟩ := sound
  have atOwned : (threads t).owned = some object := by
    rw [atT]
    rfl
  have idle : MallocControl.Quiet h.chunks .idle := ⟨trivial, rfl, rfl⟩
  have free : (threads t).pending = none := by
    rw [atT]
    rfl
  have base := inv.quiet free idle
  have alone {u : ι} {o : Nat} (atU : (Function.update threads t .idle u).owned = some o) : o ≠ object := by
    rintro rfl
    by_cases self : u = t
    · rw [self, Function.update_self] at atU
      cases atU
    · rw [Function.update_of_ne self] at atU
      exact self (inv.exclusive u t o atU atOwned)
  refine { base with starts := ?_, created := ?_, owned := ?_, allocated := ?_, orderly := ?_ }
  · intro start known
    rcases List.mem_cons.mp known with rfl | old
    · refine Or.inr (Nat.lt_of_lt_of_le inside ?_)
      rw [outer.length]
      exact outer.former.length_le
    · exact inv.starts start old
  · intro c known
    rcases List.mem_cons.mp known with same | old
    · cases same
    · exact inv.created c old
  · intro u o atU
    refine ⟨(base.owned u o atU).1, fun held => ?_⟩
    rcases held with same | held
    · exact alone atU same.symm
    · exact (base.owned u o atU).2 held
  · intro o held
    rcases held with rfl | held
    · exact ⟨⟨c, member, k, i, stores.bound, stores.inside, stores.address⟩, (inv.owned t object atOwned).1⟩
    · exact inv.allocated o held
  · exact .returned (inv.owned t object atOwned).2 inv.orderly

omit [DecidableEq ι] in
/-- The state of an allocated object is set to dead. -/
theorem release (inv : SharedInvariant h threads) {object : Nat} (held : Allocated object h.events) :
    SharedInvariant (h.release object) threads := by
  obtain ⟨⟨c, member, k, i, bound, inside, rfl⟩, alive⟩ := inv.allocated object held
  have room := (blockSize_le bound).1
  have frame : Frame (c.InCell k i) h.system.memory
      (store h.system.memory (c.cell k i + 16) 1 ObjectState.dead.toByte.toNat) :=
    Frame.store _ fun b range => by
      unfold HeapChunk.InCell Range at *
      omega
  have other {o : Nat} (cell : IsCell h.chunks o) (different : o ≠ c.cell k i) :
      stateOf (store h.system.memory (c.cell k i + 16) 1 ObjectState.dead.toByte.toNat) o = stateOf h.system.memory o := by
    obtain ⟨d, inArray, l, j, small, inCell, rfl⟩ := cell
    exact stateOf_frame frame small fun b => inv.off_cell inArray member small inCell bound inside different
  refine { inv with laid := fun d known => ?_, owned := ?_, allocated := ?_, orderly := .released _ inv.orderly, created := ?_ }
  · exact (inv.laid d known).outside frame fun b table inCell =>
      inv.cell_off_table member known bound inside inCell table
  · intro d known
    rcases List.mem_cons.mp known with same | old
    · cases same
    · exact inv.created d old
  · intro u o atU
    have kept := inv.owned u o atU
    have different : o ≠ c.cell k i := fun same => kept.2 (same ▸ held)
    refine ⟨?_, fun still => kept.2 still.2⟩
    rw [← other ((inv.control u).owned_cell atU) different] at kept
    exact kept.1
  · rintro o ⟨different, still⟩
    have kept := inv.allocated o still
    refine ⟨kept.1, ?_⟩
    rw [← other kept.1 (Ne.symm different)] at kept
    exact kept.2

/-- A thread that owns nothing next adds no owner. -/
theorem owned_of_update {u : ι} {object : Nat} (nothing : control.owned = none)
    (atU : (Function.update threads t control u).owned = some object) : (threads u).owned = some object := by
  by_cases self : u = t
  · rw [self, Function.update_self, nothing] at atU
    cases atU
  · rwa [Function.update_of_ne self] at atU

/-- A thread creates a chunk, in memory that nobody has seen. -/
theorem create (inv : SharedInvariant h threads) {loop : ChunkLoop} {chunk : HeapChunk} {s : SystemMemory}
    (atT : threads t = .nextChunk loop)
    (made : createHeapChunk system h.system h.chunksCellsSize = some (chunk, s)) :
    SharedInvariant { h with system := s } (Function.update threads t (.append loop chunk)) := by
  have sound := inv.control t
  rw [atT] at sound
  obtain ⟨-, new⟩ := createHeapChunk_created inv.small made
  have beyond {d : HeapChunk} (known : Known h threads d) : Apart chunk.block.start chunk.block.size d.block.start d.block.size :=
    new.apart d.block (inv.listed d known)
  have off {d : HeapChunk} (known : Known h threads d) {b : Nat} (member : d.InBlock b) : ¬chunk.InBlock b := by
    have apart : Apart chunk.start (chunkBytes chunk.cellsSize) d.start (chunkBytes d.cellsSize) := beyond known
    unfold HeapChunk.InBlock Range Apart at *
    omega
  have size : 0 < chunkBytes chunk.cellsSize := by
    unfold chunkBytes sizeofBlockInfo numberOfBlocks
    omega
  have unknown : ¬Known h threads chunk := fun known => off known ⟨Nat.le_refl chunk.start, by omega⟩ ⟨Nat.le_refl _, by omega⟩
  have other {u : ι} (self : u ≠ t) : Function.update threads t (.append loop chunk) u = threads u :=
    Function.update_of_ne self ..
  have known {d : HeapChunk} (member : Known { h with system := s } (Function.update threads t (.append loop chunk)) d) :
      d = chunk ∨ Known h threads d := by
    rcases member with listed | ⟨u, atU⟩
    · exact Or.inr (Or.inl listed)
    · by_cases self : u = t
      · rw [self, Function.update_self] at atU
        exact Or.inl (Option.some.inj atU).symm
      · rw [other self] at atU
        exact Or.inr (Or.inr ⟨u, atU⟩)
  have unowned {u : ι} {object : Nat} (atU : (Function.update threads t (.append loop chunk) u).owned = some object) :
      (threads u).owned = some object := owned_of_update rfl atU
  have states {object : Nat} (cell : IsCell h.chunks object) : stateOf s.memory object = stateOf h.system.memory object := by
    obtain ⟨d, member, k, i, bound, inside, rfl⟩ := cell
    exact stateOf_frame new.frame bound fun b inCell =>
      off (Or.inl member) ((inv.laid d (Or.inl member)).placed.inCell bound inside inCell)
  refine { inv with laid := ?_, listed := ?_, apart := ?_, unlisted := ?_, single := ?_, control := ?_, owned := ?_,
                    exclusive := ?_, allocated := ?_ }
  · intro d member
    rcases known member with rfl | old
    · exact new.sound.toLaid
    · exact (inv.laid d old).outside new.frame fun b table => off old ((inv.laid d old).placed.inTable table)
  · intro d member
    rw [new.blocks]
    rcases known member with rfl | old
    · exact List.mem_cons_self
    · exact List.mem_cons_of_mem _ (inv.listed d old)
  · intro d e left right different
    rcases known left with rfl | oldLeft <;> rcases known right with rfl | oldRight
    · exact absurd rfl different
    · exact beyond oldRight
    · exact (beyond oldLeft).symm
    · exact inv.apart d e oldLeft oldRight different
  · intro u d atU
    by_cases self : u = t
    · rw [self, Function.update_self] at atU
      cases atU
      exact fun listed => unknown (Or.inl listed)
    · rw [other self] at atU
      exact inv.unlisted u d atU
  · intro u v d atU atV
    by_cases left : u = t <;> by_cases right : v = t
    · exact left.trans right.symm
    · rw [left, Function.update_self] at atU
      rw [other right] at atV
      cases atU
      exact (unknown (Or.inr ⟨v, atV⟩)).elim
    · rw [other left] at atU
      rw [right, Function.update_self] at atV
      cases atV
      exact (unknown (Or.inr ⟨u, atU⟩)).elim
    · rw [other left] at atU
      rw [other right] at atV
      exact inv.single u v d atU atV
  · intro u
    by_cases self : u = t
    · rw [self, Function.update_self]
      exact sound
    · rw [other self]
      exact inv.control u
  · intro u object atU
    have old := inv.owned u object (unowned atU)
    rw [← states ((inv.control u).owned_cell (unowned atU))] at old
    exact old
  · exact fun u v object atU atV => inv.exclusive u v object (unowned atU) (unowned atV)
  · intro object held
    have old := inv.allocated object held
    rw [← states old.1] at old
    exact old

/-- The section under the lock of `create_new_chunk`. -/
theorem append (inv : SharedInvariant h threads) {loop : ChunkLoop} {chunk : HeapChunk}
    (atT : threads t = .append loop chunk) :
    SharedInvariant
      { h with chunks := h.chunks.take h.numberOfChunks ++ [chunk], numberOfChunks := h.numberOfChunks + 1,
               events := .created chunk :: h.events }
      (Function.update threads t (.snapshot loop.call loop.currentChunkIndex)) := by
  have sound := inv.control t
  rw [atT] at sound
  have pending : (threads t).pending = some chunk := by
    rw [atT]
    rfl
  have new := inv.unlisted t chunk pending
  have grown : h.chunks <+: h.chunks ++ [chunk] := List.prefix_append _ _
  have other {u : ι} (self : u ≠ t) :
      Function.update threads t (.snapshot loop.call loop.currentChunkIndex) u = threads u := Function.update_of_ne self ..
  have later {u : ι} {d : HeapChunk}
      (atU : (Function.update threads t (.snapshot loop.call loop.currentChunkIndex) u).pending = some d) :
      u ≠ t ∧ (threads u).pending = some d := by
    by_cases self : u = t
    · rw [self, Function.update_self] at atU
      cases atU
    · rw [other self] at atU
      exact ⟨self, atU⟩
  have unowned {u : ι} {object : Nat}
      (atU : (Function.update threads t (.snapshot loop.call loop.currentChunkIndex) u).owned = some object) :
      (threads u).owned = some object := owned_of_update rfl atU
  rw [inv.count, List.take_length]
  have known {d : HeapChunk}
      (member : Known
        { h with chunks := h.chunks ++ [chunk], numberOfChunks := h.chunks.length + 1, events := .created chunk :: h.events }
        (Function.update threads t (.snapshot loop.call loop.currentChunkIndex)) d) : Known h threads d := by
    rcases member with listed | ⟨u, atU⟩
    · rcases List.mem_append.mp listed with old | last
      · exact Or.inl old
      · rw [List.mem_singleton.mp last]
        exact Or.inr ⟨t, pending⟩
    · exact Or.inr ⟨u, (later atU).2⟩
  refine
    { count := by simp
      nodup := List.nodup_append.mpr ⟨inv.nodup, List.nodup_singleton chunk, ?_⟩
      laid := fun d member => inv.laid d (known member)
      listed := fun d member => inv.listed d (known member)
      apart := fun d e left right => inv.apart d e (known left) (known right)
      unlisted := ?_
      single := fun u v d atU atV => inv.single u v d (later atU).2 (later atV).2
      starts := fun start member => (inv.starts start member).imp_right fun inside =>
        Nat.lt_of_lt_of_le inside grown.length_le
      created := ?_
      control := ?_
      owned := fun u object atU => inv.owned u object (unowned atU)
      exclusive := fun u v object atU atV => inv.exclusive u v object (unowned atU) (unowned atV)
      allocated := fun object held => ⟨(inv.allocated object held).1.mono grown, (inv.allocated object held).2⟩
      orderly := .created chunk inv.orderly
      small := inv.small }
  · rintro d old e last rfl
    exact new (List.mem_singleton.mp last ▸ old)
  · intro u d atU listed
    obtain ⟨self, atU⟩ := later atU
    rcases List.mem_append.mp listed with old | last
    · exact inv.unlisted u d atU old
    · rw [List.mem_singleton.mp last] at atU
      exact self (inv.single u t chunk atU pending)
  · intro d member
    rcases List.mem_cons.mp member with same | old
    · cases same
      exact List.mem_append_right _ List.mem_cons_self
    · exact List.mem_append_left _ (inv.created d old)
  · intro u
    by_cases self : u = t
    · rw [self, Function.update_self]
      refine ⟨sound.call, sound.start.imp_right fun inside => ?_⟩
      rw [sound.length] at inside
      exact Nat.lt_of_lt_of_le inside (sound.former.trans grown).length_le
    · rw [other self]
      exact (inv.control u).mono grown

/-- One step of a thread. -/
theorem advance (inv : SharedInvariant h threads) (step : (threads t).advance system h = some (h', control)) :
    SharedInvariant h' (Function.update threads t control) := by
  have sound := inv.control t
  cases atT : threads t with
  | idle =>
    rw [atT] at step
    cases step
  | snapshot call current =>
    rw [atT] at step sound
    cases step
    refine inv.quiet (by rw [atT]; rfl) ⟨?_, rfl, rfl⟩
    exact { call := sound.1, length := inv.count, former := List.prefix_refl _, asked := Nat.zero_le _,
            start := sound.2.imp_right fun inside => by rw [← inv.count] at inside; exact inside }
  | nextChunk loop =>
    rw [atT, MallocControl.advance] at step
    rw [atT] at sound
    split at step
    · rw [Option.map_eq_some_iff] at step
      obtain ⟨⟨chunk, s⟩, made, same⟩ := step
      cases same
      exact inv.create atT made
    · rename_i more
      have asked : loop.i < loop.cs := Nat.lt_of_le_of_ne sound.asked more
      split at step
      · cases step
      · rename_i chunk atChunk
        cases step
        obtain ⟨inside, -⟩ := List.getElem?_eq_some_iff.mp atChunk
        refine inv.quiet (by rw [atT]; rfl) ⟨?_, rfl, rfl⟩
        exact { outer := sound, asking := asked, inside := by rw [sound.length]; exact inside,
                member := sound.former.subset (List.mem_of_getElem? atChunk), bound := sound.call.bound,
                size := sound.call.size, fits := sound.call.fits }
  | append loop chunk =>
    rw [atT] at step
    cases step
    exact inv.append atT
  | testEmpty loop =>
    rw [atT, MallocControl.advance] at step
    rw [atT] at sound
    split at step
    · cases step
      exact inv.quiet (by rw [atT]; rfl) sound.nextClass
    · cases step
      exact inv.quiet (by rw [atT]; rfl) ⟨sound, rfl, rfl⟩
  | readCursor loop =>
    rw [atT] at step sound
    cases step
    have laid := inv.laid loop.chunk (Or.inl sound.member)
    refine inv.quiet (by rw [atT]; rfl) (CellLoop.Sound.enter ?_)
    exact { outer := sound, few := Nat.le_refl _, entry := laid.entry _ sound.bound, current := laid.current _ sound.bound,
            address := by
              dsimp only
              rw [laid.entry _ sound.bound, sound.size, HeapChunk.cell] }
  | testState loop =>
    rw [atT, MallocControl.advance] at step
    rw [atT] at sound
    split at step
    · cases step
      exact inv.quiet (by rw [atT]; rfl) (sound.1.nextCell sound.2)
    · cases step
      exact inv.quiet (by rw [atT]; rfl) ⟨sound, rfl, rfl⟩
  | exchange loop =>
    rw [atT, MallocControl.advance] at step
    rw [atT] at sound
    split at step
    · cases step
      exact inv.quiet (by rw [atT]; rfl) (sound.1.nextCell sound.2)
    · rename_i m claimed
      cases step
      exact inv.claim atT claimed
  | writeCursor loop =>
    rw [atT] at step sound
    cases step
    obtain ⟨sound, positive⟩ := sound
    have few := sound.few
    have current := sound.current
    have laid := inv.laid loop.outer.chunk (Or.inl sound.outer.member)
    refine inv.writeTable (by rw [atT]; rfl) sound.outer.member (store_info_frame _ _ _ sound.outer.bound 16 8 (by decide))
      (laid.cursor _ ?_) ⟨sound.outer.outer, sound.outer.inside, _, sound.outer.member, _, _, sound.stores positive _ _⟩ rfl
      fun object mine => ?_
    · split <;> omega
    · rw [atT]
      exact mine
  | initialise loop object stores =>
    rw [atT] at step
    cases stores with
    | nil =>
      cases step
      exact inv.returns atT
    | cons w rest =>
      cases step
      exact inv.writeObject atT
  | fullCursor loop =>
    rw [atT] at step sound
    cases step
    have laid := inv.laid loop.outer.chunk (Or.inl sound.outer.member)
    exact inv.writeTable (by rw [atT]; rfl) sound.outer.member (store_info_frame _ _ _ sound.outer.bound 16 8 (by decide))
      (laid.cursor _ sound.current) sound.outer rfl fun object mine => absurd mine (by simp [MallocControl.owned])
  | fullFlag loop =>
    rw [atT] at step sound
    cases step
    have laid := inv.laid loop.chunk (Or.inl sound.member)
    have next := sound.nextClass
    exact inv.writeTable (by rw [atT]; rfl) sound.member (store_info_frame _ _ _ sound.bound 8 1 (by decide))
      (laid.full _) next.sound next.pending fun object mine => absurd (next.owned.symm.trans mine) (by simp)

/-- A step keeps the invariant. -/
theorem step {st st' : SharedHeap × (ι → MallocControl)} (inv : SharedInvariant st.1 st.2)
    (step : SharedStep system st st') : SharedInvariant st'.1 st'.2 := by
  cases step with
  | @call h threads t free typeInfo fieldsLength start isCyclicType short known =>
    have nothing : (threads t).pending = none := by
      rw [free]
      rfl
    refine inv.quiet nothing ?_
    unfold MallocControl.enter
    split
    · exact ⟨trivial, rfl, rfl⟩
    · rename_i index size chosen
      obtain ⟨-, bound, same, fits⟩ := HeapAllocator.chooseBlock_spec short chosen
      exact ⟨⟨⟨bound, same, fits⟩, inv.starts start known⟩, rfl, rfl⟩
  | run t step => exact inv.advance step
  | release held => exact inv.release held

theorem steps {st st' : SharedHeap × (ι → MallocControl)} (inv : SharedInvariant st.1 st.2)
    (run : Relation.ReflTransGen (SharedStep system) st st') : SharedInvariant st'.1 st'.2 := by
  induction run with
  | refl => exact inv
  | tail _ last ih => exact ih.step last

omit [DecidableEq ι] in
/-- The constructor leaves an allocator that satisfies the invariant. -/
theorem initial {a : HeapAllocator} {s : SystemMemory} (sound : a.Sound s) :
    SharedInvariant (SharedHeap.start a s) (fun _ : ι => .idle) := by
  have known {c : HeapChunk} (member : Known (SharedHeap.start a s) (fun _ : ι => .idle) c) : c ∈ a.chunks := by
    rcases member with listed | ⟨_, none⟩
    · exact listed
    · cases none
  have different {c d : HeapChunk} (apart : Apart c.block.start c.block.size d.block.start d.block.size) : c ≠ d := by
    rintro rfl
    have size : c.block.size = chunkBytes c.cellsSize := rfl
    unfold Apart at apart
    unfold chunkBytes sizeofBlockInfo numberOfBlocks at size
    omega
  refine
    { count := rfl
      nodup := sound.apart.imp different
      laid := fun c member => (sound.chunk c (known member)).toLaid
      listed := fun c member => sound.listed c (known member)
      apart := fun c d left right apart => ?_
      unlisted := fun _ _ atT => absurd atT (by simp [MallocControl.pending])
      single := fun _ _ _ atT => absurd atT (by simp [MallocControl.pending])
      starts := fun start member => Or.inl (List.mem_singleton.mp member)
      created := fun _ before => absurd before (by simp [SharedHeap.start])
      control := fun _ => trivial
      owned := fun _ _ atT => absurd atT (by simp [MallocControl.owned])
      exclusive := fun _ _ _ atT => absurd atT (by simp [MallocControl.owned])
      allocated := fun _ before => absurd before (by simp [SharedHeap.start, Allocated])
      orderly := .nil
      small := sound.small }
  obtain ⟨n, atC⟩ := List.mem_iff_getElem?.mp (known left)
  obtain ⟨p, atD⟩ := List.mem_iff_getElem?.mp (known right)
  refine sound.blocks_apart atC atD fun same => apart ?_
  rw [same] at atC
  exact Option.some.inj (atC.symm.trans atD)

end SharedInvariant

omit [DecidableEq ι] in
/-- What a thread has read of the array under the lock is consistent. -/
theorem MallocControl.Sound.chunkLoop {chunks : List HeapChunk} (sound : control.Sound chunks) {loop : ChunkLoop}
    (searching : control.chunkLoop = some loop) : loop.Sound chunks := by
  cases control with
  | idle => cases searching
  | snapshot call current => cases searching
  | nextChunk inner => cases searching; exact sound
  | append inner chunk => cases searching; exact sound
  | testEmpty inner => cases searching; exact ClassLoop.Sound.outer sound
  | readCursor inner => cases searching; exact ClassLoop.Sound.outer sound
  | testState inner => cases searching; exact sound.1.outer.outer
  | exchange inner => cases searching; exact sound.1.outer.outer
  | writeCursor inner => cases searching; exact sound.1.outer.outer
  | initialise inner object stores => cases searching; exact sound.1
  | fullCursor inner => cases searching; exact (CellLoop.Sound.outer sound).outer
  | fullFlag inner => cases searching; exact ClassLoop.Sound.outer sound

omit [DecidableEq ι] in
theorem advance_events {before : MallocControl} (step : before.advance system h = some (h', control)) :
    h.events <:+ h'.events := by
  cases before with
  | idle => cases step
  | nextChunk loop =>
    rw [MallocControl.advance] at step
    split at step
    · obtain ⟨_, -, same⟩ := Option.map_eq_some_iff.mp step
      cases same
      exact List.suffix_refl _
    · split at step <;> cases step
      exact List.suffix_refl _
  | append loop chunk =>
    cases step
    exact List.suffix_cons _ _
  | initialise loop object stores =>
    cases stores with
    | nil =>
      cases step
      exact List.suffix_cons _ _
    | cons w rest =>
      cases step
      exact List.suffix_refl _
  | testEmpty loop =>
    rw [MallocControl.advance] at step
    split at step <;> cases step <;> exact List.suffix_refl _
  | testState loop =>
    rw [MallocControl.advance] at step
    split at step <;> cases step <;> exact List.suffix_refl _
  | exchange loop =>
    rw [MallocControl.advance] at step
    split at step <;> cases step <;> exact List.suffix_refl _
  | _ =>
    cases step
    exact List.suffix_refl _

/-- What has happened stays recorded. -/
theorem SharedStep.events {st st' : SharedHeap × (ι → MallocControl)}
    (run : Relation.ReflTransGen (SharedStep system) st st') : st.1.events <:+ st'.1.events := by
  induction run with
  | refl => exact List.suffix_refl _
  | tail _ last ih =>
    refine ih.trans ?_
    cases last with
    | call => exact List.suffix_refl _
    | run t step => exact advance_events step
    | release => exact List.suffix_cons _ _

/-- Where no size wraps, between two returns of a cell there is a release of it; a
chunk that `create_new_chunk` has added stays in the array, once; and every
thread searches a consistent snapshot and reads no index out of range. -/
theorem shared_allocator {s s' : SystemMemory} {a : HeapAllocator} {cellsSize n : Nat}
    (fits : HeapAllocator.SizesFit cellsSize n) (made : HeapAllocator.make system s true cellsSize n = some (a, s')) {former : SharedHeap × (ι → MallocControl)}
    (first : Relation.ReflTransGen (SharedStep system) (SharedHeap.start a s', fun _ => .idle) former)
    (rest : Relation.ReflTransGen (SharedStep system) former (h, threads)) :
    (∀ later between earlier object,
        h.events = later ++ .returned object :: (between ++ .returned object :: earlier) → .released object ∈ between) ∧
      (∀ chunk, .created chunk ∈ former.1.events → h.chunks.count chunk = 1) ∧
      ∀ t loop, (threads t).chunkLoop = some loop →
        loop.cs = loop.heapChunks.length ∧ loop.heapChunks <+: h.chunks ∧
          (loop.i ≠ loop.cs → loop.currentChunkIndex < loop.heapChunks.length) := by
  have inv : SharedInvariant h threads :=
    ((SharedInvariant.initial (HeapAllocator.make_sound fits.chunk made).1).steps first).steps rest
  refine ⟨fun later between earlier object returns => inv.orderly.released_between returns, fun chunk created => ?_,
    fun t loop searching => ?_⟩
  · exact List.count_eq_one_of_mem inv.nodup (inv.created chunk ((SharedStep.events rest).subset created))
  · have sound := (inv.control t).chunkLoop searching
    refine ⟨sound.length, sound.former, fun more => ?_⟩
    have asked := sound.asked
    have start := sound.start
    rw [← sound.length]
    omega

end Steps

/-- Two threads allocate in turns in a chunk with two cells of every class;
then the first one's object is released, and the first thread gets its cell
again. -/
theorem shared_allocator_twoThreads : ∃ (a : HeapAllocator) (s : SystemMemory) (h : SharedHeap)
    (threads : Bool → MallocControl), HeapAllocator.make bumpAllocator ⟨fun _ => 0, []⟩ true 2 1 = some (a, s) ∧
      h.events = [.returned 8200, .released 8200, .returned 8240, .returned 8200] ∧
      (∀ later between earlier object,
        h.events = later ++ .returned object :: (between ++ .returned object :: earlier) → .released object ∈ between) ∧
      (∀ chunk, .created chunk ∈ h.events → h.chunks.count chunk = 1) ∧
      ∀ t loop, (threads t).chunkLoop = some loop →
        loop.cs = loop.heapChunks.length ∧ loop.heapChunks <+: h.chunks ∧
          (loop.i ≠ loop.cs → loop.currentChunkIndex < loop.heapChunks.length) := by
  have ran : ((HeapAllocator.make bumpAllocator ⟨fun _ => 0, []⟩ true 2 1).bind fun made =>
      (runSchedule bumpAllocator ((List.replicate 14 [false, true]).flatten ++ [true, true])
        (SharedHeap.start made.1 made.2,
          Function.update (Function.update (fun _ => .idle) false (.enter 8 0 true 0)) true (.enter 8 0 true 0))).bind fun ran =>
      (runSchedule bumpAllocator (List.replicate 14 false)
        (ran.1.release 8200, Function.update ran.2 false (.enter 8 0 true 0))).bind fun again =>
      some (ran.1.events, (ran.2 false).isIdle, ran.1.starts, again.1.events)) =
      some ([.returned 8240, .returned 8200], true, [0, 0, 0],
        [.returned 8200, .released 8200, .returned 8240, .returned 8200]) := by
    decide +kernel
  simp only [Option.bind_eq_some_iff] at ran
  obtain ⟨⟨a, s⟩, made, ⟨h, threads⟩, first, ⟨h', threads'⟩, second, same⟩ := ran
  simp only [Option.some.injEq, Prod.mk.injEq] at same
  obtain ⟨events, idle, starts, last⟩ := same
  have free : threads false = .idle := by
    cases atFalse : threads false <;> rw [atFalse] at idle <;> first | rfl | cases idle
  have calls : Relation.ReflTransGen (SharedStep bumpAllocator) (SharedHeap.start a s, fun _ : Bool => .idle) (h, threads) :=
    ((Relation.ReflTransGen.single (.call false rfl true (by decide) List.mem_cons_self)).tail
      (.call true rfl true (by decide) List.mem_cons_self)).trans (runSchedule_run first)
  have again : Relation.ReflTransGen (SharedStep bumpAllocator) (h, threads) (h', threads') := by
    have held : Allocated 8200 h.events := by
      rw [events]
      exact Or.inr (Or.inl rfl)
    have known : 0 ∈ (h.release 8200).starts := by
      show 0 ∈ h.starts
      rw [starts]
      exact List.mem_cons_self
    exact ((Relation.ReflTransGen.single (.release held)).tail (.call false free true (by decide) known)).trans
      (runSchedule_run second)
  have result := shared_allocator ⟨by decide, by decide⟩ made calls again
  refine ⟨a, s, h', threads', made, last, result.1, fun chunk created => ?_, result.2.2⟩
  rw [last] at created
  simp at created

/-- A call of the only thread, from its first step to its last one. -/
def callAlone (st : SharedHeap × (Unit → MallocControl)) (call : Nat × Nat) : Option (SharedHeap × (Unit → MallocControl)) :=
  if (st.2 ()).isIdle ∧ call.1 < 2 ^ 60 ∧ 0 ∈ st.1.starts then
    runSchedule bumpAllocator (List.replicate call.2 ()) (st.1, Function.update st.2 () (.enter 8 call.1 true 0))
  else none

theorem callAlone_run {st st' : SharedHeap × (Unit → MallocControl)} {calls : List (Nat × Nat)}
    (ran : calls.foldlM callAlone st = some st') : Relation.ReflTransGen (SharedStep bumpAllocator) st st' := by
  induction calls generalizing st with
  | nil =>
    cases ran
    exact .refl
  | cons call rest ih =>
    rw [List.foldlM_cons, Option.bind_eq_bind, Option.bind_eq_some_iff] at ran
    obtain ⟨next, first, ran⟩ := ran
    unfold callAlone at first
    split at first
    · rename_i ready
      have free : st.2 () = .idle := by
        have idle := ready.1
        cases atThread : st.2 () <;> rw [atThread] at idle <;> first | rfl | cases idle
      exact ((Relation.ReflTransGen.single (.call () free true ready.2.1 ready.2.2)).trans (runSchedule_run first)).trans (ih ran)
    · cases first

/-- Where the size of a chunk wraps, the object at 6392 is written over the state
of the object at 6400, which is then returned once more. -/
theorem shared_allocator_wrapped : ∃ (a : HeapAllocator) (s : SystemMemory) (h : SharedHeap) (threads : Unit → MallocControl),
    HeapAllocator.make bumpAllocator ⟨fun _ => 0, []⟩ true (2 ^ 61 + 1) 1 = some (a, s) ∧
      Relation.ReflTransGen (SharedStep bumpAllocator) (SharedHeap.start a s, fun _ => .idle) (h, threads) ∧
      h.events = [.returned 6400, .returned 6392, .returned 6312, .returned 6400, .returned 6352] ∧
      ¬∀ later between earlier object,
        h.events = later ++ .returned object :: (between ++ .returned object :: earlier) → .released object ∈ between := by
  have ran : ((HeapAllocator.make bumpAllocator ⟨fun _ => 0, []⟩ true (2 ^ 61 + 1) 1).bind fun made =>
      ([(1, 15), (1, 15), (0, 14), (0, 15), (2, 16)].foldlM callAlone (SharedHeap.start made.1 made.2, fun _ => .idle)).bind
        fun ran => some ran.1.events) =
      some [.returned 6400, .returned 6392, .returned 6312, .returned 6400, .returned 6352] := by
    decide +kernel
  simp only [Option.bind_eq_some_iff] at ran
  obtain ⟨⟨a, s⟩, made, ⟨h, threads⟩, calls, same⟩ := ran
  have events := Option.some.inj same
  dsimp only at events
  refine ⟨a, s, h, threads, made, callAlone_run calls, events, fun orderly => ?_⟩
  have between := orderly [] [.returned 6392, .returned 6312] [.returned 6352] 6400 (by rw [events]; rfl)
  simp at between

end CatLa
