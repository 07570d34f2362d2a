import CatLa.Gc.Marking

namespace CatLa
open CountedGraph FuelLoop GraphSearch Relation TrialDeletion

/-- The maps of `gc_collect` before the lock phase. -/
def Marking.initial (root : Address) : Marking :=
  { colorMap := Function.update (fun _ => none) root (some .red), countMap := fun _ => 0, checkObjects := [] }

/-- The three marking loops of `gc_collect`, with what each of them leaves. -/
def markingLoops (fuel : Nat) (heap : Heap) (root : Address) : Option (LockLoop × Marking × Marking) :=
  (whileTrue (lockBody root) fuel
    (root, { heap := heap, marking := .initial root, cycleObjects := [], isCyclicRoot := false })).bind fun l =>
  (markGray fuel l.heap root l.marking).bind fun gray =>
  (markWhiteOrBlack fuel l.heap root gray).map fun colored => (l, gray, colored)

/-- A root on a cycle is collected by the colours that the loops leave. -/
theorem collectRoot_marking {fuel : Nat} {s : CollectLoop} {root : Address} {l : LockLoop} {gray colored : Marking}
    (loops : markingLoops fuel s.heap root = some (l, gray, colored)) (cyclic : l.isCyclicRoot = true) :
    collectRoot fuel s root =
      some { l.cycleObjects.foldl (collectWhite colored) { s with heap := l.heap } with
        heap := unlockObjects l.cycleObjects (l.cycleObjects.foldl (collectWhite colored) { s with heap := l.heap }).heap } := by
  obtain ⟨l', lockRun, rest⟩ := Option.bind_eq_some_iff.mp loops
  obtain ⟨gray', grayRun, rest⟩ := Option.bind_eq_some_iff.mp rest
  obtain ⟨colored', colorRun, same⟩ := Option.map_eq_some_iff.mp rest
  cases same
  unfold Marking.initial at lockRun
  simp only [collectRoot, lockRun, Option.bind_some, cyclic, if_true, grayRun, colorRun]

variable {heap : Heap} {root : Address} {region : Finset Address}

theorem external_pos {pointers : Address → Multiset Address} {count : Address → Nat} {y : Address} :
    external region pointers count y ≠ 0 ↔ slots region pointers y < count y := by
  unfold external
  omega

/-- An object that refers to the root from its own region puts it on a cycle. -/
theorem cycle_of_slot (whole : ∀ x, x ∈ region ↔ Reach heap.pointers root x)
    (referred : 0 < slots region heap.pointers root) : TransGen (fun p q => q ∈ heap.pointers p) root root := by
  obtain ⟨p, member, pointed⟩ := slots_pos.mp referred
  exact TransGen.tail' ((whole p).mp member) pointed

/-- After the three loops an object below the root is white exactly when no
object with more references than those of the region leads to it, and black
otherwise; no count has wrapped below zero. -/
theorem trialDeletion_exact (whole : ∀ x, x ∈ region ↔ Reach heap.pointers root x)
    (enough : ∀ x ∈ region, slots region heap.pointers x ≤ (heap x).count)
    (referred : 0 < slots region heap.pointers root) (unlocked : ∀ x ∈ region, (heap x).lockFlag = false) :
    ∃ l gray colored, Returns (fun fuel => markingLoops fuel heap root) (l, gray, colored) ∧ l.isCyclicRoot = true ∧
      (∀ x ∈ region, (colored.color x = .white ↔
        ¬∃ y ∈ region, slots region heap.pointers y < (heap y).count ∧ Reach heap.pointers y x) ∧
        (colored.color x ≠ .white → colored.color x = .black)) ∧
      ∀ x ∈ region, gray.countMap x + slots region heap.pointers x = (heap x).count ∧
        gray.countMap x ≤ colored.countMap x := by
  obtain ⟨l, lockRun, locked⟩ := returns_lockPhase (fun x path => (whole x).mpr path)
    (fun x path => unlocked x ((whole x).mpr path))
    { heap := heap, marking := .initial root, cycleObjects := [], isCyclicRoot := false } rfl rfl rfl rfl rfl
  have pointers : l.heap.pointers = heap.pointers := locked.heap.pointers
  have count (x : Address) : (l.heap x).count = (heap x).count := by
    rw [locked.heap x]
    split <;> rfl
  have whole' : ∀ x, x ∈ region ↔ Reach l.heap.pointers root x := by rwa [pointers]
  obtain ⟨gray, grayRun, grayRegion⟩ := returns_markGray whole'
    (fun x member => by rw [count, pointers]; exact enough x member) locked.red locked.stack
  obtain ⟨colored, colorRun, coloredRegion⟩ := returns_markWhiteOrBlack whole' grayRegion
  have tally := grayRegion.tally
  simp only [pointers, count] at coloredRegion tally
  refine ⟨l, gray, colored, lockRun.bind (grayRun.bind (colorRun.map _)),
    locked.cyclic.mpr (cycle_of_slot whole referred), fun x member => ⟨?_, fun notWhite => ?_⟩, fun x member => ⟨?_, ?_⟩⟩
  · rw [coloredRegion.white x member, Supported]
    simp only [external_pos]
  · rw [coloredRegion.black x member]
    by_contra unsupported
    exact notWhite ((coloredRegion.white x member).mpr unsupported)
  · rw [tally x member, external]
    exact Nat.sub_add_cancel (enough x member)
  · rw [tally x member]
    exact coloredRegion.external_le x member

/-- A cycle of two objects that leads to a third one, which is referred to from
elsewhere. -/
def sharedTail : Heap := fun a =>
  if a = 8 then { HeapObject.zeroed with count := 1, state := .live, fields := [16] }
  else if a = 16 then { HeapObject.zeroed with count := 1, state := .live, fields := [8, 24] }
  else if a = 24 then { HeapObject.zeroed with count := 2, state := .live }
  else .zeroed

theorem sharedTail_region (x : Address) : x ∈ ({8, 16, 24} : Finset Address) ↔ Reach sharedTail.pointers 8 x := by
  refine ⟨fun member => ?_, fun path => ?_⟩
  · have second : Reach sharedTail.pointers 8 16 := .single (by decide)
    simp only [Finset.mem_insert, Finset.mem_singleton] at member
    rcases member with rfl | rfl | rfl
    · exact .refl
    · exact second
    · exact second.tail (by decide)
  · exact path.mem (· ∈ ({8, 16, 24} : Finset Address)) (by decide) (by decide)

theorem trialDeletion_exact_sharedTail :
    ∃ l gray colored, Returns (fun fuel => markingLoops fuel sharedTail 8) (l, gray, colored) ∧ l.isCyclicRoot = true ∧
      (∀ x ∈ ({8, 16, 24} : Finset Address), (colored.color x = .white ↔
        ¬∃ y ∈ ({8, 16, 24} : Finset Address), slots {8, 16, 24} sharedTail.pointers y < (sharedTail y).count ∧
          Reach sharedTail.pointers y x) ∧
        (colored.color x ≠ .white → colored.color x = .black)) ∧
      ∀ x ∈ ({8, 16, 24} : Finset Address), gray.countMap x + slots {8, 16, 24} sharedTail.pointers x =
        (sharedTail x).count ∧ gray.countMap x ≤ colored.countMap x :=
  trialDeletion_exact sharedTail_region (by decide) (by decide) (by decide)

end CatLa
