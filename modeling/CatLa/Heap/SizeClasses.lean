import CatLa.Heap.HeapAllocator

namespace CatLa

open FuelLoop

namespace HeapAllocator

/-- The class is the smallest one with room for the object, and null is
returned exactly where no class has room. -/
structure ClassExact (fieldsLength : Nat) : Prop where
  smallest : ∀ index size, chooseBlock fieldsLength = some (index, size) →
    index < numberOfBlocks ∧ size = blockSize index ∧ objectSize fieldsLength ≤ size ∧
      ∀ k < index, blockSize k < objectSize fieldsLength
  chosen : chooseBlock fieldsLength = none ↔ 512 < objectSize fieldsLength
  returned : ∀ system isCyclingType typeInfo fuel s a start r,
    malloc system isCyclingType typeInfo fieldsLength fuel s a start = some r → (r.address = none ↔ 512 < objectSize fieldsLength)

variable {fieldsLength : Nat}

/-- Only an object that has no class gets null. -/
theorem malloc_null {system : SystemAllocator} {isCyclingType : Nat → Bool} {typeInfo fuel start : Nat} {s : SystemMemory}
    {a : HeapAllocator} {r : Allocation} (run : malloc system isCyclingType typeInfo fieldsLength fuel s a start = some r) :
    r.address = none ↔ chooseBlock fieldsLength = none := by
  unfold malloc at run
  split at run
  · rename_i nowhere
    obtain rfl := Option.some.inj run
    simp [nowhere]
  · rename_i index size found
    rw [found]
    refine iff_of_false ?_ (by simp)
    refine whileTrue_post (fun _ => True) (fun r => r.address ≠ none) (fun _ _ _ _ => trivial) (fun st r _ pass => ?_) run trivial
    unfold mallocPass at pass
    split at pass
    · obtain ⟨_, _, same⟩ := Option.map_eq_some_iff.mp pass
      exact absurd same (by simp)
    · split at pass
      · exact absurd pass (by simp)
      · split at pass
        · exact absurd pass (by simp)
        · obtain rfl := Next.done.inj (Option.some.inj pass)
          simp
        · exact absurd (Option.some.inj pass) (by simp)

/-- The size wraps around, and null is returned by what is left of it. -/
theorem chooseBlock_none_iff : chooseBlock fieldsLength = none ↔ 512 < (40 + 8 * (fieldsLength % 2 ^ 61)) % 2 ^ 64 := by
  have wrapped : (sizeofHeapObject + fieldsLength <<< 3) % 2 ^ 64 = (40 + 8 * (fieldsLength % 2 ^ 61)) % 2 ^ 64 := by
    rw [sizeofHeapObject, Nat.shiftLeft_eq]
    omega
  rw [chooseBlock, wrapped]
  dsimp only
  split
  · exact iff_of_false (by simp) (by omega)
  · split
    · exact iff_of_false (by simp) (by omega)
    · exact iff_of_true rfl (by omega)

theorem chooseBlock_short (short : fieldsLength < 60) (other : fieldsLength ≠ 7) {index size : Nat}
    (found : chooseBlock fieldsLength = some (index, size)) :
    index < numberOfBlocks ∧ size = blockSize index ∧ objectSize fieldsLength ≤ size ∧
      ∀ k < index, blockSize k < objectSize fieldsLength := by
  have table : ∀ n < 60, n ≠ 7 → ∀ c ∈ chooseBlock n, c.1 < numberOfBlocks ∧ c.2 = blockSize c.1 ∧ objectSize n ≤ c.2 ∧
      ∀ k < c.1, blockSize k < objectSize n := by
    decide +kernel
  exact table fieldsLength short other (index, size) found

/-- The choice is exact but for an object that just fits the class of 96 bytes,
and for those whose size wraps around to that of a small one. -/
theorem chooseBlock_exact (word : fieldsLength < 2 ^ 64) :
    ClassExact fieldsLength ↔ fieldsLength ≠ 7 ∧ (fieldsLength < 60 ∨ 64 < (fieldsLength + 5) % 2 ^ 61) := by
  have large : 512 < objectSize fieldsLength ↔ 60 ≤ fieldsLength := by
    rw [objectSize, sizeofHeapObject]
    omega
  have none : (chooseBlock fieldsLength = none ↔ 512 < objectSize fieldsLength) ↔
      fieldsLength < 60 ∨ 64 < (fieldsLength + 5) % 2 ^ 61 := by
    rw [chooseBlock_none_iff, large]
    omega
  constructor
  · intro exact
    refine ⟨?_, none.mp exact.chosen⟩
    rintro rfl
    have spare := (exact.smallest 9 128 (by decide +kernel)).2.2.2 8 (by decide)
    exact absurd spare (by decide)
  · rintro ⟨other, fits⟩
    have chosen := none.mpr fits
    refine ⟨fun index size found => ?_, chosen, fun _ _ _ _ _ _ _ _ run => (malloc_null run).trans chosen⟩
    have short : fieldsLength < 60 := by
      by_contra long
      rw [chosen.mpr (large.mpr (by omega))] at found
      exact absurd found (by simp)
    exact chooseBlock_short short other found

theorem chooseBlock_exact_six : ClassExact 6 := (chooseBlock_exact (by decide)).mpr (by decide)

/-- An object of 96 bytes is given 128, and one with 2^61 fields is given 40. -/
theorem chooseBlock_exact_fails : (objectSize 7 = 96 ∧ chooseBlock 7 = some (9, 128) ∧ ¬ClassExact 7) ∧
    chooseBlock (2 ^ 61) = some (1, 40) ∧ ¬ClassExact (2 ^ 61) := by
  refine ⟨⟨by decide, by decide +kernel, fun exact => ?_⟩, by decide +kernel, fun exact => ?_⟩
  · have spare := (exact.smallest 9 128 (by decide +kernel)).2.2.2 8 (by decide)
    exact absurd spare (by decide)
  · have large := exact.chosen.mpr (by decide)
    exact absurd large (by decide +kernel)

end HeapAllocator
end CatLa
