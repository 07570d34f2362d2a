import Mathlib.Data.List.GetD
import Mathlib.Data.List.Induction

namespace CatLa

/-- `create_bitset`, as `calloc` leaves it. -/
def createBitset (length : Nat) : List (BitVec 8) := List.replicate ((length >>> 3) + 1) 0

/-- `get_flag`. -/
def getFlag (bytes : List (BitVec 8)) (index : Nat) : Bool :=
  let mask : BitVec 8 := 1#8 <<< (index &&& 7)
  bytes.getD (index >>> 3) 0 &&& mask ≠ 0

/-- `set_flag`. -/
def setFlag (bytes : List (BitVec 8)) (index : Nat) (value : Bool) : List (BitVec 8) :=
  bytes.modify (index >>> 3) (· ||| (if value then 1#8 else 0#8) <<< (index &&& 7))

theorem getFlag_createBitset (length index : Nat) : getFlag (createBitset length) index = false := by
  have zero : (createBitset length).getD (index >>> 3) 0 = 0 := by
    rw [createBitset, List.getD_eq_getElem?_getD, List.getElem?_replicate]
    split <;> rfl
  simp only [getFlag, zero]
  simp

/-- A flag is a bit of one byte. -/
theorem getFlag_eq (bytes : List (BitVec 8)) (index : Nat) :
    getFlag bytes index = (bytes.getD (index >>> 3) 0).getLsbD (index &&& 7) := by
  have inside : index &&& 7 < 8 := Nat.lt_of_le_of_lt Nat.and_le_right (by decide)
  have mask : 1#8 <<< (index &&& 7) = BitVec.twoPow 8 (index &&& 7) := rfl
  have set : BitVec.twoPow 8 (index &&& 7) ≠ 0#8 := fun zero => by
    have bit := congrArg (·.getLsbD (index &&& 7)) zero
    simp [inside] at bit
  rw [getFlag, mask, BitVec.and_twoPow]
  cases (bytes.getD (index >>> 3) 0).getLsbD (index &&& 7) with
  | false => simp
  | true => simpa using set

theorem index_split {i j : Nat} : i = j ↔ i >>> 3 = j >>> 3 ∧ i &&& 7 = j &&& 7 := by
  rw [Nat.shiftRight_eq_div_pow, Nat.shiftRight_eq_div_pow, Nat.and_two_pow_sub_one_eq_mod i 3, Nat.and_two_pow_sub_one_eq_mod j 3]
  omega

theorem getFlag_setFlag {bytes : List (BitVec 8)} {j : Nat} (inside : j >>> 3 < bytes.length) (i : Nat) :
    getFlag (setFlag bytes j true) i = (decide (i = j) || getFlag bytes i) := by
  have below : i &&& 7 < 8 := Nat.lt_of_le_of_lt Nat.and_le_right (by decide)
  simp only [getFlag_eq, setFlag, List.getD_eq_getElem?_getD, List.getElem?_modify, Option.map_eq_map, if_true]
  by_cases byte : j >>> 3 = i >>> 3
  · have here := List.getElem?_eq_getElem (byte ▸ inside)
    have bit : (1#8 <<< (j &&& 7)).getLsbD (i &&& 7) = decide (i &&& 7 = j &&& 7) := by
      have shifted : 1#8 <<< (j &&& 7) = BitVec.twoPow 8 (j &&& 7) := rfl
      rw [shifted, BitVec.getLsbD_twoPow]
      by_cases same : i &&& 7 = j &&& 7
      · simp [same, same ▸ below]
      · simp [same, Ne.symm same]
    have whole : decide (i = j) = decide (i &&& 7 = j &&& 7) := decide_eq_decide.mpr (index_split.trans (by simp [byte]))
    simp only [byte, if_true, here, Option.map_some, Option.getD_some, BitVec.getLsbD_or, bit, whole, Bool.or_comm]
  · have other : i ≠ j := fun same => byte (same ▸ rfl)
    simp [byte, other]
@[simp] theorem length_setFlag (bytes : List (BitVec 8)) (index : Nat) (value : Bool) :
    (setFlag bytes index value).length = bytes.length :=
  List.length_modify ..

/-- A false flag is not written. -/
@[simp] theorem setFlag_false (bytes : List (BitVec 8)) (index : Nat) : setFlag bytes index false = bytes := by
  refine List.ext_getElem (by simp) fun i _ _ => ?_
  simp [setFlag, List.getElem_modify]

/-- A bitset after these calls of `set_flag`. -/
def bitsetAfter (length : Nat) (calls : List (Nat × Bool)) : List (BitVec 8) :=
  calls.foldl (fun bytes call => setFlag bytes call.1 call.2) (createBitset length)

/-- The value of the last call for an index. -/
def lastFlag (calls : List (Nat × Bool)) (index : Nat) : Bool :=
  ((calls.filter (·.1 = index)).getLast?.map (·.2)).getD false

/-- What is read is what was written last, and no byte outside is touched. -/
structure ReadsBack (length : Nat) (calls : List (Nat × Bool)) : Prop where
  flags : ∀ index < length, getFlag (bitsetAfter length calls) index = lastFlag calls index
  reads : ∀ index < length, index >>> 3 < (bitsetAfter length calls).length
  writes : ∀ before index value after, calls = before ++ (index, value) :: after →
    index >>> 3 < (bitsetAfter length before).length

@[simp] theorem length_bitsetAfter (length : Nat) (calls : List (Nat × Bool)) :
    (bitsetAfter length calls).length = (length >>> 3) + 1 := by
  induction calls using List.reverseRecOn with
  | nil => simp [bitsetAfter, createBitset]
  | append_singleton calls call ih =>
    rw [bitsetAfter, List.foldl_append]
    exact (length_setFlag ..).trans ih

theorem byte_inside {length index : Nat} (inside : index < length) : index >>> 3 < (length >>> 3) + 1 := by
  rw [Nat.shiftRight_eq_div_pow, Nat.shiftRight_eq_div_pow]
  exact Nat.lt_succ_of_le (Nat.div_le_div_right (Nat.le_of_lt inside))

/-- A flag is set once it has been written true. -/
theorem getFlag_bitsetAfter {length : Nat} {calls : List (Nat × Bool)} (inside : ∀ call ∈ calls, call.1 < length) (index : Nat) :
    getFlag (bitsetAfter length calls) index = decide ((index, true) ∈ calls) := by
  induction calls using List.reverseRecOn with
  | nil => simp [bitsetAfter, getFlag_createBitset]
  | append_singleton calls call ih =>
    obtain ⟨written, value⟩ := call
    have before := ih fun other member => inside other (List.mem_append_left _ member)
    have room : written >>> 3 < (bitsetAfter length calls).length := by
      rw [length_bitsetAfter]
      exact byte_inside (inside (written, value) (by simp))
    rw [bitsetAfter, List.foldl_append]
    change getFlag (setFlag (bitsetAfter length calls) written value) index = _
    cases value with
    | false => simp [before]
    | true =>
      rw [getFlag_setFlag room, before]
      simp [or_comm]

theorem true_of_lastFlag {calls : List (Nat × Bool)} {index : Nat} (last : lastFlag calls index = true) :
    (index, true) ∈ calls := by
  rw [lastFlag] at last
  cases found : (calls.filter (·.1 = index)).getLast? with
  | none => simp [found] at last
  | some call =>
    obtain ⟨written, value⟩ := call
    obtain ⟨member, same⟩ := List.mem_filter.mp (List.mem_of_getLast? found)
    obtain rfl : written = index := by simpa using same
    obtain rfl : value = true := by simpa [found] using last
    exact member

/-- A bitset is read back exactly if no index that was written true is false
in the last call for it. -/
theorem bitset_readsBack {length : Nat} {calls : List (Nat × Bool)} (inside : ∀ call ∈ calls, call.1 < length) :
    ReadsBack length calls ↔ ∀ index, (index, true) ∈ calls → lastFlag calls index = true := by
  constructor
  · intro back index written
    rw [← back.flags index (inside _ written), getFlag_bitsetAfter inside, decide_eq_true written]
  · intro last
    refine ⟨fun index _ => ?_, fun index bound => ?_, fun before index value after same => ?_⟩
    · rw [getFlag_bitsetAfter inside]
      by_cases written : (index, true) ∈ calls
      · rw [decide_eq_true written, last index written]
      · rw [decide_eq_false written, Bool.eq_false_iff.mpr (mt true_of_lastFlag written)]
    · rw [length_bitsetAfter]
      exact byte_inside bound
    · rw [length_bitsetAfter]
      exact byte_inside (inside (index, value) (same ▸ by simp))

theorem bitset_readsBack_set : ReadsBack 9 [(8, false), (8, true)] :=
  (bitset_readsBack (by decide)).mpr fun index written => by
    obtain rfl : index = 8 := by simpa using written
    decide

/-- A flag that is set to false again stays true. -/
theorem bitset_readsBack_cleared : ¬ReadsBack 1 [(0, true), (0, false)] := fun back =>
  absurd (back.flags 0 (by decide)) (by decide)

end CatLa
