import CatLa.Parser.ConstCursor
import CatLa.Parser.ModuleText

namespace CatLa
open Outcome Pattern

section Tables
variable {π : Type} {map : List (Nat × π)} {outcome : Except ParseFailure (List π)}

/-- The indices of the entries are those below `n`. -/
def DenseTo (map : List (Nat × π)) (n : Nat) : Prop := ∀ i, i ∈ map.map Prod.fst ↔ i < n

/-- What a section makes of its entries: where the indices are `0 .. n-1` the
table of the newest entries of each, and otherwise a `ParseException`. -/
structure DenseTable (map : List (Nat × π)) (outcome : Except ParseFailure (List π)) : Prop where
  dense : ∀ n, DenseTo map n → ∃ table, outcome = .ok table ∧ table.length = n ∧ ∀ i < n, table[i]? = map.lookup i
  sparse : (¬∃ n, DenseTo map n) → outcome = .error .parseException

/-- `map[i]`, where there is one. -/
def entryAt (map : List (Nat × π)) (i : Nat) : Except ParseFailure π :=
  match map.lookup i with
  | some value => .ok value
  | none => .error .parseException

theorem mapM_entryAt {indices : List Nat} (all : ∀ i ∈ indices, i ∈ map.map Prod.fst) :
    ∃ table, indices.mapM (entryAt map) = .ok table ∧ table.map some = indices.map (map.lookup ·) := by
  induction indices with
  | nil => exact ⟨[], rfl, rfl⟩
  | cons i indices ih =>
    obtain ⟨value, found⟩ := Option.isSome_iff_exists.mp (isSome_lookup.mpr (all i List.mem_cons_self))
    obtain ⟨table, run, values⟩ := ih fun j member => all j (List.mem_cons_of_mem i member)
    refine ⟨value :: table, ?_, by rw [List.map_cons, List.map_cons, found, values]⟩
    rw [List.mapM_cons, entryAt, found, ok_bind, run]
    rfl

theorem mapM_missing {indices : List Nat} (missing : ∃ i ∈ indices, i ∉ map.map Prod.fst) :
    indices.mapM (entryAt map) = .error .parseException := by
  induction indices with
  | nil =>
    obtain ⟨i, member, _⟩ := missing
    exact absurd member List.not_mem_nil
  | cons i indices ih =>
    rw [List.mapM_cons, entryAt]
    cases found : map.lookup i with
    | none => rfl
    | some value =>
      rw [ok_bind, ih]
      · rfl
      · obtain ⟨j, member, absent⟩ := missing
        rcases List.mem_cons.mp member with rfl | later
        · exact absurd (isSome_lookup.mp (by rw [found]; rfl)) absent
        · exact ⟨j, later, absent⟩

/-- The elements up to the largest index, wherever they lie. -/
def entriesTable (map : List (Nat × π)) : Except ParseFailure (List π) :=
  (List.range (tableLength (map.map Prod.fst))).mapM (entryAt map)

/-- With 64-bit indices the table is right exactly if the largest of them is not
among the indices: one more is then 0. -/
theorem entriesTable_dense (words : ∀ i ∈ map.map Prod.fst, i < 2 ^ 64) :
    DenseTable map (entriesTable map) ↔ 2 ^ 64 - 1 ∉ map.map Prod.fst := by
  cases largest : (map.map Prod.fst).max? with
  | none =>
    have none : map.map Prod.fst = [] := List.max?_eq_none_iff.mp largest
    have run : entriesTable map = .ok [] := by
      rw [entriesTable, tableLength, largest]
      rfl
    have empty : DenseTo map 0 := fun i => by simp [none]
    refine iff_of_true ⟨fun n dense => ?_, fun sparse => absurd ⟨0, empty⟩ sparse⟩ (by simp [none])
    obtain rfl : n = 0 := by
      by_contra positive
      have member := (dense 0).mpr (Nat.pos_of_ne_zero positive)
      exact absurd member (by simp [none])
    exact ⟨[], run, rfl, fun i inside => absurd inside (Nat.not_lt_zero i)⟩
  | some maxIndex =>
    obtain ⟨member, upper⟩ := List.max?_eq_some_iff.mp largest
    have word := words maxIndex member
    have run : entriesTable map = (List.range ((maxIndex + 1) % 2 ^ 64)).mapM (entryAt map) := by
      rw [entriesTable, tableLength, largest]
    have length {n : Nat} (dense : DenseTo map n) : n = maxIndex + 1 := by
      have below := (dense maxIndex).mp member
      have above : ¬maxIndex + 1 < n := fun inside => by
        have := upper _ ((dense (maxIndex + 1)).mpr inside)
        omega
      omega
    constructor
    · intro right last
      obtain rfl : maxIndex = 2 ^ 64 - 1 := by
        have := upper _ last
        omega
      have wrapped : entriesTable map = .ok [] := run
      by_cases dense : ∃ n, DenseTo map n
      · obtain ⟨n, dense⟩ := dense
        obtain ⟨table, same, size, _⟩ := right.dense n dense
        obtain rfl := Except.ok.inj (wrapped.symm.trans same)
        have := length dense
        rw [List.length_nil] at size
        omega
      · exact absurd (wrapped.symm.trans (right.sparse dense)) (by simp)
    · intro small
      have other : maxIndex ≠ 2 ^ 64 - 1 := fun same => small (same ▸ member)
      rw [Nat.mod_eq_of_lt (by omega)] at run
      refine ⟨fun n dense => ?_, fun sparse => ?_⟩
      · obtain rfl := length dense
        obtain ⟨table, returns, values⟩ := mapM_entryAt fun i inside => (dense i).mpr (List.mem_range.mp inside)
        have size : table.length = maxIndex + 1 := by simpa using congrArg List.length values
        refine ⟨table, run.trans returns, size, fun i inside => ?_⟩
        have at_i := congrArg (·[i]?) values
        simpa [inside, size, List.getElem?_range] using at_i
      · rw [run]
        refine mapM_missing ?_
        by_contra complete
        refine sparse ⟨maxIndex + 1, fun i => ⟨fun known => Nat.lt_succ_of_le (upper i known), fun inside => ?_⟩⟩
        by_contra absent
        exact complete ⟨i, List.mem_range.mpr inside, absent⟩

theorem DenseTable.ends (right : DenseTable map outcome) : Ends (· = .parseException) (fun _ => True) outcome := by
  by_cases dense : ∃ n, DenseTo map n
  · obtain ⟨n, dense⟩ := dense
    obtain ⟨table, same, -⟩ := right.dense n dense
    rw [same]
    trivial
  · rw [right.sparse dense]
    rfl

variable {library : StandardLibrary} {sizeofElement : Nat}

/-- A vector is right exactly if it can be constructed, besides. -/
theorem tableOf_dense (words : ∀ i ∈ map.map Prod.fst, i < 2 ^ 64) :
    DenseTable map (tableOf library sizeofElement map) ↔
      2 ^ 64 - 1 ∉ map.map Prod.fst ∧ vectorProvided library sizeofElement (map.map Prod.fst) = true := by
  by_cases provided : vectorProvided library sizeofElement (map.map Prod.fst) = true
  · have run : tableOf library sizeofElement map = entriesTable map := if_pos provided
    rw [run, entriesTable_dense words, and_iff_left provided]
  · have run : tableOf library sizeofElement map = .error .badAlloc := if_neg provided
    refine iff_of_false (fun right => ?_) fun both => provided both.2
    have ends := right.ends
    rw [run] at ends
    exact absurd ends (by simp [Ends])

/-- The table of the constants is right exactly if `calloc` has returned room for
what is written before the first gap, besides. -/
theorem constTableOf_dense {map : List (Nat × ConstValue)} (words : ∀ i ∈ map.map Prod.fst, i < 2 ^ 64) :
    DenseTable map (constTableOf library map) ↔
      2 ^ 64 - 1 ∉ map.map Prod.fst ∧ ElementsProvided library (map.map Prod.fst) := by
  by_cases provided : ElementsProvided library (map.map Prod.fst)
  · have run : constTableOf library map = entriesTable map := by
      refine mapM_range_congr fun i inside before => ?_
      unfold entryAt
      cases found : map.lookup i with
      | none => rfl
      | some value =>
        refine if_pos (provided i inside fun j below => ?_)
        rw [← isSome_lookup]
        rcases Nat.lt_or_eq_of_le below with earlier | rfl
        · obtain ⟨_, run⟩ := before j earlier
          by_contra missing
          rw [Bool.not_eq_true, Option.isSome_eq_false_iff, Option.isNone_iff_eq_none] at missing
          rw [missing] at run
          cases run
        · rw [found]
          rfl
    rw [run, entriesTable_dense words, and_iff_left provided]
  · refine iff_of_false (fun right => ?_) fun both => provided both.2
    exact provided ((constTableOf_ends map).mp right.ends)

end Tables

section Indices
variable {π : Type}

theorem stoull_lt {text : Text} {n : Nat} (run : stoull text = .ok n) : n < 2 ^ 64 := by
  obtain ⟨⟨negative, magnitude⟩, _, run⟩ := bind_eq_ok.mp run
  dsimp only at run
  split at run
  · exact absurd run (by simp)
  · rename_i fits
    rw [← Except.ok.inj run]
    split
    · exact Nat.mod_lt _ (by decide)
    · exact Nat.lt_of_not_le fits

/-- The indices that were read are 64-bit values. -/
def Words (map : List (Nat × π)) : Prop := ∀ i ∈ map.map Prod.fst, i < 2 ^ 64

theorem Words.nil : Words ([] : List (Nat × π)) := fun _ member => absurd member List.not_mem_nil

theorem Words.cons {map : List (Nat × π)} (words : Words map) {i : Nat} {text : Text} (read : stoull text = .ok i) (value : π) :
    Words ((i, value) :: map) := by
  intro j member
  rcases List.mem_cons.mp member with rfl | earlier
  · exact stoull_lt read
  · exact words j earlier

theorem readImport_words {moduleName line : Text} {constValues : List ConstValue} {map map' : List (Nat × Text)}
    (words : Words map) (run : readImport moduleName constValues map line = .ok map') : Words map' := by
  unfold readImport at run
  split at run
  · obtain ⟨index, read, run⟩ := bind_eq_ok.mp run
    obtain ⟨targetIndex, _, run⟩ := bind_eq_ok.mp run
    dsimp only at run
    split at run
    · obtain ⟨module, _, same⟩ := bind_eq_ok.mp run
      exact Except.ok.inj same ▸ words.cons read module
    · exact Except.ok.inj run ▸ words.cons read []
  · split at run
    · obtain ⟨index, read, same⟩ := bind_eq_ok.mp run
      exact Except.ok.inj same ▸ words.cons read moduleName
    · exact absurd run (by simp)

theorem readUsingType_words {line : Text} {map map' : List (Nat × TypeInfo)} (words : Words map)
    (run : readUsingType map line = .ok map') : Words map' := by
  unfold readUsingType at run
  split at run
  · obtain ⟨index, read, run⟩ := bind_eq_ok.mp run
    obtain ⟨importIndex, _, same⟩ := bind_eq_ok.mp run
    exact Except.ok.inj same ▸ words.cons read _
  · exact absurd run (by simp)

theorem readFunction_words {constValues : List ConstValue} {line code left : Text} {map map' : List (Nat × VMFunction)}
    (words : Words map) (run : readFunction library constValues map line code = .ok (map', left)) : Words map' := by
  unfold readFunction at run
  split at run
  · obtain ⟨index, read, run⟩ := bind_eq_ok.mp run
    obtain ⟨name, _, run⟩ := bind_eq_ok.mp run
    obtain ⟨variablesSize, _, run⟩ := bind_eq_ok.mp run
    obtain ⟨registersSize, _, run⟩ := bind_eq_ok.mp run
    obtain ⟨argMap, _, run⟩ := bind_eq_ok.mp run
    obtain ⟨returnTypeInfo, _, run⟩ := bind_eq_ok.mp run
    obtain ⟨argumentTypes, _, run⟩ := bind_eq_ok.mp run
    obtain ⟨⟨labelBlocks, code'⟩, _, same⟩ := bind_eq_ok.mp run
    rw [← (Prod.mk.inj (Except.ok.inj same)).1]
    exact words.cons read _
  · exact absurd run (by simp)

theorem readArguments_words {args : List Text} {map map' : List (Nat × ArgumentInfo)} (words : Words map)
    (run : readArguments map args = .ok map') : Words map' := by
  induction args generalizing map with
  | nil => exact Except.ok.inj run ▸ words
  | cons arg args ih =>
    unfold readArguments at run
    split at run
    · obtain ⟨argIndex, read, run⟩ := bind_eq_ok.mp run
      obtain ⟨typeInfo, _, run⟩ := bind_eq_ok.mp run
      exact ih (words.cons read typeInfo) run
    · split at run
      · exact Except.ok.inj run ▸ words
      · exact absurd run (by simp)

theorem readConst_word {library : StandardLibrary} {code left : Text} {entry : Nat × ConstValue}
    (run : readConst library code = .ok (entry, left)) : ∃ text, stoull text = .ok entry.1 := by
  unfold readConst at run
  dsimp only at run
  split at run
  · obtain ⟨index, read, run⟩ := bind_eq_ok.mp run
    obtain ⟨byteSize, _, run⟩ := bind_eq_ok.mp run
    split at run
    · exact absurd run (by simp)
    · obtain ⟨bytes, _, run⟩ := bind_eq_ok.mp run
      obtain ⟨payload, _, run⟩ := bind_eq_ok.mp run
      split at run
      · exact absurd run (by simp)
      · obtain ⟨rfl, _⟩ := Prod.mk.inj (Except.ok.inj run)
        exact ⟨_, read⟩
  · exact absurd run (by simp)

theorem readConsts_words {library : StandardLibrary} {map map' : List (Nat × ConstValue)}
    {code left : Text} (words : Words map) (run : readConsts library map code = .ok (map', left)) : Words map' := by
  induction length : code.length using Nat.strongRecOn generalizing map code with
  | _ n ih =>
    by_cases more : code = []
    · rw [readConsts, dif_pos more] at run
      exact (Prod.mk.inj (Except.ok.inj run)).1 ▸ words
    · have shorter := moveUntilNextLine_length more
      obtain ⟨line, behind, next⟩ : ∃ line behind, moveUntilNextLine code = (line, behind) := ⟨_, _, rfl⟩
      rw [next] at shorter
      dsimp only at shorter
      rw [readConsts_pass more next] at run
      split at run
      · exact (Prod.mk.inj (Except.ok.inj run)).1 ▸ words
      · split at run
        · exact ih behind.length (by omega) words run rfl
        · obtain ⟨⟨⟨index, value⟩, code'⟩, read, run⟩ := bind_eq_ok.mp run
          have shorter := readConst_length read
          obtain ⟨text, word⟩ := readConst_word read
          exact ih code'.length (by omega) (words.cons word value) run rfl

end Indices

section Sections
variable {library : StandardLibrary} {moduleName : Text} {constValues : List ConstValue}

/-- A table that is made behind a loop. -/
theorem table_run {π : Type} {map : List (Nat × π)} {left : Text} {loop : Except ParseFailure (List (Nat × π) × Text)}
    {table : List (Nat × π) → Except ParseFailure (List π)} (run : loop = .ok (map, left)) :
    (loop >>= fun read => table read.1 >>= fun values => .ok (values, read.2)).map Prod.fst = table map := by
  rw [run, ok_bind]
  cases table map <;> rfl

/-- The tables of the five sections whose entries are read, whatever their
order: right unless an index is the last 64-bit value or there is no memory. -/
theorem sections_dense :
    (∀ code map left, readConsts library [] code = .ok (map, left) →
      (DenseTable map ((parseConst library code).map Prod.fst) ↔
        2 ^ 64 - 1 ∉ map.map Prod.fst ∧ ElementsProvided library (map.map Prod.fst))) ∧
    (∀ code map left, forLines END (.ofLine (readImport moduleName constValues)) [] code = .ok (map, left) →
      (DenseTable map ((parseImport library moduleName constValues code).map Prod.fst) ↔
        2 ^ 64 - 1 ∉ map.map Prod.fst ∧ vectorProvided library sizeofString (map.map Prod.fst) = true)) ∧
    (∀ code map left, forLines END (.ofLine readUsingType) [] code = .ok (map, left) →
      (DenseTable map ((parseType library code).map Prod.fst) ↔
        2 ^ 64 - 1 ∉ map.map Prod.fst ∧ vectorProvided library sizeofTypeInfo (map.map Prod.fst) = true)) ∧
    (∀ code map left,
      forLines END ⟨readFunction library constValues, readFunction_length library constValues⟩ [] code = .ok (map, left) →
      (DenseTable map ((parseFunction library constValues code).map Prod.fst) ↔
        2 ^ 64 - 1 ∉ map.map Prod.fst ∧ vectorProvided library sizeofPointer (map.map Prod.fst) = true)) ∧
    ∀ args map, readArguments [] (commaTokens args) = .ok map →
      (DenseTable map (readArguments [] (commaTokens args) >>= tableOf library sizeofArgumentInfo) ↔
        2 ^ 64 - 1 ∉ map.map Prod.fst ∧ vectorProvided library sizeofArgumentInfo (map.map Prod.fst) = true) := by
  refine ⟨fun code map left run => ?_, fun code map left run => ?_, fun code map left run => ?_, fun code map left run => ?_,
    fun args map run => ?_⟩
  · rw [parseConst, table_run run]
    exact constTableOf_dense (readConsts_words .nil run)
  · rw [parseImport, table_run run]
    refine tableOf_dense (forLines_kept Words (fun map line code map' left words pass => ?_) run .nil)
    obtain ⟨_, read, same⟩ := map_eq_ok.mp pass
    exact (Prod.mk.inj same).1 ▸ readImport_words words read
  · rw [parseType, table_run run]
    refine tableOf_dense (forLines_kept Words (fun map line code map' left words pass => ?_) run .nil)
    obtain ⟨_, read, same⟩ := map_eq_ok.mp pass
    exact (Prod.mk.inj same).1 ▸ readUsingType_words words read
  · rw [parseFunction, table_run run]
    exact tableOf_dense (forLines_kept Words (fun map line code map' left words => readFunction_words words) run .nil)
  · rw [run, ok_bind]
    exact tableOf_dense (readArguments_words .nil run)

theorem sections_dense_types :
    DenseTable [(1, ⟨0, ['7']⟩), (0, ⟨2, ['5']⟩), (1, ⟨0, ['6']⟩)]
      ((parseType plainLibrary "1:0:6\n0:2:5\n1:0:7\n$end\n".toList).map Prod.fst) :=
  ((@sections_dense plainLibrary [] []).2.2.1 _ _ [] (by decide +kernel)).mpr ⟨by decide, by decide⟩

/-- The last 64-bit value as the only index: the table has no element at all. -/
theorem parseType_lastIndex :
    let code := "18446744073709551615:0:5\n$end\n".toList
    forLines END (.ofLine readUsingType) [] code = .ok ([(2 ^ 64 - 1, ⟨0, ['5']⟩)], []) ∧
      parseType plainLibrary code = .ok ([], []) ∧
      ¬DenseTable [(2 ^ 64 - 1, ⟨0, ['5']⟩)] ((parseType plainLibrary code).map Prod.fst) := by
  have returned : parseType plainLibrary "18446744073709551615:0:5\n$end\n".toList = .ok ([], []) := by decide +kernel
  refine ⟨by decide +kernel, returned, fun right => ?_⟩
  rw [returned] at right
  refine absurd (right.sparse ?_) (by simp [Except.map])
  rintro ⟨n, dense⟩
  have last := (dense (2 ^ 64 - 1)).mp (by decide)
  exact absurd ((dense 0).mpr (by omega)) (by decide)

end Sections
end CatLa
