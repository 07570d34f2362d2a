import Mathlib.Algebra.Group.Int.Defs
import Mathlib.Algebra.Group.Nat.Defs
import Mathlib.Data.List.Dedup
import CatLa.Foundations.Outcome
import CatLa.Foundations.Pattern
import CatLa.Vm.Bytecode

namespace CatLa
open Pattern

/-- How a call of the parser ends without a result. -/
inductive ParseFailure
  | parseException
  /-- `std::out_of_range`, of `stoull` and its siblings. -/
  | outOfRange
  /-- `std::invalid_argument`, of the same. -/
  | invalidArgument
  /-- `std::length_error` or `std::bad_alloc`, of a vector. -/
  | badAlloc
  /-- A read or a write outside of an object. -/
  | undefined
  deriving DecidableEq, Repr

/-- What the parser uses of the C++ library and cannot know: what `std::stod`
makes of a text, and whether there is memory for a table of so many bytes. No
array is larger than the largest difference of two pointers. -/
structure StandardLibrary where
  stod : Text → Except ParseFailure (BitVec 64)
  provides : Nat → Bool
  bounded : ∀ {bytes : Nat}, provides bytes = true → bytes < 2 ^ 63

/-- A library that takes no text for a floating-point number, on a machine with
47-bit addresses. -/
def plainLibrary : StandardLibrary where
  stod _ := .error .invalidArgument
  provides bytes := bytes < 2 ^ 47
  bounded fits := (of_decide_eq_true fits).trans (by decide)

def Digit (c : Char) : Bool := c.isDigit

/-- `\w`. -/
def WordCharacter (c : Char) : Bool := c.isAlphanum || c == '_'

/-- The dot of a regular expression. -/
def LineCharacter (c : Char) : Bool := c != '\n' && c != '\r'

/-- `(\d+)` -/
def digits : Piece Char := .group (.repeated 1 Digit)

/-- `(\w+)` -/
def wordCharacters : Piece Char := .group (.repeated 1 WordCharacter)

/-- `move_until_next_line`. A cursor is the code from its position on. -/
def moveUntilNextLine (code : Text) : Text × Text :=
  ((code.takeWhile (· ≠ '\n')).filter (· ≠ ' '), (code.dropWhile (· ≠ '\n')).drop 1)

/-- `move_until`. At the end of the code the cursor is not written back. -/
def moveUntil (chars : List Char) (code : Text) : Text × Text :=
  let left := code.dropWhile (· ∉ chars)
  ((code.takeWhile (· ∉ chars)).filter (· ≠ ' '), if left = [] then code else left)

/-- The tokens of a `sregex_token_iterator` between the commas. The empty text
after a last comma is not one. -/
def commaTokens (text : Text) : List Text :=
  let tokens := text.splitOn ','
  if 1 < tokens.length ∧ tokens.getLast? = some [] then tokens.dropLast else tokens

/-- `isspace`. -/
def isSpace (c : Char) : Bool := c ∈ [' ', '\t', '\n', '\x0b', '\x0c', '\r']

/-- The sign and the digits that `strtoull` and `strtoll` read. -/
def readNumeral (text : Text) : Except ParseFailure (Bool × Nat) :=
  let text := text.dropWhile isSpace
  let negative := text.head? = some '-'
  let number := (if negative ∨ text.head? = some '+' then text.drop 1 else text).takeWhile Digit
  if number = [] then .error .invalidArgument else .ok (negative, Nat.ofDigitChars 10 number 0)

/-- `stoull`. A negative number wraps around. -/
def stoull (text : Text) : Except ParseFailure Nat := do
  let (negative, magnitude) ← readNumeral text
  if 2 ^ 64 ≤ magnitude then .error .outOfRange
  else .ok (if negative then (2 ^ 64 - magnitude) % 2 ^ 64 else magnitude)

/-- `stoll`. -/
def stoll (text : Text) : Except ParseFailure Int := do
  let (negative, magnitude) ← readNumeral text
  let value : Int := if negative then -magnitude else magnitude
  if value < -2 ^ 63 ∨ 2 ^ 63 ≤ value then .error .outOfRange else .ok value

/-- `max_index + 1`, or 0 where there is no entry. -/
def tableLength (indices : List Nat) : Nat :=
  match indices.max? with
  | none => 0
  | some maxIndex => (maxIndex + 1) % 2 ^ 64

/-- Whether a vector for the entries with these indices is constructed. Each index
is in memory, in a node of the map that is larger than an element of the vector,
so that memory for as many elements is not in question. -/
def vectorProvided (library : StandardLibrary) (sizeofElement : Nat) (indices : List Nat) : Bool :=
  tableLength indices ≤ indices.dedup.length || library.provides (sizeofElement * tableLength indices)

/-- What `map[0], map[1], ..` hold up to the largest key of an
`unordered_map<size_t, π>`, in a vector; the newest entry of `map` is the first. -/
def tableOf {π : Type} (library : StandardLibrary) (sizeofElement : Nat) (map : List (Nat × π)) :
    Except ParseFailure (List π) :=
  if vectorProvided library sizeofElement (map.map Prod.fst) then
    (List.range (tableLength (map.map Prod.fst))).mapM fun i =>
      match map.lookup i with
      | some value => .ok value
      | none => .error .parseException
  else .error .badAlloc

/-- A number in base 10. -/
def numeral (n : Nat) : Text := Nat.toDigits 10 n

def decimal (value : Int) : Text := if value < 0 then '-' :: numeral value.natAbs else numeral value.natAbs

theorem moveUntilNextLine_line {raw : Text} (oneLine : '\n' ∉ raw) (rest : Text) :
    moveUntilNextLine (raw ++ '\n' :: rest) = (raw.filter (· ≠ ' '), rest) := by
  have inside : ∀ c ∈ raw, decide (c ≠ '\n') = true := fun c member => by
    simpa using fun same : c = '\n' => oneLine (same ▸ member)
  rw [moveUntilNextLine, List.takeWhile_append_of_pos inside, List.dropWhile_append_of_pos inside]
  simp

theorem moveUntilNextLine_last {raw : Text} (oneLine : '\n' ∉ raw) :
    moveUntilNextLine raw = (raw.filter (· ≠ ' '), []) := by
  have inside : ∀ c ∈ raw, decide (c ≠ '\n') = true := fun c member => by
    simpa using fun same : c = '\n' => oneLine (same ▸ member)
  rw [moveUntilNextLine, List.takeWhile_eq_self_iff.mpr inside, List.dropWhile_eq_nil_iff.mpr inside]
  rfl

theorem moveUntilNextLine_length {code : Text} (more : code ≠ []) :
    (moveUntilNextLine code).2.length < code.length := by
  have split := congrArg List.length (List.takeWhile_append_dropWhile (p := (decide <| · ≠ '\n')) (l := code))
  have positive := List.length_pos_iff.mpr more
  rw [List.length_append] at split
  simp only [moveUntilNextLine, List.length_drop]
  omega

def spaces (n : Nat) : Text := List.replicate n ' '

@[simp] theorem filter_spaces (n : Nat) : (spaces n).filter (· ≠ ' ') = [] := by
  simp [spaces]

theorem not_mem_spaces {c : Char} (other : c ≠ ' ') (n : Nat) : c ∉ spaces n := fun member =>
  other (List.eq_of_mem_replicate member)

theorem moveUntilNextLine_first {first : Char} (n : Nat) (visible : first ≠ ' ') (sameLine : first ≠ '\n') (more : Text) :
    ∃ rest left, moveUntilNextLine (spaces n ++ first :: more) = (first :: rest, left) := by
  have inside : ∀ c ∈ spaces n, decide (c ≠ '\n') = true := fun c member =>
    decide_eq_true fun same => not_mem_spaces (by decide) n (same ▸ member)
  rw [moveUntilNextLine, List.takeWhile_append_of_pos inside, List.filter_append, filter_spaces, List.nil_append,
    List.takeWhile_cons_of_pos (by simp [sameLine]), List.filter_cons_of_pos (by simp [visible])]
  exact ⟨_, _, rfl⟩

theorem moveUntil_found {chars : List Char} {word : Text} {c : Char} (stop : c ∈ chars)
    (before : ∀ x ∈ word, x ∉ chars) (rest : Text) :
    moveUntil chars (word ++ c :: rest) = (word.filter (· ≠ ' '), c :: rest) := by
  have inside : ∀ x ∈ word, decide (x ∉ chars) = true := fun x member => by simpa using before x member
  rw [moveUntil, List.takeWhile_append_of_pos inside, List.dropWhile_append_of_pos inside]
  simp [stop]

theorem moveUntil_length (chars : List Char) (code : Text) : (moveUntil chars code).2.length ≤ code.length := by
  rw [moveUntil]
  dsimp only
  split
  · exact le_rfl
  · exact (List.dropWhile_suffix _).length_le

section Numerals

theorem digit_numeral {n : Nat} {c : Char} (member : c ∈ numeral n) : Digit c = true :=
  Nat.isDigit_of_mem_toDigits (by decide) (by decide) member

theorem numeral_ne_nil (n : Nat) : numeral n ≠ [] := Nat.toDigits_ne_nil

theorem numeral_length (n : Nat) : 1 ≤ (numeral n).length := Nat.length_toDigits_pos

theorem not_mem_numeral {c : Char} (other : Digit c = false) (n : Nat) : c ∉ numeral n := fun member => by
  simp [digit_numeral member] at other

theorem digit_ne {a b : Char} (digit : Digit a = true) (plain : Digit b = false) : a ≠ b := fun same => by
  rw [same, plain] at digit
  exact absurd digit (by simp)

theorem readNumeral_decimal (value : Int) : readNumeral (decimal value) = .ok (decide (value < 0), value.natAbs) := by
  have takes (n : Nat) : (numeral n).takeWhile Digit = numeral n :=
    List.takeWhile_eq_self_iff.mpr fun c member => digit_numeral member
  obtain ⟨first, more, start⟩ := List.exists_cons_of_ne_nil (numeral_ne_nil value.natAbs)
  have first_digit : Digit first = true := digit_numeral (start ▸ List.mem_cons_self)
  have value_numeral : Nat.ofDigitChars 10 (numeral value.natAbs) 0 = value.natAbs := Nat.ofDigitChars_ten_toDigits
  by_cases negative : value < 0
  · have skip : (decimal value).dropWhile isSpace = '-' :: numeral value.natAbs := by
      rw [decimal, if_pos negative, List.dropWhile_cons_of_neg (by decide)]
    simp only [readNumeral, skip, List.head?_cons, true_or, if_true, List.drop_succ_cons, List.drop_zero, takes,
      numeral_ne_nil, if_false, value_numeral, negative, decide_true]
  · have space : isSpace first = false := by
      by_contra white
      simp only [isSpace, decide_eq_true_eq, Bool.not_eq_false, List.mem_cons, List.not_mem_nil, or_false] at white
      rcases white with rfl | rfl | rfl | rfl | rfl | rfl <;> exact absurd first_digit (by decide)
    have minus : first ≠ '-' := fun same => absurd first_digit (by rw [same]; decide)
    have plus : first ≠ '+' := fun same => absurd first_digit (by rw [same]; decide)
    have skip : (decimal value).dropWhile isSpace = numeral value.natAbs := by
      rw [decimal, if_neg negative, start, List.dropWhile_cons_of_neg (by simp [space])]
    have head : (numeral value.natAbs).head? = some first := by rw [start, List.head?_cons]
    simp only [readNumeral, skip, head, Option.some.injEq, minus, plus, or_self, if_false, takes, numeral_ne_nil,
      value_numeral, negative, decide_false]

theorem stoull_numeral {n : Nat} (fits : n < 2 ^ 64) : stoull (numeral n) = .ok n := by
  have read := readNumeral_decimal n
  rw [decimal, if_neg (by omega), Int.natAbs_natCast] at read
  rw [stoull, read]
  simp only [bind, Except.bind]
  rw [if_neg (by omega), if_neg (by simp)]

theorem stoll_decimal {value : Int} (lower : -2 ^ 63 ≤ value) (upper : value < 2 ^ 63) :
    stoll (decimal value) = .ok value := by
  rw [stoll, readNumeral_decimal]
  simp only [bind, Except.bind, decide_eq_true_eq]
  have same : (if value < 0 then -(value.natAbs : Int) else value.natAbs) = value := by split <;> omega
  rw [same, if_neg (by omega)]

end Numerals

theorem commaTokens_intercalate {tokens : List Text} (some : tokens ≠ []) (plain : ∀ token ∈ tokens, ',' ∉ token)
    (last : ∀ token ∈ tokens, token ≠ []) : commaTokens ([','].intercalate tokens) = tokens := by
  rw [commaTokens, List.splitOn_intercalate ',' plain some]
  exact if_neg fun trailing => last [] (List.mem_of_getLast? trailing.2) rfl

theorem mem_intercalate_comma {c : Char} {tokens : List Text} (member : c ∈ [','].intercalate tokens) :
    c = ',' ∨ ∃ token ∈ tokens, c ∈ token := by
  induction tokens with
  | nil => exact absurd member (by simp)
  | cons token tokens ih =>
    cases tokens with
    | nil =>
      rw [List.intercalate_singleton] at member
      exact .inr ⟨token, List.mem_cons_self, member⟩
    | cons second tokens =>
      rw [List.intercalate_cons_cons, List.mem_append, List.mem_append, List.mem_singleton] at member
      rcases member with (here | comma) | later
      · exact .inr ⟨token, List.mem_cons_self, here⟩
      · exact .inl comma
      · refine (ih later).imp_right ?_
        rintro ⟨other, known, here⟩
        exact ⟨other, List.mem_cons_of_mem token known, here⟩

section Tables
variable {π : Type}

theorem lookup_of_mem {map : List (Nat × π)} (keys : (map.map Prod.fst).Nodup) {i : Nat} {value : π}
    (member : (i, value) ∈ map) : map.lookup i = some value := by
  induction map with
  | nil => simp at member
  | cons entry map ih =>
    obtain ⟨key, first⟩ := entry
    rw [List.map_cons, List.nodup_cons] at keys
    rcases List.mem_cons.mp member with here | later
    · obtain ⟨rfl, rfl⟩ := Prod.mk.inj here
      exact List.lookup_cons_self
    · have different : (i == key) = false := by
        rw [beq_eq_false_iff_ne]
        rintro rfl
        exact keys.1 (List.mem_map.mpr ⟨(i, value), later, rfl⟩)
      rw [List.lookup_cons, different]
      exact ih keys.2 later

theorem isSome_lookup {map : List (Nat × π)} {i : Nat} : (map.lookup i).isSome ↔ i ∈ map.map Prod.fst := by
  induction map with
  | nil => simp
  | cons entry map ih =>
    obtain ⟨key, value⟩ := entry
    by_cases here : i = key
    · simp [here]
    · rw [List.lookup_cons, beq_eq_false_iff_ne.mpr here]
      simp [here, ih]

/-- The length of the table of the indices `0 .. n-1`. -/
theorem tableLength_range {indices : List Nat} {n : Nat} (fits : n < 2 ^ 64) (keys : indices.Perm (List.range n)) :
    tableLength indices = n ∧ tableLength indices ≤ indices.dedup.length := by
  have length : tableLength indices = n := by
    unfold tableLength
    cases largest : indices.max? with
    | none =>
      have length := keys.length_eq
      rw [List.max?_eq_none_iff.mp largest, List.length_range, List.length_nil] at length
      exact length
    | some maxIndex =>
      obtain ⟨member, upper⟩ := List.max?_eq_some_iff.mp largest
      have below : maxIndex < n := List.mem_range.mp (keys.mem_iff.mp member)
      have above : n - 1 ≤ maxIndex := upper _ (keys.mem_iff.mpr (List.mem_range.mpr (by omega)))
      have last : maxIndex + 1 = n := by omega
      dsimp only
      rw [last, Nat.mod_eq_of_lt fits]
  refine ⟨length, ?_⟩
  rw [(keys.nodup_iff.mpr List.nodup_range).dedup, keys.length_eq, List.length_range, length]

theorem keys_of_perm {map : List (Nat × π)} {values : List π} (entries : map.Perm (values.zipIdx.map Prod.swap)) :
    (map.map Prod.fst).Perm (List.range values.length) := by
  refine (entries.map Prod.fst).trans (.of_eq ?_)
  rw [List.map_map, List.range_eq_range']
  exact List.zipIdx_map_snd 0 values

theorem lookup_of_perm {map : List (Nat × π)} {values : List π} (entries : map.Perm (values.zipIdx.map Prod.swap)) {i : Nat}
    {value : π} (at_i : values[i]? = some value) : map.lookup i = some value := by
  have unique : (map.map Prod.fst).Nodup := (keys_of_perm entries).nodup_iff.mpr List.nodup_range
  refine lookup_of_mem unique ?_
  rw [entries.mem_iff, List.mem_map]
  exact ⟨(value, i), List.mk_mem_zipIdx_iff_getElem?.mpr at_i, rfl⟩

/-- What a map has of items that were entered in any order, the last one first. -/
theorem entered_perm {ι : Type} {items : List ι} {entered : List (Nat × ι)} (value : ι → π)
    (arranged : entered.Perm (items.zipIdx.map Prod.swap)) :
    (entered.map fun entry => (entry.1, value entry.2)).reverse.Perm ((items.map value).zipIdx.map Prod.swap) := by
  refine (List.reverse_perm _).trans ?_
  have values := arranged.map (Prod.map id value)
  rw [List.map_map] at values
  rw [List.zipIdx_map, List.map_map]
  exact values

/-- The table of a map whose keys are `0 .. n-1`, entered in any order. -/
theorem tableOf_perm {library : StandardLibrary} {sizeofElement : Nat} {map : List (Nat × π)} {values : List π}
    (fits : values.length < 2 ^ 64) (entries : map.Perm (values.zipIdx.map Prod.swap)) :
    tableOf library sizeofElement map = .ok values := by
  obtain ⟨length, few⟩ := tableLength_range fits (keys_of_perm entries)
  rw [tableOf, vectorProvided, decide_eq_true few, Bool.true_or, if_pos rfl, length]
  refine Outcome.mapM_range fun i value at_i => ?_
  rw [lookup_of_perm entries at_i]

/-- A table holds nothing but values of its map. -/
theorem mem_of_tableOf {library : StandardLibrary} {sizeofElement : Nat} {map : List (Nat × π)} {values : List π}
    (run : tableOf library sizeofElement map = .ok values) {value : π} (member : value ∈ values) : ∃ i, (i, value) ∈ map := by
  unfold tableOf at run
  split at run
  · obtain ⟨i, found⟩ := Outcome.mem_of_mapM run member
    split at found
    · rename_i known
      obtain ⟨before, after, split, -⟩ := List.lookup_eq_some_iff.mp known
      rw [← Except.ok.inj found, split]
      exact ⟨i, by simp⟩
    · exact absurd found (by simp)
  · exact absurd run (by simp)

end Tables

example : commaTokens "a,,b,".toList = [['a'], [], ['b']] := by decide +kernel

example : stoull "-5x".toList = .ok 18446744073709551611 := by decide +kernel

end CatLa
