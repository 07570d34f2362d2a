import CatLa.Parser.Scanner

namespace CatLa
open Outcome Pattern

def END : Text := ['$', 'e', 'n', 'd']

/-- `INFO_REG` of `parse_const`. -/
def constHeader : List (Piece Char) := [digits, .literal [':'], digits, .literal [':'], .group (.single WordCharacter)]

section Parser
variable (library : StandardLibrary)

/-- The bytes from the cursor on. The string has a NUL behind its last one. -/
def readBytes (byteSize : Nat) (code : Text) : Except ParseFailure Text :=
  if byteSize ≤ code.length + 1 then .ok ((code ++ ['\x00']).take byteSize) else .error .undefined

/-- The value that is allocated for an entry of this type. -/
def readValue (type : Char) (line : Text) : Except ParseFailure ConstPayload :=
  if type = 's' then .ok (.string line)
  else if type = 'i' then (stoll line).map .integer
  else if type = 'f' then (library.stod line).map .double
  else .error .parseException

/-- An entry of `parse_const`, from the cursor before its header to the cursor
behind its line break. Past the end of the code the next pass reads outside of
the string. -/
def readConst (code : Text) : Except ParseFailure ((Nat × ConstValue) × Text) :=
  let (line, left) := moveUntil ['#', '\n', '\x00'] code
  match fullMatch constHeader line with
  | some [indexText, sizeText, [type]] => do
    let index ← stoull indexText
    let byteSize ← stoull sizeText
    if left.length ≤ 1 then .error .parseException
    else
      let bytes ← readBytes byteSize (left.drop 1)
      let payload ← readValue library type bytes
      match left.drop (1 + byteSize) with
      | [] => .error .undefined
      | _ :: code => .ok ((index, ⟨byteSize, payload⟩), code)
  | _ => .error .parseException

variable {library}

theorem readConst_length {code left : Text} {entry : Nat × ConstValue} (run : readConst library code = .ok (entry, left)) :
    left.length < code.length := by
  have bound := moveUntil_length ['#', '\n', '\x00'] code
  unfold readConst at run
  dsimp only at run
  split at run
  · obtain ⟨index, _, run⟩ := bind_eq_ok.mp run
    obtain ⟨byteSize, _, run⟩ := bind_eq_ok.mp run
    split at run
    · exact absurd run (by simp)
    · obtain ⟨bytes, _, run⟩ := bind_eq_ok.mp run
      obtain ⟨payload, _, run⟩ := bind_eq_ok.mp run
      split at run
      · exact absurd run (by simp)
      · rename_i rest behind
        obtain ⟨_, rfl⟩ := Prod.mk.inj (Except.ok.inj run)
        have length := congrArg List.length behind
        rw [List.length_drop, List.length_cons] at length
        omega
  · exact absurd run (by simp)

variable (library)

/-- The loop of `parse_const` over the entries. -/
def readConsts (map : List (Nat × ConstValue)) (code : Text) :
    Except ParseFailure (List (Nat × ConstValue) × Text) :=
  if more : code = [] then .ok (map, [])
  else
    have _shorter := moveUntilNextLine_length more
    let next := moveUntilNextLine code
    if next.1 = END then .ok (map, next.2)
    else if next.1 = [] then readConsts map next.2
    else
      match run : readConst library code with
      | .error failure => .error failure
      | .ok (entry, left) =>
        have _shorter := readConst_length run
        readConsts (entry :: map) left
termination_by code.length

/-- `sizeof(ConstValue)`. -/
def sizeofConstValue : Nat := 24

/-- Whether element `i` of the table of the constants lies in what `calloc` has
returned: the number of bytes wraps, and a null pointer is not looked for. -/
def elementProvided (indices : List Nat) (i : Nat) : Bool :=
  let bytes := sizeofConstValue * tableLength indices % 2 ^ 64
  tableLength indices ≤ indices.dedup.length || (library.provides bytes && sizeofConstValue * (i + 1) ≤ bytes)

/-- The table of the constants, which is written element by element. -/
def constTableOf (map : List (Nat × ConstValue)) : Except ParseFailure (List ConstValue) :=
  (List.range (tableLength (map.map Prod.fst))).mapM fun i =>
    match map.lookup i with
    | some value => if elementProvided library (map.map Prod.fst) i then .ok value else .error .undefined
    | none => .error .parseException

/-- `parse_const`. -/
def parseConst (code : Text) : Except ParseFailure (List ConstValue × Text) := do
  let (map, code) ← readConsts library [] code
  let constValues ← constTableOf library map
  .ok (constValues, code)

theorem constTableOf_perm {map : List (Nat × ConstValue)} {values : List ConstValue} (fits : values.length < 2 ^ 64)
    (entries : map.Perm (values.zipIdx.map Prod.swap)) : constTableOf library map = .ok values := by
  obtain ⟨length, few⟩ := tableLength_range fits (keys_of_perm entries)
  rw [constTableOf, length]
  refine Outcome.mapM_range fun i value at_i => ?_
  have provided : elementProvided library (map.map Prod.fst) i = true := by
    rw [elementProvided, decide_eq_true few, Bool.true_or]
  rw [lookup_of_perm entries at_i]
  exact if_pos provided

end Parser

/-- One pass of the loop. -/
theorem readConsts_pass {library : StandardLibrary} {map : List (Nat × ConstValue)} {code line left : Text} (more : code ≠ [])
    (next : moveUntilNextLine code = (line, left)) :
    readConsts library map code =
      if line = END then .ok (map, left)
      else if line = [] then readConsts library map left
      else readConst library code >>= fun result => readConsts library (result.1 :: map) result.2 := by
  rw [readConsts]
  simp only [dif_neg more, next]
  split
  · rfl
  · split
    · rfl
    · split <;> rename_i run <;> rw [run] <;> rfl

theorem readConsts_length {library : StandardLibrary} {map map' : List (Nat × ConstValue)}
    {code left : Text} (run : readConsts library map code = .ok (map', left)) : left.length ≤ code.length := by
  induction length : code.length using Nat.strongRecOn generalizing map code with
  | _ n ih =>
    by_cases more : code = []
    · rw [readConsts, dif_pos more] at run
      rw [← (Prod.mk.inj (Except.ok.inj run)).2]
      exact Nat.zero_le _
    · have shorter := moveUntilNextLine_length more
      obtain ⟨line, behind, next⟩ : ∃ line behind, moveUntilNextLine code = (line, behind) := ⟨_, _, rfl⟩
      rw [next] at shorter
      dsimp only at shorter
      rw [readConsts_pass more next] at run
      split at run
      · rw [← (Prod.mk.inj (Except.ok.inj run)).2]
        omega
      · split at run
        · have later := ih behind.length (by omega) run rfl
          omega
        · obtain ⟨⟨entry, code'⟩, read, run⟩ := bind_eq_ok.mp run
          have shorter := readConst_length read
          have later := ih code'.length (by omega) run rfl
          omega

theorem parseConst_length {library : StandardLibrary} {constValues : List ConstValue}
    {code left : Text} (run : parseConst library code = .ok (constValues, left)) : left.length ≤ code.length := by
  obtain ⟨⟨map, code'⟩, read, run⟩ := bind_eq_ok.mp run
  obtain ⟨values, _, same⟩ := bind_eq_ok.mp run
  rw [← (Prod.mk.inj (Except.ok.inj same)).2]
  exact readConsts_length read

/-- A constant that has a text. -/
inductive Constant
  | string (bytes : Text)
  | integer (value : BitVec 64)
  deriving DecidableEq

namespace Constant

def type : Constant → Char
  | string _ => 's'
  | integer _ => 'i'

def text : Constant → Text
  | string bytes => bytes
  | integer value => decimal value.toInt

/-- What the constant is in the table of the module. -/
def value (constant : Constant) : ConstValue :=
  { byteSize := constant.text.length
    payload :=
      match constant with
      | string bytes => .string bytes
      | integer value => .integer value.toInt }

end Constant

/-- The empty lines before a line, each with the spaces in it, and the spaces
that the line begins with. -/
structure Layout where
  emptyLines : List Nat
  indent : Nat

def Layout.print (layout : Layout) : Text :=
  layout.emptyLines.flatMap (fun n => spaces n ++ ['\n']) ++ spaces layout.indent

structure ConstEntry where
  layout : Layout
  index : Nat
  constant : Constant

/-- `index:size:type` -/
def ConstEntry.header (entry : ConstEntry) : Text :=
  numeral entry.index ++ ':' :: (numeral entry.constant.text.length ++ ':' :: [entry.constant.type])

def ConstEntry.print (entry : ConstEntry) : Text :=
  entry.layout.print ++ (entry.header ++ '#' :: (entry.constant.text ++ ['\n']))

/-- The entries of a `$const` section, and the `$end` behind them. -/
def printConsts (entries : List ConstEntry) (last : Layout) : Text :=
  entries.flatMap ConstEntry.print ++ (last.print ++ (END ++ ['\n']))

section RoundTrip
variable {library : StandardLibrary} {map : List (Nat × ConstValue)}

theorem readConsts_emptyLine (n : Nat) (code : Text) :
    readConsts library map (spaces n ++ '\n' :: code) = readConsts library map code := by
  rw [readConsts_pass (by simp) (moveUntilNextLine_line (not_mem_spaces (by decide) n) code), filter_spaces,
    if_neg (by decide), if_pos rfl]

theorem readConsts_emptyLines (emptyLines : List Nat) (code : Text) :
    readConsts library map (emptyLines.flatMap (fun n => spaces n ++ ['\n']) ++ code) = readConsts library map code := by
  induction emptyLines with
  | nil => rfl
  | cons n emptyLines ih =>
    rw [List.flatMap_cons, List.append_assoc, List.append_assoc, List.singleton_append, readConsts_emptyLine, ih]

theorem readConsts_end (n : Nat) (code : Text) :
    readConsts library map (spaces n ++ (END ++ '\n' :: code)) = .ok (map, code) := by
  have oneLine : '\n' ∉ spaces n ++ END := by
    rw [List.mem_append]
    exact not_or.mpr ⟨not_mem_spaces (by decide) n, by decide⟩
  have line : (spaces n ++ END).filter (· ≠ ' ') = END := by
    rw [List.filter_append, filter_spaces]
    decide
  rw [← List.append_assoc, readConsts_pass (by simp) (moveUntilNextLine_line oneLine code), line, if_pos rfl]

theorem header_letters (entry : ConstEntry) {c : Char} (member : c ∈ entry.header) :
    Digit c = true ∨ c = ':' ∨ c = 's' ∨ c = 'i' := by
  have type : entry.constant.type = 's' ∨ entry.constant.type = 'i' := by
    cases entry.constant with
    | string => exact .inl rfl
    | integer => exact .inr rfl
  simp only [ConstEntry.header, List.mem_append, List.mem_cons, List.not_mem_nil, or_false] at member
  rcases member with number | rfl | number | rfl | rfl
  · exact .inl (digit_numeral number)
  · exact .inr (.inl rfl)
  · exact .inl (digit_numeral number)
  · exact .inr (.inl rfl)
  · exact .inr (.inr type)

theorem header_ne (entry : ConstEntry) {c other : Char}
    (plain : Digit other = false ∧ other ≠ ':' ∧ other ≠ 's' ∧ other ≠ 'i') (member : c ∈ entry.header) : c ≠ other := by
  rcases header_letters entry member with digit | rfl | rfl | rfl
  · exact digit_ne digit plain.1
  · exact plain.2.1.symm
  · exact plain.2.2.1.symm
  · exact plain.2.2.2.symm

theorem constHeader_match (entry : ConstEntry) :
    fullMatch constHeader entry.header =
      some [numeral entry.index, numeral entry.constant.text.length, [entry.constant.type]] := by
  have letter : WordCharacter entry.constant.type = true := by
    cases entry.constant <;> rfl
  have number (n : Nat) : ∀ c ∈ numeral n, Digit c = true := fun c member => digit_numeral member
  rw [constHeader, ConstEntry.header, digits, fullMatch_repeated_literal (number _) (numeral_length _) (by decide),
    fullMatch_literal_cons, fullMatch_literal_nil,
    fullMatch_repeated_literal (number _) (numeral_length _) (by decide), fullMatch_literal_cons, fullMatch_literal_nil,
    fullMatch_single letter]
  rfl

theorem readValue_text (constant : Constant) : readValue library constant.type constant.text = .ok constant.value.payload := by
  cases constant with
  | string bytes => rfl
  | integer value =>
    rw [Constant.type, Constant.text, readValue, if_neg (by decide), if_pos rfl,
      stoll_decimal (BitVec.le_toInt value) BitVec.toInt_lt]
    rfl

theorem readConst_print (library : StandardLibrary) (entry : ConstEntry) (indent : Nat) (code : Text)
    (index : entry.index < 2 ^ 64) (size : entry.constant.text.length < 2 ^ 64) :
    readConst library (spaces indent ++ (entry.header ++ '#' :: (entry.constant.text ++ '\n' :: code))) =
      .ok ((entry.index, entry.constant.value), code) := by
  have header : (spaces indent ++ entry.header).filter (· ≠ ' ') = entry.header := by
    rw [List.filter_append, filter_spaces, List.nil_append, List.filter_eq_self]
    intro c member
    exact decide_eq_true (header_ne entry (by decide) member)
  have stops : ∀ c ∈ spaces indent ++ entry.header, c ∉ ['#', '\n', '\x00'] := by
    intro c member stop
    have plain : c ≠ ' ' ∧ c ∉ entry.header := by
      simp only [List.mem_cons, List.not_mem_nil, or_false] at stop
      rcases stop with rfl | rfl | rfl
      · exact ⟨by decide, fun inside => header_ne entry (by decide) inside rfl⟩
      · exact ⟨by decide, fun inside => header_ne entry (by decide) inside rfl⟩
      · exact ⟨by decide, fun inside => header_ne entry (by decide) inside rfl⟩
    exact (List.mem_append.mp member).elim (not_mem_spaces plain.1 indent) plain.2
  rw [← List.append_assoc, readConst, moveUntil_found (by decide) stops, header]
  dsimp only
  rw [constHeader_match]
  dsimp only
  rw [stoull_numeral index, stoull_numeral size]
  have bytes : readBytes entry.constant.text.length (entry.constant.text ++ '\n' :: code) = .ok entry.constant.text := by
    rw [readBytes, if_pos (by simp; omega), List.append_assoc, List.take_left]
  have behind : ('#' :: (entry.constant.text ++ '\n' :: code)).drop (1 + entry.constant.text.length) = '\n' :: code := by
    rw [Nat.add_comm, List.drop_succ_cons, List.drop_left]
  simp only [ok_bind]
  rw [if_neg (by simp), List.drop_succ_cons, List.drop_zero, bytes, ok_bind, readValue_text, ok_bind, behind]
  rfl

theorem readConsts_entry (entry : ConstEntry) (code : Text) (index : entry.index < 2 ^ 64)
    (size : entry.constant.text.length < 2 ^ 64) :
    readConsts library map (entry.print ++ code) = readConsts library ((entry.index, entry.constant.value) :: map) code := by
  have read := readConst_print library entry entry.layout.indent code index size
  have shape : entry.print ++ code = entry.layout.emptyLines.flatMap (fun n => spaces n ++ ['\n']) ++
      (spaces entry.layout.indent ++ (entry.header ++ '#' :: (entry.constant.text ++ '\n' :: code))) := by
    simp [ConstEntry.print, Layout.print]
  rw [shape, readConsts_emptyLines]
  generalize '#' :: (entry.constant.text ++ '\n' :: code) = behind at read ⊢
  obtain ⟨first, more, start⟩ := List.exists_cons_of_ne_nil (numeral_ne_nil entry.index)
  have digit : Digit first = true := digit_numeral (start ▸ List.mem_cons_self)
  have begins : entry.header ++ behind =
      first :: (more ++ ':' :: (numeral entry.constant.text.length ++ [':', entry.constant.type]) ++ behind) := by
    rw [ConstEntry.header, start, List.cons_append, List.cons_append]
  -- the line that is peeked at is neither empty nor the end
  obtain ⟨rest, left, line⟩ := moveUntilNextLine_first entry.layout.indent (digit_ne digit (by decide))
    (digit_ne digit (by decide)) (more ++ ':' :: (numeral entry.constant.text.length ++ [':', entry.constant.type]) ++ behind)
  rw [← begins] at line
  have open_line : first :: rest ≠ END := fun same =>
    digit_ne (b := '$') digit (by decide) (List.cons.inj same).1
  rw [readConsts_pass (by simp [ConstEntry.header]) line, if_neg open_line, if_neg (by simp), read, ok_bind]

theorem readConsts_entries (entries : List ConstEntry) (code : Text) (index : ∀ entry ∈ entries, entry.index < 2 ^ 64)
    (size : ∀ entry ∈ entries, entry.constant.text.length < 2 ^ 64) :
    readConsts library map (entries.flatMap ConstEntry.print ++ code) =
      readConsts library ((entries.map fun entry => (entry.index, entry.constant.value)).reverse ++ map) code := by
  induction entries generalizing map with
  | nil => rfl
  | cons entry entries ih =>
    rw [List.flatMap_cons, List.append_assoc,
      readConsts_entry entry _ (index entry List.mem_cons_self) (size entry List.mem_cons_self),
      ih (fun e member => index e (List.mem_cons_of_mem entry member)) fun e member =>
        size e (List.mem_cons_of_mem entry member), List.map_cons, List.reverse_cons, List.append_assoc]
    rfl

theorem print_length (entry : ConstEntry) : entry.constant.text.length + 1 ≤ entry.print.length := by
  simp only [ConstEntry.print, List.length_append, List.length_cons, List.length_nil]
  omega

theorem entries_length (entries : List ConstEntry) :
    entries.length ≤ (entries.flatMap ConstEntry.print).length ∧
      ∀ entry ∈ entries, entry.constant.text.length ≤ (entries.flatMap ConstEntry.print).length := by
  induction entries with
  | nil => simp
  | cons first entries ih =>
    have length := print_length first
    simp only [List.flatMap_cons, List.length_append, List.length_cons]
    refine ⟨by omega, fun entry member => ?_⟩
    rcases List.mem_cons.mp member with rfl | later
    · omega
    · have := ih.2 entry later
      omega

/-- Constants survive their text: `parse_const` on a printed section, whose
length is a `size_t`, returns them at their indices and stops behind it. -/
theorem parseConst_printConsts (library : StandardLibrary) (constants : List Constant)
    (entries : List ConstEntry) (last : Layout) (code : Text)
    (arranged : (entries.map fun entry => (entry.index, entry.constant)).Perm (constants.zipIdx.map Prod.swap))
    (fits : (printConsts entries last ++ code).length < 2 ^ 64) :
    parseConst library (printConsts entries last ++ code) = .ok (constants.map Constant.value, code) := by
  have bounds := entries_length entries
  have total : (entries.flatMap ConstEntry.print).length < 2 ^ 64 := by
    rw [printConsts, List.length_append, List.length_append] at fits
    omega
  have count : entries.length = constants.length := by simpa using arranged.length_eq
  have index : ∀ entry ∈ entries, entry.index < 2 ^ 64 := by
    intro entry member
    have entered := arranged.subset (List.mem_map_of_mem (f := fun entry => (entry.index, entry.constant)) member)
    obtain ⟨⟨constant, i⟩, indexed, same⟩ := List.mem_map.mp entered
    have bound := (List.mem_zipIdx indexed).2.1
    have here : i = entry.index := (Prod.mk.inj same).1
    omega
  have size : ∀ entry ∈ entries, entry.constant.text.length < 2 ^ 64 := fun entry member => (bounds.2 entry member).trans_lt total
  have table := constTableOf_perm library (by rw [List.length_map]; omega) (entered_perm Constant.value arranged)
  rw [List.map_map] at table
  have shape : printConsts entries last ++ code = entries.flatMap ConstEntry.print ++
      (last.emptyLines.flatMap (fun n => spaces n ++ ['\n']) ++ (spaces last.indent ++ (END ++ '\n' :: code))) := by
    simp [printConsts, Layout.print]
  rw [parseConst, shape, readConsts_entries entries _ index size, readConsts_emptyLines, readConsts_end, ok_bind,
    List.append_nil]
  exact congrArg (· >>= _) table

/-- A string that is made of the delimiters, entered after the number that
follows it. -/
theorem parseConst_printConsts_delimiters :
    parseConst plainLibrary
        (printConsts [⟨⟨[0, 2], 2⟩, 1, .integer (-20)⟩, ⟨⟨[], 1⟩, 0, .string "# \n$end\n\x00:".toList⟩] ⟨[], 0⟩ ++ ['x']) =
      .ok ([⟨10, .string "# \n$end\n\x00:".toList⟩, ⟨3, .integer (-20)⟩], ['x']) :=
  parseConst_printConsts _ [.string "# \n$end\n\x00:".toList, .integer (-20)] _ _ _ (by decide +kernel) (by decide +kernel)

end RoundTrip

end CatLa
