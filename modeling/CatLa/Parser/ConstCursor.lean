import CatLa.Parser.ConstSection

namespace CatLa
open Outcome Pattern

/-- Where the cursor is before this end of the code. -/
def cursorAt (code rest : Text) : Nat := code.length - rest.length

section Cursor
variable (code : Text)

/-- `code[k]`. Behind the text stands a NUL; what is behind that is not the
parser's to read. -/
def charAt (k : Nat) : Except ParseFailure Char :=
  match code[k]? with
  | some c => .ok c
  | none => if k = code.length then .ok '\x00' else .error .undefined

variable {code}

theorem charAt_within {k : Nat} {c : Char} (read : charAt code k = .ok c) : k ≤ code.length := by
  unfold charAt at read
  split at read
  · rename_i c' here
    exact (List.getElem?_eq_some_iff.mp here).1.le
  · split at read
    · rename_i last
      exact last.le
    · exact absurd read (by simp)

theorem charAt_suffix {c : Char} {rest : Text} (suffix : c :: rest <:+ code) :
    charAt code (cursorAt code (c :: rest)) = .ok c := by
  obtain ⟨before, rfl⟩ := suffix
  simp [charAt, cursorAt]

theorem charAt_outside {k : Nat} (outside : code.length < k) : charAt code k = .error .undefined := by
  rw [charAt, List.getElem?_eq_none outside.le, if_neg (Nat.ne_of_gt outside)]

variable (code)

/-- `move_until_next_line`, with the characters that are in the line so far. -/
def moveUntilNextLineAt (position : Nat) (line : Text) : Except ParseFailure (Text × Nat) :=
  if _last : position = code.length then .ok (line, position)
  else
    match read : charAt code position with
    | .error failure => .error failure
    | .ok c =>
      have _before := charAt_within read
      if c = '\n' then .ok (line, position + 1)
      else moveUntilNextLineAt (position + 1) (if c ≠ ' ' then line ++ [c] else line)
termination_by code.length - position

/-- `move_until`; `position` is not written back before a character of `chars`
is found. -/
def moveUntilAt (chars : List Char) (position currentPosition : Nat) (word : Text) : Except ParseFailure (Text × Nat) :=
  if _last : currentPosition = code.length then .ok (word, position)
  else
    match read : charAt code currentPosition with
    | .error failure => .error failure
    | .ok c =>
      have _before := charAt_within read
      if c ∈ chars then .ok (word, currentPosition)
      else moveUntilAt chars position (currentPosition + 1) (if c ≠ ' ' then word ++ [c] else word)
termination_by code.length - currentPosition

/-- The loop over the payload of an entry. -/
def readBytesAt : Nat → Nat → Except ParseFailure Text
  | 0, _ => .ok []
  | byteSize + 1, position => do
    let c ← charAt code position
    let line ← readBytesAt byteSize (position + 1)
    .ok (c :: line)

variable {code}

theorem moveUntilNextLineAt_forward {position cp : Nat} {line line' : Text} (more : position ≠ code.length)
    (run : moveUntilNextLineAt code position line = .ok (line', cp)) : position < cp ∧ cp ≤ code.length := by
  induction left : code.length - position using Nat.strongRecOn generalizing position line with
  | _ n ih =>
    rw [moveUntilNextLineAt, dif_neg more] at run
    split at run
    · exact absurd run (by simp)
    · rename_i c read
      have before := charAt_within read
      split at run
      · obtain ⟨_, rfl⟩ := Prod.mk.inj (Except.ok.inj run)
        omega
      · by_cases last : position + 1 = code.length
        · rw [moveUntilNextLineAt, dif_pos last] at run
          obtain ⟨_, rfl⟩ := Prod.mk.inj (Except.ok.inj run)
          omega
        · have later := ih _ (by omega) last run rfl
          omega

theorem moveUntilAt_forward {chars : List Char} {position currentPosition after : Nat} {word word' : Text}
    (start : position ≤ currentPosition)
    (run : moveUntilAt code chars position currentPosition word = .ok (word', after)) : position ≤ after := by
  induction left : code.length - currentPosition using Nat.strongRecOn generalizing currentPosition word with
  | _ n ih =>
    rw [moveUntilAt] at run
    split at run
    · exact (Prod.mk.inj (Except.ok.inj run)).2.le
    · rename_i more
      split at run
      · exact absurd run (by simp)
      · rename_i c read
        have before := charAt_within read
        split at run
        · obtain ⟨_, rfl⟩ := Prod.mk.inj (Except.ok.inj run)
          exact start
        · exact ih _ (by omega) (by omega) run rfl

end Cursor

section Parser
variable (library : StandardLibrary) (code : Text)

/-- An entry of `parse_const`. -/
def readConstAt (position : Nat) : Except ParseFailure ((Nat × ConstValue) × Nat) := do
  let (line, position) ← moveUntilAt code ['#', '\n', '\x00'] position position []
  match fullMatch constHeader line with
  | some [indexText, sizeText, [type]] => do
    let index ← stoull indexText
    let byteSize ← stoull sizeText
    if code.length ≤ position + 1 then .error .parseException
    else
      let bytes ← readBytesAt code byteSize (position + 1)
      let payload ← readValue library type bytes
      .ok ((index, ⟨byteSize, payload⟩), position + 1 + byteSize + 1)
  | _ => .error .parseException

variable {library code}

theorem readConstAt_forward {position after : Nat} {entry : Nat × ConstValue}
    (run : readConstAt library code position = .ok (entry, after)) : position < after := by
  obtain ⟨⟨line, separator⟩, header, run⟩ := bind_eq_ok.mp run
  have forward := moveUntilAt_forward le_rfl header
  dsimp only at run
  split at run
  · obtain ⟨index, _, run⟩ := bind_eq_ok.mp run
    obtain ⟨byteSize, _, run⟩ := bind_eq_ok.mp run
    split at run
    · exact absurd run (by simp)
    · obtain ⟨bytes, _, run⟩ := bind_eq_ok.mp run
      obtain ⟨payload, _, run⟩ := bind_eq_ok.mp run
      obtain ⟨_, rfl⟩ := Prod.mk.inj (Except.ok.inj run)
      omega
  · exact absurd run (by simp)

variable (library code)

/-- The loop of `parse_const`, which ends where the cursor is at the end of the
code. -/
def readConstsAt (map : List (Nat × ConstValue)) (position : Nat) :
    Except ParseFailure (List (Nat × ConstValue) × Nat) :=
  if last : position = code.length then .ok (map, position)
  else
    match next : moveUntilNextLineAt code position [] with
    | .error failure => .error failure
    | .ok (line, cp) =>
      have _forward := moveUntilNextLineAt_forward last next
      if line = END then .ok (map, cp)
      else if line = [] then readConstsAt map cp
      else
        match run : readConstAt library code position with
        | .error failure => .error failure
        | .ok (entry, after) =>
          have _forward := readConstAt_forward run
          readConstsAt (entry :: map) after
termination_by code.length - position

/-- `parse_const`, read by read. -/
def parseConstAt (position : Nat) : Except ParseFailure (List ConstValue × Nat) := do
  let (map, position) ← readConstsAt library code [] position
  let constValues ← constTableOf library map
  .ok (constValues, position)

end Parser

section Suffixes
variable {code rest : Text}

theorem cursorAt_nil (code : Text) : cursorAt code [] = code.length := rfl

theorem cursorAt_more (suffix : rest <:+ code) (more : rest ≠ []) : cursorAt code rest < code.length := by
  have length := suffix.length_le
  have positive := List.length_pos_iff.mpr more
  unfold cursorAt
  omega

theorem cursorAt_tail {c : Char} (suffix : c :: rest <:+ code) : cursorAt code (c :: rest) + 1 = cursorAt code rest := by
  have length := suffix.length_le
  rw [List.length_cons] at length
  unfold cursorAt
  rw [List.length_cons]
  omega

theorem suffix_tail {c : Char} (suffix : c :: rest <:+ code) : rest <:+ code := (List.suffix_cons c rest).trans suffix

theorem moveUntilNextLine_suffix (rest : Text) : (moveUntilNextLine rest).2 <:+ rest :=
  (List.drop_suffix _ _).trans (List.dropWhile_suffix _)

theorem moveUntil_suffix (chars : List Char) (rest : Text) : (moveUntil chars rest).2 <:+ rest := by
  rw [moveUntil]
  dsimp only
  split
  · exact List.suffix_rfl
  · exact List.dropWhile_suffix _

theorem moveUntilNextLineAt_suffix (suffix : rest <:+ code) (line : Text) :
    moveUntilNextLineAt code (cursorAt code rest) line =
      .ok (line ++ (moveUntilNextLine rest).1, cursorAt code (moveUntilNextLine rest).2) := by
  induction rest generalizing line with
  | nil =>
    rw [moveUntilNextLineAt, dif_pos (cursorAt_nil code)]
    simp [moveUntilNextLine]
  | cons c rest ih =>
    rw [moveUntilNextLineAt, dif_neg (Nat.ne_of_lt (cursorAt_more suffix (by simp)))]
    have here := charAt_suffix suffix
    split
    · rename_i failed
      exact absurd (here.symm.trans failed) (by simp)
    · rename_i c' read
      obtain rfl := Except.ok.inj (here.symm.trans read)
      rw [cursorAt_tail suffix]
      by_cases newline : c = '\n'
      · simp [newline, moveUntilNextLine]
      · rw [if_neg newline, ih (suffix_tail suffix)]
        by_cases space : c = ' ' <;> simp [newline, space, moveUntilNextLine]

theorem moveUntilAt_suffix (chars : List Char) (position : Nat) (suffix : rest <:+ code) (word : Text) :
    moveUntilAt code chars position (cursorAt code rest) word =
      .ok (word ++ (moveUntil chars rest).1,
        if rest.dropWhile (· ∉ chars) = [] then position else cursorAt code (rest.dropWhile (· ∉ chars))) := by
  induction rest generalizing word with
  | nil =>
    rw [moveUntilAt, dif_pos (cursorAt_nil code)]
    simp [moveUntil]
  | cons c rest ih =>
    rw [moveUntilAt, dif_neg (Nat.ne_of_lt (cursorAt_more suffix (by simp)))]
    have here := charAt_suffix suffix
    split
    · rename_i failed
      exact absurd (here.symm.trans failed) (by simp)
    · rename_i c' read
      obtain rfl := Except.ok.inj (here.symm.trans read)
      rw [cursorAt_tail suffix]
      by_cases stop : c ∈ chars
      · simp [stop, moveUntil]
      · rw [if_neg stop, ih (suffix_tail suffix)]
        by_cases space : c = ' '
        · subst space
          simp [stop, moveUntil]
        · simp [stop, space, moveUntil]

/-- The header scan, from where the entry begins. -/
theorem moveUntilAt_eq (chars : List Char) (suffix : rest <:+ code) :
    moveUntilAt code chars (cursorAt code rest) (cursorAt code rest) [] =
      .ok ((moveUntil chars rest).1, cursorAt code (moveUntil chars rest).2) := by
  rw [moveUntilAt_suffix chars _ suffix, List.nil_append]
  unfold moveUntil
  dsimp only
  split <;> rfl

theorem readBytesAt_suffix (byteSize : Nat) (suffix : rest <:+ code) :
    readBytesAt code byteSize (cursorAt code rest) = readBytes byteSize rest := by
  induction byteSize generalizing rest with
  | zero => simp [readBytesAt, readBytes]
  | succ byteSize ih =>
    rw [readBytesAt]
    cases rest with
    | nil =>
      have last : charAt code (cursorAt code []) = .ok '\x00' := by simp [charAt, cursorAt]
      rw [last, ok_bind]
      cases byteSize with
      | zero => simp [readBytesAt, readBytes]
      | succ byteSize =>
        rw [readBytesAt, cursorAt_nil, charAt_outside (Nat.lt_succ_self _), readBytes]
        simp
    | cons c rest =>
      rw [charAt_suffix suffix, ok_bind, cursorAt_tail suffix, ih (suffix_tail suffix), readBytes, readBytes]
      by_cases fits : byteSize ≤ rest.length + 1
      · simp [fits]
      · simp [fits]

end Suffixes

section Agreement
variable {library : StandardLibrary} {code rest : Text}

theorem behind_payload {payload : Text} (suffix : payload <:+ code) (byteSize : Nat) (entry : Nat × ConstValue) :
    (match payload.drop byteSize with
      | [] => .error .undefined
      | _ :: code => .ok (entry, code) : Except ParseFailure ((Nat × ConstValue) × Text)) =
      if cursorAt code payload + byteSize + 1 ≤ code.length then .ok (entry, code.drop (cursorAt code payload + byteSize + 1))
      else .error ParseFailure.undefined := by
  obtain ⟨before, rfl⟩ := suffix
  have cursor : cursorAt (before ++ payload) payload = before.length := by simp [cursorAt]
  rw [cursor, Nat.add_assoc, List.drop_length_add_append, List.length_append]
  cases behind : payload.drop byteSize with
  | nil =>
    have short := List.drop_eq_nil_iff.mp behind
    rw [if_neg (by omega)]
  | cons c left =>
    have long : byteSize < payload.length := by
      by_contra short
      rw [List.drop_eq_nil_iff.mpr (Nat.le_of_not_lt short)] at behind
      exact absurd behind (by simp)
    have rest : payload.drop (byteSize + 1) = left := by
      rw [← List.drop_drop, behind, List.drop_one, List.tail_cons]
    rw [if_pos (by omega), rest]

/-- An entry may leave the cursor outside of the code. -/
theorem readConst_eq (suffix : rest <:+ code) :
    readConst library rest = readConstAt library code (cursorAt code rest) >>= fun read =>
      if read.2 ≤ code.length then .ok (read.1, code.drop read.2) else .error .undefined := by
  have behind := (moveUntil_suffix ['#', '\n', '\x00'] rest).trans suffix
  rw [readConst, readConstAt, moveUntilAt_eq _ suffix, ok_bind]
  generalize moveUntil ['#', '\n', '\x00'] rest = scanned at behind ⊢
  obtain ⟨line, left⟩ := scanned
  dsimp only at behind ⊢
  generalize fullMatch constHeader line = matched
  rcases matched with _ | _ | ⟨indexText, _ | ⟨sizeText, _ | ⟨_ | ⟨type, _ | _⟩, _ | _⟩⟩⟩
  case some.cons.cons.cons.cons.nil.nil =>
    dsimp only
    cases index : stoull indexText with
    | error failure => rfl
    | ok index =>
      cases size : stoull sizeText with
      | error failure => rfl
      | ok byteSize =>
        simp only [ok_bind]
        have length := behind.length_le
        by_cases nothing : left.length ≤ 1
        · have outside : code.length ≤ cursorAt code left + 1 := by
            unfold cursorAt
            omega
          rw [if_pos nothing, if_pos outside]
          rfl
        · have inside : ¬code.length ≤ cursorAt code left + 1 := by
            unfold cursorAt
            omega
          obtain ⟨c, payload, rfl⟩ : ∃ c payload, left = c :: payload := by
            cases left with
            | nil => simp at nothing
            | cons c payload => exact ⟨c, payload, rfl⟩
          rw [if_neg nothing, if_neg inside, cursorAt_tail behind, readBytesAt_suffix byteSize (suffix_tail behind),
            List.drop_one, List.tail_cons]
          cases readBytes byteSize payload with
          | error failure => rfl
          | ok bytes =>
            simp only [ok_bind]
            cases readValue library type bytes with
            | error failure => rfl
            | ok value =>
              simp only [ok_bind]
              rw [Nat.add_comm 1 byteSize, List.drop_succ_cons]
              exact behind_payload (suffix_tail behind) byteSize _
  all_goals rfl

theorem readConstsAt_pass {map : List (Nat × ConstValue)} {position cp : Nat} {line : Text} (more : position ≠ code.length)
    (next : moveUntilNextLineAt code position [] = .ok (line, cp)) :
    readConstsAt library code map position =
      if line = END then .ok (map, cp)
      else if line = [] then readConstsAt library code map cp
      else readConstAt library code position >>= fun read => readConstsAt library code (read.1 :: map) read.2 := by
  rw [readConstsAt, dif_neg more]
  split
  · rename_i failed
    exact absurd (next.symm.trans failed) (by simp)
  · rename_i line' cp' same
    obtain ⟨rfl, rfl⟩ := Prod.mk.inj (Except.ok.inj (next.symm.trans same))
    split
    · rfl
    · split
      · rfl
      · split
        · rename_i failure run
          rw [run]
          rfl
        · rename_i entry after run
          show readConstsAt library code (entry :: map) after = _
          rw [run]
          rfl

/-- The loop does not end there by itself. -/
theorem readConstsAt_outside (map : List (Nat × ConstValue)) {position : Nat} (outside : code.length < position) :
    readConstsAt library code map position = .error .undefined := by
  have scan : moveUntilNextLineAt code position [] = .error .undefined := by
    rw [moveUntilNextLineAt, dif_neg (Nat.ne_of_gt outside)]
    split
    · rename_i failed
      rw [charAt_outside outside] at failed
      rw [← Except.error.inj failed]
    · rename_i c read
      exact absurd outside (Nat.not_lt.mpr (charAt_within read))
  rw [readConstsAt, dif_neg (Nat.ne_of_gt outside)]
  split
  · rename_i failed
    rw [← Except.error.inj (scan.symm.trans failed)]
  · rename_i same
    exact absurd (scan.symm.trans same) (by simp)

theorem readConstsAt_eq (suffix : rest <:+ code) (map : List (Nat × ConstValue)) :
    readConstsAt library code map (cursorAt code rest) =
      (readConsts library map rest).map fun read => (read.1, cursorAt code read.2) := by
  induction length : rest.length using Nat.strongRecOn generalizing rest map with
  | _ n ih =>
    by_cases more : rest = []
    · subst more
      rw [readConstsAt, dif_pos (cursorAt_nil code), readConsts, dif_pos rfl]
      rfl
    · have within := cursorAt_more suffix more
      have shorter := moveUntilNextLine_length more
      have onward := (moveUntilNextLine_suffix rest).trans suffix
      have scanned := moveUntilNextLineAt_suffix suffix []
      obtain ⟨line, left, next⟩ : ∃ line left, moveUntilNextLine rest = (line, left) := ⟨_, _, rfl⟩
      rw [next, List.nil_append] at scanned
      rw [next] at shorter onward
      dsimp only at scanned shorter onward
      rw [readConsts_pass more next, readConstsAt_pass (Nat.ne_of_lt within) scanned]
      split
      · rfl
      · split
        · exact ih _ (by omega) onward map rfl
        · rw [readConst_eq suffix]
          cases read : readConstAt library code (cursorAt code rest) with
          | error failure => rfl
          | ok read' =>
            obtain ⟨entry, after⟩ := read'
            have forward := readConstAt_forward read
            simp only [ok_bind]
            by_cases inside : after ≤ code.length
            · have here : cursorAt code (code.drop after) = after := by
                unfold cursorAt
                rw [List.length_drop]
                omega
              have length' := suffix.length_le
              have smaller : (code.drop after).length < n := by
                unfold cursorAt at forward
                rw [List.length_drop]
                omega
              rw [if_pos inside, ok_bind, ← ih _ smaller (List.drop_suffix _ _) _ rfl, here]
            · rw [if_neg inside, readConstsAt_outside _ (Nat.lt_of_not_le inside)]
              rfl

/-- `parse_const` on positions is `parse_const` on the code behind them. -/
theorem parseConstAt_eq (suffix : rest <:+ code) :
    parseConstAt library code (cursorAt code rest) =
      (parseConst library rest).map fun read => (read.1, cursorAt code read.2) := by
  rw [parseConstAt, parseConst, readConstsAt_eq suffix]
  cases readConsts library [] rest with
  | error failure => rfl
  | ok read =>
    simp only [Except.map, ok_bind]
    cases constTableOf library read.1 <;> rfl

end Agreement
/-- `parse_const` returns with the cursor inside the code, or throws a
`ParseException`. -/
def EndsInside (code : Text) (run : Except ParseFailure (List ConstValue × Nat)) : Prop :=
  Ends (· = .parseException) (fun read => read.2 ≤ code.length) run

/-- The next line is neither `$end` nor empty. -/
structure EntryBegins (code : Text) : Prop where
  more : code ≠ []
  notEnd : (moveUntilNextLine code).1 ≠ END
  notEmpty : (moveUntilNextLine code).1 ≠ []

/-- The header of an entry, with `left` from its separator on. -/
structure HasHeader (code left : Text) (index : Nat) (type : Char) (byteSize : Nat) : Prop where
  begins : EntryBegins code
  matched : ∃ line indexText sizeText, moveUntil ['#', '\n', '\x00'] code = (line, left) ∧
    fullMatch constHeader line = some [indexText, sizeText, [type]] ∧ stoull indexText = .ok index ∧
    stoull sizeText = .ok byteSize

/-- In the table for these indices, every element before the first gap lies in
what `calloc` has returned. -/
def ElementsProvided (library : StandardLibrary) (indices : List Nat) : Prop :=
  ∀ i < tableLength indices, (∀ j ≤ i, j ∈ indices) → elementProvided library indices i = true

/-- The entries up to `$end` or to the end of the text, or up to one that is
refused. Behind every payload stands one more character, and the table of the
entries has room for those that are written. The indices are those of the
entries before. -/
inductive Entries (library : StandardLibrary) : List Nat → Text → Prop
  | finished {indices} : ElementsProvided library indices → Entries library indices []
  | closed {indices code} : code ≠ [] → (moveUntilNextLine code).1 = END → ElementsProvided library indices →
      Entries library indices code
  | emptyLine {indices code} : code ≠ [] → (moveUntilNextLine code).1 = [] →
      Entries library indices (moveUntilNextLine code).2 → Entries library indices code
  | malformed {indices code} : EntryBegins code →
      (∀ index byteSize type, fullMatch constHeader (moveUntil ['#', '\n', '\x00'] code).1 ≠ some [index, byteSize, [type]]) →
      Entries library indices code
  | refused {indices code left index type byteSize} : HasHeader code left index type byteSize →
      (1 < left.length → byteSize ≤ left.length ∧
        readValue library type ((left.drop 1 ++ ['\x00']).take byteSize) = .error .parseException) →
      Entries library indices code
  | entry {indices code left index type byteSize payload} : HasHeader code left index type byteSize →
      1 + byteSize < left.length → readValue library type ((left.drop 1).take byteSize) = .ok payload →
      Entries library (index :: indices) (left.drop (1 + byteSize + 1)) → Entries library indices code

section Termination
variable {library : StandardLibrary} {code left : Text} {type : Char} {index byteSize : Nat}
  {indices : List Nat}

theorem stoull_error {text : Text} {failure : ParseFailure} (run : stoull text = .error failure) :
    failure ≠ .parseException := by
  rintro rfl
  have number : readNumeral text ≠ .error .parseException := by
    unfold readNumeral
    dsimp only
    split <;> split <;> simp
  unfold stoull at run
  cases read : readNumeral text with
  | error failure =>
    rw [read, error_bind] at run
    obtain rfl := Except.error.inj run
    exact number read
  | ok value =>
    rw [read, ok_bind] at run
    dsimp only at run
    split at run
    · exact absurd run (by simp)
    · exact absurd run (by simp)

/-- The entry behind a header. -/
theorem readConst_header {line indexText sizeText : Text}
    (scanned : moveUntil ['#', '\n', '\x00'] code = (line, left))
    (matched : fullMatch constHeader line = some [indexText, sizeText, [type]]) (atIndex : stoull indexText = .ok index)
    (size : stoull sizeText = .ok byteSize) :
    readConst library code =
      if left.length ≤ 1 then .error .parseException
      else
        readBytes byteSize (left.drop 1) >>= fun bytes => readValue library type bytes >>= fun payload =>
          match left.drop (1 + byteSize) with
          | [] => .error .undefined
          | _ :: code => .ok ((index, ⟨byteSize, payload⟩), code) := by
  rw [readConst, scanned]
  dsimp only
  rw [matched]
  dsimp only
  rw [atIndex, size]
  rfl

theorem readBytes_within (fits : byteSize ≤ left.length) (more : 1 < left.length) :
    readBytes byteSize (left.drop 1) = .ok ((left.drop 1 ++ ['\x00']).take byteSize) := by
  rw [readBytes, if_pos (by rw [List.length_drop]; omega)]

theorem take_payload (fits : 1 + byteSize < left.length) :
    (left.drop 1 ++ ['\x00']).take byteSize = (left.drop 1).take byteSize :=
  List.take_append_of_le_length (by rw [List.length_drop]; omega)

theorem drop_payload (fits : 1 + byteSize < left.length) :
    ∃ c, left.drop (1 + byteSize) = c :: left.drop (1 + byteSize + 1) :=
  ⟨left[1 + byteSize], List.drop_eq_getElem_cons fits⟩

theorem readConst_malformed (none : ∀ index byteSize type,
    fullMatch constHeader (moveUntil ['#', '\n', '\x00'] code).1 ≠ some [index, byteSize, [type]]) :
    readConst library code = .error .parseException := by
  rw [readConst]
  dsimp only
  split
  · rename_i indexText sizeText type matched
    exact absurd matched (none _ _ _)
  · rfl

theorem readConst_refused (header : HasHeader code left index type byteSize) (payload : 1 < left.length → byteSize ≤ left.length ∧
    readValue library type ((left.drop 1 ++ ['\x00']).take byteSize) = .error .parseException) :
    readConst library code = .error .parseException := by
  obtain ⟨_, line, indexText, sizeText, scanned, matched, atIndex, size⟩ := header
  rw [readConst_header scanned matched atIndex size]
  split
  · rfl
  · rename_i more
    obtain ⟨fits, value⟩ := payload (Nat.lt_of_not_le more)
    rw [readBytes_within fits (Nat.lt_of_not_le more), ok_bind, value]
    rfl

theorem readConst_entry (header : HasHeader code left index type byteSize) (fits : 1 + byteSize < left.length)
    {payload : ConstPayload} (value : readValue library type ((left.drop 1).take byteSize) = .ok payload) :
    readConst library code = .ok ((index, ⟨byteSize, payload⟩), left.drop (1 + byteSize + 1)) := by
  obtain ⟨_, line, indexText, sizeText, scanned, matched, atIndex, size⟩ := header
  obtain ⟨c, behind⟩ := drop_payload fits
  rw [readConst_header scanned matched atIndex size, if_neg (by omega), readBytes_within (by omega) (by omega), ok_bind,
    take_payload fits, value, ok_bind, behind]

/-- An entry at which the scan ends well, or behind which it goes on. -/
theorem entries_of_readConst (begins : EntryBegins code)
    (run : Ends (· = .parseException) (fun read => Entries library (read.1.1 :: indices) read.2) (readConst library code)) :
    Entries library indices code := by
  obtain ⟨line, left, scanned⟩ : ∃ line left, moveUntil ['#', '\n', '\x00'] code = (line, left) := ⟨_, _, rfl⟩
  by_cases header : ∃ indexText sizeText type, fullMatch constHeader line = some [indexText, sizeText, [type]]
  · obtain ⟨indexText, sizeText, type, matched⟩ := header
    cases atIndex : stoull indexText with
    | error failure =>
      have failed : readConst library code = .error failure := by
        rw [readConst, scanned]
        dsimp only
        rw [matched]
        dsimp only
        rw [atIndex, error_bind]
      rw [failed] at run
      exact absurd run (stoull_error atIndex)
    | ok index =>
      cases size : stoull sizeText with
      | error failure =>
        have failed : readConst library code = .error failure := by
          rw [readConst, scanned]
          dsimp only
          rw [matched]
          dsimp only
          rw [atIndex, ok_bind, size, error_bind]
        rw [failed] at run
        exact absurd run (stoull_error size)
      | ok byteSize =>
        have header : HasHeader code left index type byteSize :=
          ⟨begins, line, indexText, sizeText, scanned, matched, atIndex, size⟩
        rw [readConst_header scanned matched atIndex size] at run
        by_cases nothing : left.length ≤ 1
        · exact .refused header fun more => absurd nothing (Nat.not_le.mpr more)
        · rw [if_neg nothing] at run
          by_cases fits : byteSize ≤ left.length
          · rw [readBytes_within fits (Nat.lt_of_not_le nothing), ok_bind] at run
            cases value : readValue library type ((left.drop 1 ++ ['\x00']).take byteSize) with
            | error failure =>
              rw [value] at run
              obtain rfl : failure = .parseException := run
              exact .refused header fun _ => ⟨fits, value⟩
            | ok payload =>
              rw [value, ok_bind] at run
              by_cases behind : 1 + byteSize < left.length
              · obtain ⟨c, rest⟩ := drop_payload behind
                rw [rest] at run
                rw [take_payload behind] at value
                exact .entry header behind value run
              · rw [List.drop_eq_nil_iff.mpr (Nat.le_of_not_lt behind)] at run
                exact absurd run (by simp [Ends])
          · rw [readBytes, if_neg (by rw [List.length_drop]; omega)] at run
            exact absurd run (by simp [Ends])
  · refine .malformed begins fun indexText sizeText type matched => ?_
    rw [scanned] at matched
    exact header ⟨indexText, sizeText, type, matched⟩

theorem readConsts_begins (begins : EntryBegins code) (map : List (Nat × ConstValue)) :
    readConsts library map code = readConst library code >>= fun read => readConsts library (read.1 :: map) read.2 := by
  obtain ⟨line, behind, next⟩ : ∃ line behind, moveUntilNextLine code = (line, behind) := ⟨_, _, rfl⟩
  have notEnd := begins.notEnd
  have notEmpty := begins.notEmpty
  rw [next] at notEnd notEmpty
  rw [readConsts_pass begins.more next, if_neg notEnd, if_neg notEmpty]

/-- The table of the constants ends well exactly if there is room for every
element that is written. -/
theorem constTableOf_ends (map : List (Nat × ConstValue)) :
    Ends (· = .parseException) (fun _ => True) (constTableOf library map) ↔ ElementsProvided library (map.map Prod.fst) := by
  rw [constTableOf, ends_mapM_range]
  generalize known : map.map Prod.fst = keys
  have absent {i : Nat} : map.lookup i = none ↔ i ∉ keys := by
    rw [← known, ← isSome_lookup, Option.not_isSome_iff_eq_none]
  refine ⟨fun each i inside present => ?_, fun provided i inside before => ?_⟩
  · induction i using Nat.strongRecOn with
    | _ i ih =>
      have here := each i inside fun j below => by
        obtain ⟨value, found⟩ := Option.ne_none_iff_exists'.mp fun none => absent.mp none (present j below.le)
        rw [found]
        exact ⟨value, if_pos (ih j below (by omega) fun k under => present k (by omega))⟩
      obtain ⟨value, found⟩ := Option.ne_none_iff_exists'.mp fun none => absent.mp none (present i (Nat.le_refl i))
      rw [found] at here
      by_contra outside
      rw [Bool.not_eq_true] at outside
      simp [outside, Ends] at here
  · cases found : map.lookup i with
    | none => rfl
    | some value =>
      have present : ∀ j ≤ i, j ∈ keys := fun j below => by
        rcases Nat.lt_or_eq_of_le below with earlier | rfl
        · obtain ⟨_, run⟩ := before j earlier
          by_contra missing
          rw [absent.mpr missing] at run
          cases run
        · by_contra missing
          cases found.symm.trans (absent.mpr missing)
      dsimp only
      rw [if_pos (provided i inside present)]
      trivial

/-- A const section ends well exactly when the text is a run of entries. -/
theorem readConsts_ends (map : List (Nat × ConstValue)) :
    Ends (· = .parseException) (fun _ => True) (readConsts library map code >>= fun read => constTableOf library read.1) ↔
      Entries library (map.map Prod.fst) code := by
  constructor
  · intro run
    induction length : code.length using Nat.strongRecOn generalizing code map with
    | _ n ih =>
      by_cases more : code = []
      · subst more
        rw [readConsts, dif_pos rfl, ok_bind, constTableOf_ends] at run
        exact .finished run
      · have shorter := moveUntilNextLine_length more
        have pass := @readConsts_pass library map code (moveUntilNextLine code).1 (moveUntilNextLine code).2 more rfl
        by_cases last : (moveUntilNextLine code).1 = END
        · rw [pass, if_pos last, ok_bind, constTableOf_ends] at run
          exact .closed more last run
        · by_cases blank : (moveUntilNextLine code).1 = []
          · rw [pass, if_neg last, if_pos blank] at run
            exact .emptyLine more blank (ih _ (by omega) map run rfl)
          · have begins : EntryBegins code := ⟨more, last, blank⟩
            rw [readConsts_begins begins] at run
            refine entries_of_readConst begins ?_
            cases read : readConst library code with
            | error failure =>
              rw [read] at run
              exact run
            | ok read' =>
              have shorter := readConst_length read
              rw [read, ok_bind] at run
              exact ih _ (by omega) _ run rfl
  · intro entries
    generalize known : map.map Prod.fst = indices at entries
    induction entries generalizing map with
    | finished provided =>
      rw [readConsts, dif_pos rfl, ok_bind, constTableOf_ends, known]
      exact provided
    | @closed _ code more last provided =>
      obtain ⟨line, behind, next⟩ : ∃ line behind, moveUntilNextLine code = (line, behind) := ⟨_, _, rfl⟩
      rw [next] at last
      rw [readConsts_pass more next, if_pos last, ok_bind, constTableOf_ends, known]
      exact provided
    | @emptyLine _ code more blank _ ih =>
      obtain ⟨line, behind, next⟩ : ∃ line behind, moveUntilNextLine code = (line, behind) := ⟨_, _, rfl⟩
      rw [next] at blank ih
      dsimp only at blank ih
      rw [readConsts_pass more next, if_neg (by rw [blank]; decide), if_pos blank]
      exact ih map known
    | malformed begins none =>
      rw [readConsts_begins begins, readConst_malformed none]
      rfl
    | refused header payload =>
      rw [readConsts_begins header.begins, readConst_refused header payload]
      rfl
    | entry header fits value _ ih =>
      rw [readConsts_begins header.begins, readConst_entry header fits value, ok_bind]
      exact ih _ (by rw [List.map_cons, known])

end Termination
/-- `parse_const`, from every position of a code on, ends inside the code
exactly when entries follow. -/
theorem parseConstAt_inside (library : StandardLibrary) (code : Text) {position : Nat}
    (start : position ≤ code.length) :
    EndsInside code (parseConstAt library code position) ↔ Entries library [] (code.drop position) := by
  have suffix : code.drop position <:+ code := List.drop_suffix _ _
  have here : cursorAt code (code.drop position) = position := by
    unfold cursorAt
    rw [List.length_drop]
    omega
  have run := @parseConstAt_eq library _ _ suffix
  rw [here] at run
  have ends := @readConsts_ends library (code.drop position) []
  rw [List.map_nil] at ends
  rw [run, ← ends, parseConst, EndsInside]
  cases readConsts library [] (code.drop position) with
  | error failure => exact Iff.rfl
  | ok read =>
    rw [ok_bind, ok_bind]
    dsimp only
    cases constTableOf library read.1 with
    | error failure => exact Iff.rfl
    | ok values => exact iff_of_true (Nat.sub_le _ _) trivial

theorem parseConstAt_inside_closed :
    EndsInside "0:2:s#ab\n$end".toList (parseConstAt plainLibrary "0:2:s#ab\n$end".toList 0) := by
  have header : HasHeader "0:2:s#ab\n$end".toList "#ab\n$end".toList 0 's' 2 :=
    ⟨⟨by decide, by decide +kernel, by decide +kernel⟩, "0:2:s".toList, ['0'], ['2'], by decide +kernel, by decide +kernel,
      by decide +kernel, by decide +kernel⟩
  have provided : ElementsProvided plainLibrary [0] := fun _ _ _ => rfl
  have closed : Entries plainLibrary [0] ("#ab\n$end".toList.drop (1 + 2 + 1)) :=
    .closed (by decide) (by decide +kernel) provided
  exact (parseConstAt_inside _ _ (Nat.zero_le _)).mpr (.entry header (by decide) rfl closed)

/-- Behind the payload the text ends: the cursor goes past the NUL, and the next
line is read from there. -/
theorem parseConstAt_outside :
    parseConstAt plainLibrary "0:2:s#ab".toList 0 = .error .undefined ∧
      ¬EndsInside "0:2:s#ab".toList (parseConstAt plainLibrary "0:2:s#ab".toList 0) := by
  have run : parseConstAt plainLibrary "0:2:s#ab".toList 0 = .error .undefined := by decide +kernel
  refine ⟨run, fun inside => ?_⟩
  rw [run] at inside
  exact absurd inside (by simp [EndsInside, Ends])

end CatLa
