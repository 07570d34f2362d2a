import Mathlib.Logic.Relation
import CatLa.Parser.ConstCursor
import CatLa.Parser.LineLoop

namespace CatLa
open Outcome Pattern Relation

/-- `HASH_MARK`, the characters that end a header. -/
def headerEnds : List Char := ['#', '\n', '\x00']

/-- The constants as they are meant to be written, up to `$end` and `left` behind
it: byte for byte entries, with spaces in a header and behind a payload, and
empty lines. -/
inductive StrictConsts (left : Text) : Text → Prop
  | closed {code} : Closes END left code → StrictConsts left code
  | emptyLine {n rest} : StrictConsts left rest → StrictConsts left (spaces n ++ '\n' :: rest)
  | entry {header indexText sizeText payload rest : Text} {type n} : (∀ c ∈ header, c ∉ headerEnds) →
      fullMatch constHeader (header.filter (· ≠ ' ')) = some [indexText, sizeText, [type]] →
      stoull sizeText = .ok payload.length → StrictConsts left rest →
      StrictConsts left (header ++ '#' :: (payload ++ (spaces n ++ '\n' :: rest)))

/-- A pass of the loop that goes on to another one. -/
inductive ConstPass (library : StandardLibrary) : Text → Text → Prop
  | emptyLine {code left} : code ≠ [] → moveUntilNextLine code = ([], left) → ConstPass library code left
  | entry {code entry left} : EntryBegins code → readConst library code = .ok (entry, left) → ConstPass library code left

/-- What no pass looks at: the header of the entry is ended by `#`, and its
payload by a line break, or by spaces up to one. -/
def Delimited (code : Text) : Prop :=
  ∃ left, (moveUntil headerEnds code).2 = '#' :: left ∧ ∀ indexText sizeText type byteSize,
    fullMatch constHeader (moveUntil headerEnds code).1 = some [indexText, sizeText, [type]] →
      stoull sizeText = .ok byteSize → ∃ n rest, left.drop byteSize = spaces n ++ '\n' :: rest

section Passes
variable {library : StandardLibrary} {code last left : Text}

theorem ConstPass.run (pass : ConstPass library code left) (map : List (Nat × ConstValue)) :
    ∃ map', readConsts library map code = readConsts library map' left := by
  cases pass with
  | emptyLine more blank =>
    refine ⟨map, ?_⟩
    rw [readConsts_pass more blank, if_neg (by decide), if_pos rfl]
  | entry begins read =>
    rw [readConsts_begins begins, read, ok_bind]
    exact ⟨_, rfl⟩

theorem passes_run (passes : ReflTransGen (ConstPass library) code last) (map : List (Nat × ConstValue)) :
    ∃ map', readConsts library map code = readConsts library map' last := by
  induction passes with
  | refl => exact ⟨map, rfl⟩
  | tail _ pass ih =>
    obtain ⟨map₁, before⟩ := ih
    obtain ⟨map', step⟩ := pass.run map₁
    exact ⟨map', before.trans step⟩

theorem line_ne_nil (named : (moveUntilNextLine last).1 = END) : last ≠ [] := by
  rintro rfl
  exact absurd named (by decide)

/-- What is left where the loop meets `$end`. -/
theorem parseConst_end {constValues : List ConstValue} (returns : parseConst library code = .ok (constValues, left))
    (passes : ReflTransGen (ConstPass library) code last) (ends : (moveUntilNextLine last).1 = END) :
    (moveUntilNextLine last).2 = left := by
  obtain ⟨line, behind, next⟩ : ∃ line behind, moveUntilNextLine last = (line, behind) := ⟨_, _, rfl⟩
  obtain ⟨map, run⟩ := passes_run passes []
  rw [next] at ends
  rw [readConsts_pass (line_ne_nil (next ▸ ends)) next, if_pos ends] at run
  rw [parseConst, run, ok_bind] at returns
  obtain ⟨values, _, same⟩ := bind_eq_ok.mp returns
  rw [next]
  exact (Prod.mk.inj (Except.ok.inj same)).2

theorem moveUntilNextLine_blank (n : Nat) (rest : Text) : moveUntilNextLine (spaces n ++ '\n' :: rest) = ([], rest) := by
  rw [moveUntilNextLine_line (not_mem_spaces (by decide) n), filter_spaces]

/-- A line of spaces has its line break, or is the end of the code. -/
theorem blank_line (blank : moveUntilNextLine code = ([], left)) : (∃ n, code = spaces n ++ '\n' :: left) ∨ left = [] := by
  obtain ⟨none, rfl⟩ := Prod.mk.inj blank
  have line : code.takeWhile (· ≠ '\n') = spaces (code.takeWhile (· ≠ '\n')).length := by
    refine List.eq_replicate_iff.mpr ⟨rfl, fun c member => ?_⟩
    simpa using List.filter_eq_nil_iff.mp none c member
  cases behind : code.dropWhile (· ≠ '\n') with
  | nil => exact .inr rfl
  | cons c rest =>
    obtain rfl : c = '\n' := by
      have stops := List.head?_dropWhile_not (fun c => decide (c ≠ '\n')) code
      rw [behind] at stops
      simpa using stops
    refine .inl ⟨(code.takeWhile (· ≠ '\n')).length, ?_⟩
    rw [← line, List.drop_one, List.tail_cons, ← behind, List.takeWhile_append_dropWhile]

theorem moveUntil_header (found : (moveUntil headerEnds code).2 = '#' :: left) :
    ∃ header, code = header ++ '#' :: left ∧ (∀ c ∈ header, c ∉ headerEnds) ∧
      (moveUntil headerEnds code).1 = header.filter (· ≠ ' ') := by
  have rest : code.dropWhile (· ∉ headerEnds) = '#' :: left := by
    rw [moveUntil] at found
    dsimp only at found
    split at found
    · rename_i none
      exact absurd (List.dropWhile_eq_nil_iff.mp none '#' (found ▸ List.mem_cons_self)) (by decide)
    · exact found
  refine ⟨code.takeWhile (· ∉ headerEnds), ?_, fun c member => ?_, rfl⟩
  · rw [← rest, List.takeWhile_append_dropWhile]
  · simpa using List.mem_takeWhile_imp member

theorem Closes.line (closes : Closes END left code) : (moveUntilNextLine code).1 = END := by
  obtain ⟨raw, oneLine, shown, rfl | ⟨rfl, rfl⟩⟩ := closes
  · rw [moveUntilNextLine_line oneLine, shown]
  · rw [moveUntilNextLine_last oneLine, shown]

theorem closes_of_line (ends : (moveUntilNextLine code).1 = END) : Closes END (moveUntilNextLine code).2 code := by
  refine ⟨code.takeWhile (· ≠ '\n'), fun member => ?_, ends, ?_⟩
  · simpa using List.mem_takeWhile_imp member
  · cases behind : code.dropWhile (· ≠ '\n') with
    | nil => exact .inr ⟨List.takeWhile_eq_self_iff.mpr (List.dropWhile_eq_nil_iff.mp behind) |>.symm, by
        rw [moveUntilNextLine, behind]
        rfl⟩
    | cons c rest =>
      obtain rfl : c = '\n' := by
        have stops := List.head?_dropWhile_not (fun c => decide (c ≠ '\n')) code
        rw [behind] at stops
        simpa using stops
      refine .inl ?_
      rw [moveUntilNextLine, behind, List.drop_one, List.tail_cons, ← behind, List.takeWhile_append_dropWhile]

/-- A line with a `#` in it begins an entry. -/
theorem entryBegins_header {header : Text} (plain : ∀ c ∈ header, c ∉ headerEnds) (behind : Text) :
    EntryBegins (header ++ '#' :: behind) := by
  have inside : ∀ c ∈ header, decide (c ≠ '\n') = true := fun c member =>
    decide_eq_true fun same => plain c member (same ▸ by decide)
  have mark : '#' ∈ (moveUntilNextLine (header ++ '#' :: behind)).1 := by
    rw [moveUntilNextLine, List.takeWhile_append_of_pos inside, List.takeWhile_cons_of_pos (by decide)]
    simp
  refine ⟨by simp, fun named => ?_, fun blank => ?_⟩
  · exact absurd (named ▸ mark) (by decide)
  · exact absurd (blank ▸ mark) List.not_mem_nil

theorem not_begins_blank (n : Nat) (rest : Text) : ¬EntryBegins (spaces n ++ '\n' :: rest) := fun begins =>
  begins.notEmpty (by rw [moveUntilNextLine_blank])

/-- Where the cursor is behind an entry. -/
theorem readConst_scanned {entry : Nat × ConstValue} (read : readConst library code = .ok (entry, left)) :
    ∃ indexText sizeText type byteSize, fullMatch constHeader (moveUntil headerEnds code).1 = some [indexText, sizeText, [type]] ∧
      stoull sizeText = .ok byteSize ∧ ∃ c, (moveUntil headerEnds code).2.drop (1 + byteSize) = c :: left := by
  obtain ⟨line, behind, scanned⟩ : ∃ line behind, moveUntil headerEnds code = (line, behind) := ⟨_, _, rfl⟩
  have header : moveUntil ['#', '\n', '\x00'] code = (line, behind) := scanned
  rw [readConst, header] at read
  rw [scanned]
  dsimp only at read ⊢
  split at read
  · rename_i indexText sizeText type matched
    obtain ⟨index, _, read⟩ := bind_eq_ok.mp read
    obtain ⟨byteSize, size, read⟩ := bind_eq_ok.mp read
    refine ⟨indexText, sizeText, type, byteSize, matched, size, ?_⟩
    split at read
    · exact absurd read (by simp)
    · obtain ⟨bytes, _, read⟩ := bind_eq_ok.mp read
      obtain ⟨payload, _, read⟩ := bind_eq_ok.mp read
      split at read
      · exact absurd read (by simp)
      · rename_i c rest drop
        exact ⟨c, (Prod.mk.inj (Except.ok.inj read)).2 ▸ drop⟩
  · exact absurd read (by simp)

/-- Passes go from a blank line to the code behind it. -/
theorem passes_blank {n : Nat} {rest c : Text} (passes : ReflTransGen (ConstPass library) (spaces n ++ '\n' :: rest) c)
    (begins : EntryBegins c) : ReflTransGen (ConstPass library) rest c := by
  rcases passes.cases_head with rfl | ⟨next, pass, passes⟩
  · exact absurd begins (not_begins_blank n rest)
  · cases pass with
    | emptyLine _ blank =>
      rw [moveUntilNextLine_blank] at blank
      exact (Prod.mk.inj blank).2 ▸ passes
    | entry begins _ => exact absurd begins (not_begins_blank n rest)

theorem StrictConsts.delimited (strict : StrictConsts left code) {c : Text} (passes : ReflTransGen (ConstPass library) code c)
    (begins : EntryBegins c) : Delimited c := by
  induction strict with
  | closed closes =>
    have named := closes.line
    rcases passes.cases_head with rfl | ⟨next, pass, _⟩
    · exact absurd named begins.notEnd
    · cases pass with
      | emptyLine _ blank =>
        rw [blank] at named
        exact absurd named (by simp [END])
      | entry begins _ => exact absurd named begins.notEnd
  | emptyLine _ ih => exact ih (passes_blank passes begins)
  | @entry header indexText sizeText payload rest type n plain matched size _ ih =>
    have scanned := moveUntil_found (by decide : '#' ∈ headerEnds) plain (payload ++ (spaces n ++ '\n' :: rest))
    have only {indexText' sizeText' : Text} {type' : Char} {byteSize : Nat}
        (found : fullMatch constHeader (header.filter (· ≠ ' ')) = some [indexText', sizeText', [type']])
        (read : stoull sizeText' = .ok byteSize) : byteSize = payload.length := by
      rw [matched] at found
      obtain ⟨-, same, -⟩ : indexText = indexText' ∧ sizeText = sizeText' ∧ type = type' := by simpa using found
      rw [← same, size] at read
      exact (Except.ok.inj read).symm
    rcases passes.cases_head with rfl | ⟨next, pass, passes⟩
    · refine ⟨payload ++ (spaces n ++ '\n' :: rest), by rw [scanned], fun _ _ _ byteSize found read => ⟨n, rest, ?_⟩⟩
      rw [scanned] at found
      rw [only found read, List.drop_left]
    · cases pass with
      | emptyLine _ blank => exact absurd (by rw [blank]) (entryBegins_header plain _).notEmpty
      | entry _ read =>
        obtain ⟨_, _, _, byteSize, found, read, c, behind⟩ := readConst_scanned read
        rw [scanned] at found behind
        rw [only found read, Nat.add_comm, List.drop_succ_cons, List.drop_left] at behind
        cases n with
        | zero =>
          obtain ⟨-, rfl⟩ := List.cons.inj behind
          exact ih passes
        | succ n =>
          obtain ⟨-, rfl⟩ := List.cons.inj (behind : ' ' :: (spaces n ++ '\n' :: rest) = c :: next)
          exact ih (passes_blank passes begins)

/-- Behind a blank line of strict constants stand strict constants. -/
theorem StrictConsts.blank {n : Nat} {rest : Text} (strict : StrictConsts left (spaces n ++ '\n' :: rest)) :
    StrictConsts left rest := by
  generalize same : spaces n ++ '\n' :: rest = code at strict
  cases strict with
  | closed closes =>
    have named := closes.line
    rw [← same, moveUntilNextLine_blank] at named
    exact absurd named (by simp [END])
  | emptyLine later =>
    have blank := moveUntilNextLine_blank n rest
    rw [same, moveUntilNextLine_blank] at blank
    exact (Prod.mk.inj blank).2 ▸ later
  | entry plain => exact absurd (entryBegins_header plain _) (same ▸ not_begins_blank n rest)

theorem strict_of_delimited (passes : ReflTransGen (ConstPass library) code last) (ends : (moveUntilNextLine last).1 = END)
    (delimited : ∀ c, ReflTransGen (ConstPass library) code c → EntryBegins c → Delimited c) :
    StrictConsts (moveUntilNextLine last).2 code := by
  induction passes using ReflTransGen.head_induction_on with
  | refl => exact .closed (closes_of_line ends)
  | @head code next pass passes ih =>
    have later := ih fun c reached => delimited c (.head pass reached)
    cases pass with
    | emptyLine more blank =>
      rcases blank_line blank with ⟨n, rfl⟩ | rfl
      · exact .emptyLine later
      · rcases passes.cases_head with rfl | ⟨_, pass, _⟩
        · exact absurd ends (by decide)
        · cases pass with
          | emptyLine more _ => exact absurd rfl more
          | entry begins _ => exact absurd rfl begins.more
    | entry begins read =>
      obtain ⟨behind, mark, ended⟩ := delimited code .refl begins
      obtain ⟨indexText, sizeText, type, byteSize, matched, size, c, drop⟩ := readConst_scanned read
      obtain ⟨n, rest, payload⟩ := ended _ _ _ _ matched size
      obtain ⟨header, rfl, plain, line⟩ := moveUntil_header mark
      rw [mark, Nat.add_comm, List.drop_succ_cons, payload] at drop
      have long : byteSize ≤ behind.length := by
        by_contra short
        rw [List.drop_of_length_le (Nat.le_of_not_le short)] at payload
        exact absurd payload (by simp)
      have strict : StrictConsts (moveUntilNextLine last).2 rest := by
        cases n with
        | zero => exact (List.cons.inj drop).2 ▸ later
        | succ n =>
          obtain ⟨-, rfl⟩ := List.cons.inj (drop : ' ' :: (spaces n ++ '\n' :: rest) = c :: next)
          exact later.blank
      rw [← List.take_append_drop byteSize behind, payload]
      rw [line] at matched
      exact .entry plain matched (by rw [List.length_take, Nat.min_eq_left long]; exact size) strict

/-- Constants that are read up to `$end` are strict exactly if every entry that
is met on the way is delimited. -/
theorem parseConst_strict {constValues : List ConstValue} (returns : parseConst library code = .ok (constValues, left))
    (passes : ReflTransGen (ConstPass library) code last) (ends : (moveUntilNextLine last).1 = END) :
    StrictConsts left code ↔ ∀ c, ReflTransGen (ConstPass library) code c → EntryBegins c → Delimited c := by
  refine ⟨fun strict c reached begins => strict.delimited reached begins, fun delimited => ?_⟩
  rw [← parseConst_end returns passes ends]
  exact strict_of_delimited passes ends delimited

theorem parseConst_strict_entry : Delimited "0:2:s #\n#  \n$end\n".toList := by
  have begins : EntryBegins "0:2:s #\n#  \n$end\n".toList := ⟨by decide, by decide +kernel, by decide +kernel⟩
  have first : ConstPass plainLibrary "0:2:s #\n#  \n$end\n".toList " \n$end\n".toList :=
    .entry begins (by decide +kernel : _ = Except.ok ((0, ⟨2, .string "\n#".toList⟩), _))
  have second : ConstPass plainLibrary " \n$end\n".toList "$end\n".toList :=
    .emptyLine (by decide) (by decide +kernel)
  have closed : StrictConsts [] "$end\n".toList :=
    .closed ⟨"$end".toList, by decide, by decide, .inl rfl⟩
  have strict : StrictConsts [] "0:2:s #\n#  \n$end\n".toList :=
    @StrictConsts.entry [] "0:2:s ".toList ['0'] ['2'] "\n#".toList _ 's' 2 (by simp [headerEnds])
      (by decide +kernel) (by decide +kernel) closed
  exact (parseConst_strict (by decide +kernel : _ = Except.ok ([⟨2, .string "\n#".toList⟩], []))
    (.head first (.single second)) (by decide +kernel)).mp strict _ .refl begins

/-- The byte behind the payload is lost. -/
theorem parseConst_skips :
    parseConst plainLibrary "0:1:s#aX\n$end\n".toList = .ok ([⟨1, .string ['a']⟩], []) ∧
      ReflTransGen (ConstPass plainLibrary) "0:1:s#aX\n$end\n".toList "$end\n".toList ∧
      ¬StrictConsts [] "0:1:s#aX\n$end\n".toList := by
  have begins : EntryBegins "0:1:s#aX\n$end\n".toList := ⟨by decide, by decide +kernel, by decide +kernel⟩
  have first : ConstPass plainLibrary "0:1:s#aX\n$end\n".toList "\n$end\n".toList :=
    .entry begins (by decide +kernel : _ = Except.ok ((0, ⟨1, .string ['a']⟩), _))
  have second : ConstPass plainLibrary "\n$end\n".toList "$end\n".toList :=
    .emptyLine (by decide) (by decide +kernel)
  refine ⟨by decide +kernel, .head first (.single second), fun strict => ?_⟩
  obtain ⟨left, mark, ended⟩ := @StrictConsts.delimited plainLibrary _ _ strict _ .refl begins
  obtain rfl : "aX\n$end\n".toList = left := by
    rw [(by decide +kernel : (moveUntil headerEnds "0:1:s#aX\n$end\n".toList).2 = "#aX\n$end\n".toList)] at mark
    exact (List.cons.inj mark).2
  obtain ⟨n, rest, payload⟩ := ended ['0'] ['1'] 's' 1 (by decide +kernel) (by decide +kernel)
  cases n with
  | zero => exact absurd (List.cons.inj (payload : 'X' :: _ = '\n' :: rest)).1 (by decide)
  | succ n => exact absurd (List.cons.inj (payload : 'X' :: _ = ' ' :: _)).1 (by decide)

end Passes
end CatLa
