import CatLa.Parser.MalformedText

namespace CatLa
open Outcome Pattern

/-- The table in which nothing but the strings can be read: a
`get_const_value_as_string` of anything else ends undefined. -/
def stringsOnly (constValues : List ConstValue) : List ConstValue :=
  constValues.map fun value => match value.payload with
    | .string _ => value
    | payload => ⟨payload.bytes.length + 1, payload⟩

/-- What is done with a line of this kind, up to the lines that belong to it. -/
def LineKind.read (library : StandardLibrary) (name : Text) (constValues : List ConstValue) (line : Text) : LineKind → Except ParseFailure Unit
  | importLine => (readImport name constValues [] line).map fun _ => ()
  | typeDefine => (readTypeDefine constValues [] line).map fun _ => ()
  | usingType => (readUsingType [] line).map fun _ => ()
  | function => (readFunction library constValues [] line []).map fun _ => ()
  | label => (readLabelBlock constValues [] line []).map fun _ => ()
  | order => (parseOrderLine constValues line).map fun _ => ()

/-- The entry is a string, with its bytes. -/
def StringAt (constValues : List ConstValue) (k : Nat) : Prop :=
  ∃ size bytes, constValues[k]? = some ⟨size, .string bytes⟩ ∧ size ≤ bytes.length

/-- What the parser reads at this check is there. -/
def Check.InRange (constValues : List ConstValue) : Check → Prop
  | constant text => ∀ k, stoull text = .ok k → StringAt constValues k
  | operand given => given = true
  | _ => True

/-- The checks are in range up to one that does not pass. -/
def Guarded (constValues : List ConstValue) : List Check → Prop
  | [] => True
  | check :: checks => check.InRange constValues ∧ (check.Passes constValues → Guarded constValues checks)

section Access
variable {library : StandardLibrary} {constValues : List ConstValue} {check : Check} {checks : List Check}

theorem Makes.drop {α β : Type} {m : Except ParseFailure α} {b : β}
    (agree : Agree (fun _ _ => True) m (checked constValues checks >>= fun _ => .ok b)) : Makes constValues checks m := by
  unfold Makes
  cases run : checked constValues checks <;> rw [run] at agree <;> cases m <;> exact agree

theorem stoull_defined (text : Text) : stoull text ≠ .error .undefined := by
  have number : readNumeral text ≠ .error .undefined := by
    unfold readNumeral
    dsimp only
    split <;> split <;> simp
  unfold stoull
  cases read : readNumeral text with
  | error failure =>
    rw [error_bind]
    exact fun same => number (read.trans (congrArg Except.error (Except.error.inj same)))
  | ok value =>
    rw [ok_bind]
    dsimp only
    split <;> simp

theorem makes_line (name : Text) (kind : LineKind) (line : Text) :
    Makes constValues (kind.checks library line) (kind.read library name constValues line) := by
  have nothing : parseLabelBlocks constValues [] = .ok ([], []) := by rw [parseLabelBlocks, forLines, dif_pos rfl]
  have none : parseOrders constValues [] = .ok ([], []) := by rw [parseOrders, forLines, dif_pos rfl]
  cases kind with
  | importLine => exact (makes_import name [] line).map _
  | typeDefine => exact (makes_typeDefine [] line).map _
  | usingType => exact (makes_usingType [] line).map _
  | function => exact (Makes.drop (nothing ▸ readFunction_agrees [] line [])).map _
  | label => exact (Makes.drop (none ▸ readLabelBlock_agrees [] line)).map _
  | order => exact (makes_orderLine line).map _

theorem stringsOnly_string {k : Nat} (string : StringAt constValues k) :
    ∃ name, getConstValueAsString (stringsOnly constValues) k = .ok name ∧ getConstValueAsString constValues k = .ok name := by
  obtain ⟨size, bytes, at_k, inside⟩ := string
  refine ⟨bytes.take size, ?_, ?_⟩
  · rw [getConstValueAsString, stringsOnly, List.getElem?_map, at_k]
    exact if_pos inside
  · rw [getConstValueAsString, at_k]
    exact if_pos inside

theorem stringsOnly_other {k : Nat} (other : ¬StringAt constValues k) :
    getConstValueAsString (stringsOnly constValues) k = .error .undefined := by
  rw [getConstValueAsString, stringsOnly, List.getElem?_map]
  cases at_k : constValues[k]? with
  | none => rfl
  | some value =>
    obtain ⟨size, payload⟩ := value
    cases payload with
    | string bytes => exact if_neg fun inside => other ⟨size, bytes, at_k, inside⟩
    | integer value => exact if_neg (Nat.not_succ_le_self _)
    | double bits => exact if_neg (Nat.not_succ_le_self _)

/-- A check on the strings of a table is the check on the table, where that is
in range. -/
theorem run_inRange (inside : check.InRange constValues) :
    check.run (stringsOnly constValues) = check.run constValues ∧ check.run constValues ≠ .error .undefined := by
  cases check with
  | number text =>
    refine ⟨rfl, fun failed => stoull_defined text ?_⟩
    rw [Check.run] at failed
    cases read : stoull text with
    | ok n =>
      rw [read] at failed
      exact absurd failed (by simp [Except.map])
    | error failure =>
      rw [read] at failed
      exact congrArg Except.error (Except.error.inj failed)
  | constant text =>
    rw [Check.run, Check.run]
    cases read : stoull text with
    | ok k =>
      obtain ⟨name, checkedRead, tableRead⟩ := stringsOnly_string (inside k read)
      rw [ok_bind, ok_bind, checkedRead, tableRead]
      simp [Except.map]
    | error failure =>
      refine ⟨rfl, fun failed => stoull_defined text (read.trans ?_)⟩
      exact congrArg Except.error (Except.error.inj failed)
  | word known => cases known <;> simp [Check.run]
  | operand given =>
    obtain rfl : given = true := inside
    simp [Check.run]
  | vector provided => cases provided <;> simp [Check.run]

theorem run_outside (outside : ¬check.InRange constValues) : check.run (stringsOnly constValues) = .error .undefined := by
  cases check with
  | number text => exact absurd trivial outside
  | constant text =>
    simp only [Check.InRange, not_forall] at outside
    obtain ⟨k, read, other⟩ := outside
    rw [Check.run, read, ok_bind, stringsOnly_other other]
    rfl
  | word known => exact absurd trivial outside
  | operand given =>
    obtain rfl : given = false := by simpa [Check.InRange] using outside
    rfl
  | vector provided => exact absurd trivial outside

theorem checked_stringsOnly : checked (stringsOnly constValues) checks ≠ .error .undefined ↔ Guarded constValues checks := by
  induction checks with
  | nil => simp [checked, Guarded]
  | cons check checks ih =>
    by_cases inside : check.InRange constValues
    · obtain ⟨same, defined⟩ := run_inRange inside
      rw [checked, Guarded, same, ← run_ok]
      cases run : check.run constValues with
      | ok _ => simp [inside, ih]
      | error failure =>
        have other : failure ≠ .undefined := fun undefined => defined (undefined ▸ run)
        simp [inside, other]
    · rw [checked, run_outside inside, error_bind, Guarded]
      simp [inside]

/-- On every line that the parser comes to, nothing is read outside of the
strings and of the operands exactly if no check before a refusal asks for it. -/
theorem parse_accesses (library : StandardLibrary) (name code : Text) :
    (∀ constValues kind line, MeetsLine library name code constValues kind line →
        kind.read library name (stringsOnly constValues) line ≠ .error .undefined) ↔
      ∀ constValues kind line, MeetsLine library name code constValues kind line →
        Guarded constValues (kind.checks library line) := by
  refine forall₃_congr fun constValues kind line => forall_congr' fun _ => ?_
  rw [← checked_stringsOnly]
  exact not_congr (@makes_line library (stringsOnly constValues) name kind line).error_iff

/-- An import is named by a constant of a table that does not exist. -/
theorem parse_reads_outside :
    MeetsLine plainLibrary ['m'] "$import\n0:const#5\n$end\n".toList [] .importLine "0:const#5".toList ∧
      LineKind.importLine.read plainLibrary ['m'] (stringsOnly []) "0:const#5".toList = .error .undefined ∧
      ¬∀ constValues kind line,
        MeetsLine plainLibrary ['m'] "$import\n0:const#5\n$end\n".toList constValues kind line →
          kind.read plainLibrary ['m'] (stringsOnly constValues) line ≠ .error .undefined := by
  have meets : MeetsLine plainLibrary ['m'] "$import\n0:const#5\n$end\n".toList [] .importLine
      "0:const#5".toList :=
    ⟨⟨[], [], [], [], []⟩, "$import".toList, "0:const#5\n$end\n".toList, .here (by decide) (by decide +kernel), rfl,
      .importLine (.here (by decide) (by decide +kernel : _ = (_, "$end\n".toList)) (by decide) (by decide))⟩
  have outside : LineKind.importLine.read plainLibrary ['m'] (stringsOnly []) "0:const#5".toList = .error .undefined := by decide +kernel
  exact ⟨meets, outside, fun inside => inside _ _ _ meets outside⟩

end Access
end CatLa
