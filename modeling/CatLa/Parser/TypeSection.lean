import CatLa.Parser.ModuleText

namespace CatLa
open Outcome Pattern

/-- The type of a field, with the name of the constant that is written as its
index. -/
inductive FieldTypeSource
  | primitive (type : PrimitiveType)
  | userDefined (importIndex typeNameIndex : Nat) (typeName : Text)
  deriving DecidableEq

structure FieldSource where
  nameIndex : Nat
  name : Text
  type : FieldTypeSource
  deriving DecidableEq

structure ParentSource where
  importIndex : Nat
  nameIndex : Nat
  name : Text
  deriving DecidableEq

structure TypeDefineSource where
  nameIndex : Nat
  name : Text
  fields : List FieldSource
  parent : Option ParentSource
  deriving DecidableEq

namespace FieldTypeSource

def print : FieldTypeSource → Text
  | primitive type => type.name
  | userDefined importIndex typeNameIndex _ => numeral importIndex ++ ':' :: numeral typeNameIndex

/-- The field of this type and this name. -/
def info (fieldName : Text) : FieldTypeSource → FieldInfo
  | primitive type => ⟨fieldName, some type, ⟨0, []⟩⟩
  | userDefined importIndex _ typeName => ⟨fieldName, none, ⟨importIndex, typeName⟩⟩

def Written (constValues : List ConstValue) : FieldTypeSource → Prop
  | primitive _ => True
  | userDefined importIndex typeNameIndex typeName =>
    importIndex < SIZE_MAX ∧ typeNameIndex < SIZE_MAX ∧ NamesString constValues typeNameIndex typeName

end FieldTypeSource

namespace FieldSource

def print (field : FieldSource) : Text := numeral field.nameIndex ++ ':' :: field.type.print

structure Written (constValues : List ConstValue) (field : FieldSource) : Prop where
  nameIndex : field.nameIndex < SIZE_MAX
  name : NamesString constValues field.nameIndex field.name
  type : field.type.Written constValues

end FieldSource

def ParentSource.print (parent : ParentSource) : Text :=
  ':' :: (numeral parent.importIndex ++ ':' :: numeral parent.nameIndex)

structure ParentSource.Written (constValues : List ConstValue) (parent : ParentSource) : Prop where
  importIndex : parent.importIndex < SIZE_MAX
  nameIndex : parent.nameIndex < SIZE_MAX
  name : NamesString constValues parent.nameIndex parent.name

namespace TypeDefineSource

def parentInfo (type : TypeDefineSource) : Option TypeInfo :=
  type.parent.map fun parent => ⟨parent.importIndex, parent.name⟩

def print (type : TypeDefineSource) : Text :=
  numeral type.nameIndex ++ ':' :: '(' :: ([','].intercalate (type.fields.map FieldSource.print) ++ ')' ::
    (type.parent.map ParentSource.print).getD [])

/-- The type that is meant. -/
def vmType (type : TypeDefineSource) : VMType :=
  .make type.name (type.fields.map fun field => field.type.info field.name) type.parentInfo

/-- The type that is read: its fields have the numbers of their names. -/
def readAs (type : TypeDefineSource) : VMType :=
  .make type.name (type.fields.map fun field => field.type.info (numeral field.nameIndex)) type.parentInfo

structure Written (constValues : List ConstValue) (type : TypeDefineSource) : Prop where
  nameIndex : type.nameIndex < SIZE_MAX
  name : NamesString constValues type.nameIndex type.name
  fields : ∀ field ∈ type.fields, field.Written constValues
  parent : ∀ parent, type.parent = some parent → parent.Written constValues

end TypeDefineSource

section Fields
variable {constValues : List ConstValue} {field : FieldSource}

theorem digits_literal (n : Nat) (rest : List (Piece Char)) (text : Text) :
    fullMatch (digits :: .literal [':'] :: rest) (numeral n ++ ':' :: text) = (fullMatch rest text).map (numeral n :: ·) := by
  rw [digits, fullMatch_repeated_literal (fun _ member => digit_numeral member) (numeral_length n) (by decide),
    fullMatch_literal_cons, fullMatch_literal_nil]

theorem isWord_typeName (type : PrimitiveType) : IsWord type.name := by
  cases type <;> decide

theorem readField_print (written : field.Written constValues) :
    readField constValues field.print = .ok (field.type.info (numeral field.nameIndex)) := by
  obtain ⟨nameIndex, name, type⟩ := field
  obtain ⟨_, _, fieldType⟩ := written
  dsimp only at fieldType
  rw [readField, FieldSource.print, digits_literal]
  cases type with
  | primitive type =>
    have word := isWord_typeName type
    rw [FieldTypeSource.print, wordCharacters, fullMatch_repeated_end word.2 (List.length_pos_iff.mpr word.1)]
    dsimp only [Option.map_some]
    rw [parsePrimitiveType_name]
    rfl
  | userDefined importIndex typeNameIndex typeName =>
    obtain ⟨importFits, nameFits, named⟩ := fieldType
    have other : fullMatch [wordCharacters] (numeral importIndex ++ ':' :: numeral typeNameIndex) = none := by
      cases matched : fullMatch [wordCharacters] (numeral importIndex ++ ':' :: numeral typeNameIndex) with
      | none => rfl
      | some found =>
        have letter := fullMatch_repeated_all matched ':' (by simp)
        exact absurd letter (by decide)
    rw [FieldTypeSource.print, other, digits_literal, digits_literal, digits_numeral]
    dsimp only [Option.map_some, Option.map_none]
    rw [stoull_written importFits, stoull_written nameFits, ok_bind, ok_bind, getConstValueAsString_named named]
    rfl

theorem field_ne {c b : Char} (outside : TokenCharacter b = false ∧ b ≠ ':') (member : c ∈ field.print) : c ≠ b := by
  rcases List.mem_append.mp member with number | type
  · exact (isToken_numeral _).ne outside.1 number
  · rcases List.mem_cons.mp type with rfl | type
    · exact outside.2.symm
    · cases known : field.type with
      | primitive type' =>
        rw [known] at type
        exact (isToken_typeName type').ne outside.1 type
      | userDefined importIndex typeNameIndex typeName =>
        rw [known] at type
        rcases List.mem_append.mp type with number | more
        · exact (isToken_numeral _).ne outside.1 number
        · rcases List.mem_cons.mp more with rfl | number
          · exact outside.2.symm
          · exact (isToken_numeral _).ne outside.1 number

theorem fields_ne {fields : List FieldSource} {c b : Char} (outside : TokenCharacter b = false ∧ b ≠ ':' ∧ b ≠ ',')
    (member : c ∈ [','].intercalate (fields.map FieldSource.print)) : c ≠ b := by
  rcases mem_intercalate_comma member with rfl | ⟨text, known, here⟩
  · exact outside.2.2.symm
  · obtain ⟨field, _, rfl⟩ := List.mem_map.mp known
    exact field_ne ⟨outside.1, outside.2.1⟩ here

/-- Without fields there is one empty token, which is no field. -/
theorem readFields_print {fields : List FieldSource} (written : ∀ field ∈ fields, field.Written constValues) :
    (commaTokens ([','].intercalate (fields.map FieldSource.print))).mapM (readField constValues) =
      if fields = [] then .error .parseException
      else .ok (fields.map fun field => field.type.info (numeral field.nameIndex)) := by
  split
  · rename_i none
    subst none
    rfl
  · rename_i more
    rw [commaTokens_intercalate (by simpa using more)]
    · rw [List.mapM_map]
      exact mapM_ok fun field member => readField_print (written field member)
    · intro text known comma
      obtain ⟨field, _, rfl⟩ := List.mem_map.mp known
      exact field_ne (by decide) comma rfl
    · intro text known
      obtain ⟨field, _, rfl⟩ := List.mem_map.mp known
      simp [FieldSource.print]

end Fields
section Types
variable {constValues : List ConstValue} {type : TypeDefineSource} {types : List TypeDefineSource}

theorem fields_line (fields : List FieldSource) :
    ∀ c ∈ [','].intercalate (fields.map FieldSource.print), LineCharacter c = true := by
  intro c member
  have newline := fields_ne (b := '\n') (by decide) member
  have carriage := fields_ne (b := '\r') (by decide) member
  simp [LineCharacter, newline, carriage]

/-- A text with one bracket, at its end. -/
theorem bracket_last {text : Text} (before : ')' ∉ text) (n : Nat) : ¬[')', ':'] <+: (text ++ [')']).drop n := by
  intro starts
  rcases Nat.lt_or_ge text.length n with beyond | inside
  · rw [List.drop_of_length_le (by rw [List.length_append, List.length_singleton]; omega)] at starts
    exact absurd starts (by simp)
  · rw [List.drop_append_of_le_length inside] at starts
    cases left : text.drop n with
    | nil =>
      rw [left] at starts
      exact absurd starts.length_le (by simp)
    | cons c more =>
      rw [left, List.cons_append, List.cons_prefix_cons] at starts
      have member : c ∈ text := List.mem_of_mem_drop (left ▸ List.mem_cons_self)
      exact before (starts.1 ▸ member)

/-- The two patterns of a line tell the types with a parent from the others. -/
theorem readTypeDefine_print (written : type.Written constValues) (read : List VMType) :
    readTypeDefine constValues read type.print =
      if type.fields = [] then .error .parseException else .ok (read ++ [type.readAs]) := by
  have number (n : Nat) : ∀ c ∈ numeral n, Digit c = true := fun c member => digit_numeral member
  have bracket : ')' ∉ [','].intercalate (type.fields.map FieldSource.print) := fun member => fields_ne (by decide) member rfl
  have line := fields_line type.fields
  have fields := readFields_print written.fields
  have entry (parentInfo : Option TypeInfo) :
      (readType constValues (numeral type.nameIndex) ([','].intercalate (type.fields.map FieldSource.print)) (.ok parentInfo) >>=
        fun type => .ok (read ++ [type])) =
      if type.fields = [] then .error .parseException
      else .ok (read ++ [.make type.name (type.fields.map fun field => field.type.info (numeral field.nameIndex)) parentInfo]) := by
    rw [readType, stoull_written written.nameIndex, ok_bind, getConstValueAsString_named written.name, ok_bind, ok_bind, fields]
    split <;> rfl
  rw [readTypeDefine, TypeDefineSource.print, digits,
    fullMatch_repeated_literal (number _) (numeral_length _) (by decide), fullMatch_repeated_literal (number _)
      (numeral_length _) (by decide)]
  simp only [fullMatch_literal_cons, fullMatch_literal_nil]
  cases parent : type.parent with
  | none =>
    have first : fullMatch [.group (.repeated 0 LineCharacter), .literal [')', ':'], digits, .literal [':'], digits]
        ([','].intercalate (type.fields.map FieldSource.print) ++ [')']) = none :=
      fullMatch_repeated_none fun n => fullMatch_literal_none (bracket_last bracket n)
    rw [digits] at first
    simp only [Option.map_none, Option.getD_none]
    rw [first, fullMatch_repeated_absent line (Nat.zero_le _) bracket (by simp)]
    have nothing : fullMatch ([] : List (Piece Char)) [] = some [] := rfl
    rw [fullMatch_literal_cons, fullMatch_literal_nil, nothing]
    simp only [Option.map_some, Option.map_none]
    rw [entry, TypeDefineSource.readAs, TypeDefineSource.parentInfo, parent, Option.map_none]
  | some parent' =>
    have parentWritten := written.parent parent' parent
    have after : ')' ∉ ParentSource.print parent' := by
      intro member
      rcases List.mem_cons.mp member with colon | member
      · exact absurd colon (by decide)
      · rcases List.mem_append.mp member with number | member
        · exact not_mem_numeral (by decide) _ number
        · rcases List.mem_cons.mp member with colon | number
          · exact absurd colon (by decide)
          · exact not_mem_numeral (by decide) _ number
    simp only [Option.map_some, Option.getD_some]
    rw [fullMatch_repeated_absent line (Nat.zero_le _) bracket after, ParentSource.print]
    simp only [fullMatch_literal_cons, fullMatch_literal_nil]
    rw [fullMatch_repeated_literal (number _) (numeral_length _) (by decide)]
    simp only [fullMatch_literal_cons, fullMatch_literal_nil]
    rw [fullMatch_repeated_end (number _) (numeral_length _)]
    simp only [Option.map_some]
    rw [stoull_written parentWritten.importIndex, stoull_written parentWritten.nameIndex, ok_bind, ok_bind,
      getConstValueAsString_named parentWritten.name, ok_bind, entry, TypeDefineSource.readAs, TypeDefineSource.parentInfo,
      parent, Option.map_some]

theorem foldlM_prints (written : ∀ type ∈ types, type.Written constValues) (read : List VMType) :
    (types.map TypeDefineSource.print).foldlM (readTypeDefine constValues) read =
      if ∀ type ∈ types, type.fields ≠ [] then .ok (read ++ types.map TypeDefineSource.readAs) else .error .parseException := by
  induction types generalizing read with
  | nil =>
    rw [if_pos (by simp), List.map_nil, List.map_nil, List.append_nil]
    rfl
  | cons type types ih =>
    rw [List.map_cons, List.foldlM_cons, readTypeDefine_print (written type List.mem_cons_self)]
    by_cases none : type.fields = []
    · rw [if_pos none, if_neg (fun all => all type List.mem_cons_self none)]
      rfl
    · rw [if_neg none, ok_bind, ih fun other member => written other (List.mem_cons_of_mem type member)]
      simp [none]

/-- The types come back, and the text of the constant that a field is called
after is the name of the field. -/
structure TypesReturn (types : List TypeDefineSource) (behind : Text) (run : Except ParseFailure (List VMType × Text)) :
    Prop where
  returned : run = .ok (types.map TypeDefineSource.vmType, behind)
  fields : ∀ read left, run = .ok (read, left) → ∀ (i : Nat) source type, types[i]? = some source → read[i]? = some type →
    ∀ field ∈ source.fields, ∃ info ∈ type.fieldInfos, info.fieldName = field.name

theorem print_ne_end (type : TypeDefineSource) : type.print ≠ [] ∧ type.print ≠ END := by
  refine ⟨by simp [TypeDefineSource.print], fun same => ?_⟩
  have colon : ':' ∈ type.print := by simp [TypeDefineSource.print]
  exact absurd (same ▸ colon) (by decide)

theorem vmType_eq_readAs (type : TypeDefineSource) :
    type.vmType = type.readAs ↔ ∀ field ∈ type.fields, field.name = numeral field.nameIndex := by
  have info (field : FieldSource) :
      field.type.info field.name = field.type.info (numeral field.nameIndex) ↔ field.name = numeral field.nameIndex := by
    cases field.type <;> simp [FieldTypeSource.info]
  rw [TypeDefineSource.vmType, TypeDefineSource.readAs, VMType.make, VMType.make, VMType.mk.injEq]
  simp only [true_and, and_true, List.map_inj_left, info]

/-- Type definitions survive their text when every type has a field, and every
field is called after its number. -/
theorem parseTypeDefine_prints (constValues : List ConstValue) (written : ∀ type ∈ types, type.Written constValues)
    {code tail behind : Text} (shows : Shows tail (types.map TypeDefineSource.print) code) (closes : Closes END behind tail) :
    TypesReturn types behind (parseTypeDefine constValues code) ↔
      ∀ type ∈ types, type.fields ≠ [] ∧ ∀ field ∈ type.fields, field.name = numeral field.nameIndex := by
  rw [← List.append_nil (types.map _)] at shows
  have lines : ∀ line ∈ types.map TypeDefineSource.print, line ≠ [] ∧ line ≠ END := by
    intro line member
    obtain ⟨type, _, rfl⟩ := List.mem_map.mp member
    exact print_ne_end type
  obtain ⟨left, later, run⟩ := forLines_lines (readTypeDefine constValues) (by decide : END ≠ []) lines shows
  have parsed : parseTypeDefine constValues code =
      if ∀ type ∈ types, type.fields ≠ [] then .ok (types.map TypeDefineSource.readAs, behind) else .error .parseException := by
    rw [parseTypeDefine, run, foldlM_prints written, List.nil_append]
    split
    · rw [ok_bind, later.skip (by decide : END ≠ []), closes.finish (by decide : END ≠ [])]
    · rfl
  constructor
  · rintro ⟨returned, _⟩
    rw [parsed] at returned
    split at returned
    · rename_i fields
      have same := (Prod.mk.inj (Except.ok.inj returned)).1
      rw [List.map_inj_left] at same
      exact fun type member => ⟨fields type member, (vmType_eq_readAs type).mp (same type member).symm⟩
    · exact absurd returned (by simp)
  · intro named
    have same : types.map TypeDefineSource.readAs = types.map TypeDefineSource.vmType :=
      List.map_inj_left.mpr fun type member => ((vmType_eq_readAs type).mpr (named type member).2).symm
    rw [if_pos fun type member => (named type member).1, same] at parsed
    refine ⟨parsed, fun read left returned i source type atSource atType field member => ?_⟩
    obtain ⟨rfl, _⟩ := Prod.mk.inj (Except.ok.inj (parsed.symm.trans returned))
    rw [List.getElem?_map, atSource, Option.map_some] at atType
    obtain rfl := Option.some.inj atType
    refine ⟨field.type.info field.name, List.mem_map.mpr ⟨field, member, rfl⟩, ?_⟩
    cases field.type <;> rfl

end Types
/-- A type `T` with a field `a`. -/
def namedSource : TypeDefineSource := ⟨0, ['T'], [⟨1, ['a'], .primitive .i64⟩], none⟩

/-- The same with a field whose name is its number. -/
def numberedSource : TypeDefineSource := ⟨0, ['T'], [⟨1, ['1'], .userDefined 0 0 ['T']⟩], some ⟨0, 2, ['P']⟩⟩

theorem parseTypeDefine_prints_numbered :
    TypesReturn [numberedSource] [] (parseTypeDefine [⟨1, .string ['T']⟩, ⟨1, .string ['1']⟩, ⟨1, .string ['P']⟩]
      "  0:(1:0:0):0:2\n$end".toList) := by
  have written : ∀ type ∈ [numberedSource],
      type.Written [⟨1, .string ['T']⟩, ⟨1, .string ['1']⟩, ⟨1, .string ['P']⟩] := by
    intro type member
    obtain rfl := List.mem_singleton.mp member
    refine ⟨by decide, rfl, fun field member => ?_, fun parent same => ?_⟩
    · obtain rfl := List.mem_singleton.mp member
      exact ⟨by decide, rfl, by decide, by decide, rfl⟩
    · obtain rfl := Option.some.inj same
      exact ⟨by decide, by decide, rfl⟩
  have shows : Shows "$end".toList ([numberedSource].map TypeDefineSource.print) "  0:(1:0:0):0:2\n$end".toList :=
    shows_lines "$end".toList (show ∀ raw ∈ ["  0:(1:0:0):0:2".toList], '\n' ∉ raw by decide)
  refine (parseTypeDefine_prints _ written shows ⟨"$end".toList, by decide, by decide, .inr ⟨rfl, rfl⟩⟩).mpr ?_
  intro type member
  obtain rfl := List.mem_singleton.mp member
  exact ⟨by decide, by decide⟩

/-- The field `a` comes back under the name `1`. -/
theorem parseTypeDefine_named :
    parseTypeDefine [⟨1, .string ['T']⟩, ⟨1, .string ['a']⟩] "  0:(1:i64)\n$end".toList =
        .ok ([.make ['T'] [⟨['1'], some .i64, ⟨0, []⟩⟩] none], []) ∧
      ¬TypesReturn [namedSource] [] (parseTypeDefine [⟨1, .string ['T']⟩, ⟨1, .string ['a']⟩] "  0:(1:i64)\n$end".toList) := by
  have run : parseTypeDefine [⟨1, .string ['T']⟩, ⟨1, .string ['a']⟩] "  0:(1:i64)\n$end".toList =
      .ok ([.make ['T'] [⟨['1'], some .i64, ⟨0, []⟩⟩] none], []) := by decide +kernel
  refine ⟨run, fun same => ?_⟩
  have returned := run.symm.trans same.returned
  exact absurd (Except.ok.inj returned) (by decide)

end CatLa
