import CatLa.Parser.FunctionSection

namespace CatLa
open Outcome Pattern

/-- A line of `parse_import`. -/
def readImport (moduleName : Text) (constValues : List ConstValue) (moduleMap : List (Nat × Text)) (line : Text) :
    Except ParseFailure (List (Nat × Text)) :=
  match fullMatch [digits, .literal [':'], wordCharacters, .literal ['#'], digits] line with
  | some [indexText, target, targetIndexText] => do
    let index ← stoull indexText
    let targetIndex ← stoull targetIndexText
    let module ← if target = constName then getConstValueAsString constValues targetIndex else .ok []
    .ok ((index, module) :: moduleMap)
  | _ =>
    match fullMatch [digits, .literal [':', 't', 'h', 'i', 's']] line with
    | some [indexText] => do
      let index ← stoull indexText
      .ok ((index, moduleName) :: moduleMap)
    | _ => .error .parseException

/-- `sizeof(string)`. -/
def sizeofString : Nat := 32

/-- `sizeof(TypeInfo)`. -/
def sizeofTypeInfo : Nat := 40

/-- `parse_import`. -/
def parseImport (library : StandardLibrary) (moduleName : Text) (constValues : List ConstValue) (code : Text) :
    Except ParseFailure (List Text × Text) := do
  let (moduleMap, code) ← forLines END (.ofLine (readImport moduleName constValues)) [] code
  let moduleNames ← tableOf library sizeofString moduleMap
  .ok (moduleNames, code)

/-- A field of `parse_type_define`. Its name is the text of a number. -/
def readField (constValues : List ConstValue) (field : Text) : Except ParseFailure FieldInfo :=
  match fullMatch [digits, .literal [':'], wordCharacters] field with
  | some [fieldName, type] => do
    let primitiveType ← parsePrimitiveType type
    .ok ⟨fieldName, some primitiveType, ⟨0, []⟩⟩
  | _ =>
    match fullMatch [digits, .literal [':'], digits, .literal [':'], digits] field with
    | some [fieldName, importIndexText, typeNameIndex] => do
      let importIndex ← stoull importIndexText
      let typeName ← stoull typeNameIndex >>= getConstValueAsString constValues
      .ok ⟨fieldName, none, ⟨importIndex, typeName⟩⟩
    | _ => .error .parseException

/-- The fields of a type, with its name and its parent. -/
def readType (constValues : List ConstValue) (nameIndex fields : Text) (parentInfo : Except ParseFailure (Option TypeInfo)) :
    Except ParseFailure VMType := do
  let name ← stoull nameIndex >>= getConstValueAsString constValues
  let parentInfo ← parentInfo
  let fieldInfos ← (commaTokens fields).mapM (readField constValues)
  .ok (.make name fieldInfos parentInfo)

/-- A line of `parse_type_define`. -/
def readTypeDefine (constValues : List ConstValue) (types : List VMType) (line : Text) :
    Except ParseFailure (List VMType) :=
  let fields : Piece Char := .group (.repeated 0 LineCharacter)
  match fullMatch [digits, .literal [':', '('], fields, .literal [')', ':'], digits, .literal [':'], digits] line with
  | some [nameIndex, fields, importIndexText, parentNameIndex] => do
    let type ← readType constValues nameIndex fields do
      let importIndex ← stoull importIndexText
      let typeName ← stoull parentNameIndex >>= getConstValueAsString constValues
      .ok (some ⟨importIndex, typeName⟩)
    .ok (types ++ [type])
  | _ =>
    match fullMatch [digits, .literal [':', '('], fields, .literal [')']] line with
    | some [nameIndex, fields] => do
      let type ← readType constValues nameIndex fields (.ok none)
      .ok (types ++ [type])
    | _ => .error .parseException

/-- `parse_type_define`. -/
def parseTypeDefine (constValues : List ConstValue) (code : Text) : Except ParseFailure (List VMType × Text) :=
  forLines END (.ofLine (readTypeDefine constValues)) [] code

/-- A line of `parse_type`. The name of the type is the text of a number. -/
def readUsingType (typeMap : List (Nat × TypeInfo)) (line : Text) : Except ParseFailure (List (Nat × TypeInfo)) :=
  match fullMatch [digits, .literal [':'], digits, .literal [':'], digits] line with
  | some [indexText, importIndexText, typeName] => do
    let index ← stoull indexText
    let importIndex ← stoull importIndexText
    .ok ((index, ⟨importIndex, typeName⟩) :: typeMap)
  | _ => .error .parseException

/-- `parse_type`. -/
def parseType (library : StandardLibrary) (code : Text) : Except ParseFailure (List TypeInfo × Text) := do
  let (typeMap, code) ← forLines END (.ofLine readUsingType) [] code
  let typeInfos ← tableOf library sizeofTypeInfo typeMap
  .ok (typeInfos, code)

/-- The variables of `parse`. -/
structure Sections where
  constValues : List ConstValue
  importModuleNames : List Text
  typeDefines : List VMType
  usingTypes : List TypeInfo
  functions : List VMFunction

section Parser
variable (library : StandardLibrary) (name : Text)

/-- The section that begins behind this line, if one does. -/
def readSection (sections : Sections) (line code : Text) : Except ParseFailure (Sections × Text) :=
  if line = '$' :: constName then do
    let (constValues, code) ← parseConst library code
    .ok ({ sections with constValues }, code)
  else if line = ['$', 'i', 'm', 'p', 'o', 'r', 't'] then do
    let (importModuleNames, code) ← parseImport library name sections.constValues code
    .ok ({ sections with importModuleNames }, code)
  else if line = ['$', 't', 'y', 'p', 'e', 'd', 'e', 'f'] then do
    let (typeDefines, code) ← parseTypeDefine sections.constValues code
    .ok ({ sections with typeDefines }, code)
  else if line = ['$', 't', 'y', 'p', 'e'] then do
    let (usingTypes, code) ← parseType library code
    .ok ({ sections with usingTypes }, code)
  else if line = ['$', 'f', 'u', 'n', 'c', 't', 'i', 'o', 'n'] then do
    let (functions, code) ← parseFunction library sections.constValues code
    .ok ({ sections with functions }, code)
  else .ok (sections, code)

variable {library name}

theorem readSection_length {sections sections' : Sections} {line code left : Text}
    (run : readSection library name sections line code = .ok (sections', left)) : left.length ≤ code.length := by
  unfold readSection at run
  split at run
  · obtain ⟨⟨_, _⟩, read, same⟩ := bind_eq_ok.mp run
    rw [← (Prod.mk.inj (Except.ok.inj same)).2]
    exact parseConst_length read
  · split at run
    · obtain ⟨⟨_, _⟩, read, same⟩ := bind_eq_ok.mp run
      obtain ⟨⟨_, _⟩, lines, read⟩ := bind_eq_ok.mp read
      obtain ⟨_, _, table⟩ := bind_eq_ok.mp read
      rw [← (Prod.mk.inj (Except.ok.inj same)).2, ← (Prod.mk.inj (Except.ok.inj table)).2]
      exact forLines_length lines
    · split at run
      · obtain ⟨⟨_, _⟩, lines, same⟩ := bind_eq_ok.mp run
        rw [← (Prod.mk.inj (Except.ok.inj same)).2]
        exact forLines_length lines
      · split at run
        · obtain ⟨⟨_, _⟩, read, same⟩ := bind_eq_ok.mp run
          obtain ⟨⟨_, _⟩, lines, read⟩ := bind_eq_ok.mp read
          obtain ⟨_, _, table⟩ := bind_eq_ok.mp read
          rw [← (Prod.mk.inj (Except.ok.inj same)).2, ← (Prod.mk.inj (Except.ok.inj table)).2]
          exact forLines_length lines
        · split at run
          · obtain ⟨⟨_, _⟩, read, same⟩ := bind_eq_ok.mp run
            obtain ⟨⟨_, _⟩, lines, read⟩ := bind_eq_ok.mp read
            obtain ⟨_, _, table⟩ := bind_eq_ok.mp read
            rw [← (Prod.mk.inj (Except.ok.inj same)).2, ← (Prod.mk.inj (Except.ok.inj table)).2]
            exact forLines_length lines
          · rw [(Prod.mk.inj (Except.ok.inj run)).2]

variable (library name)

/-- The loop of `parse`. -/
def readSections (sections : Sections) (code : Text) : Except ParseFailure Sections :=
  if more : code = [] then .ok sections
  else
    have shorter := moveUntilNextLine_length more
    let next := moveUntilNextLine code
    match run : readSection library name sections next.1 next.2 with
    | .error failure => .error failure
    | .ok (sections, left) =>
      have _shorter := (readSection_length run).trans_lt shorter
      readSections sections left
termination_by code.length

/-- `parse`. Only a `ParseException` is caught. -/
def parse (code : Text) : Except ParseFailure (Option VMModule) :=
  match readSections library name ⟨[], [], [], [], []⟩ code with
  | .ok sections =>
    .ok (some (.make name sections.constValues sections.importModuleNames sections.typeDefines sections.usingTypes
      sections.functions))
  | .error .parseException => .ok none
  | .error failure => .error failure

end Parser

end CatLa
