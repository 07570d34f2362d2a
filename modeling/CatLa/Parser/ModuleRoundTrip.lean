import CatLa.Parser.MalformedText
import CatLa.Parser.TypeSection

namespace CatLa
open Outcome Pattern

section Tables
variable {library : StandardLibrary} {size : Nat} {ι π : Type} {items : List ι} {printed : List (Nat × ι)}
  {code tail behind : Text}

/-- An entry that is printed has the number of its item. -/
theorem arranged_entry (arranged : printed.Perm (items.zipIdx.map Prod.swap)) {entry : Nat × ι} (member : entry ∈ printed) :
    entry.1 < items.length ∧ entry.2 ∈ items := by
  obtain ⟨⟨item, index⟩, known, rfl⟩ := List.mem_map.mp (arranged.subset member)
  have inside := (List.mem_zipIdx known).2.1
  exact ⟨by dsimp only [Prod.swap]; omega, List.fst_mem_of_mem_zipIdx known⟩

theorem arranged_length (arranged : printed.Perm (items.zipIdx.map Prod.swap)) : printed.length = items.length := by
  simpa using arranged.length_eq

/-- The table of entries that were printed in any order. -/
theorem tableOf_printed (value : ι → π) (arranged : printed.Perm (items.zipIdx.map Prod.swap)) (count : items.length < 2 ^ 64) :
    tableOf library size (printed.map fun entry => (entry.1, value entry.2)).reverse = .ok (items.map value) :=
  tableOf_perm (by rwa [List.length_map]) (entered_perm value arranged)

theorem blocks_length {β : Type} (first : ι → β) (others : ι → List β) (items : List ι) :
    items.length ≤ (items.flatMap fun x => first x :: others x).length := by
  induction items with
  | nil => exact Nat.zero_le _
  | cons x items ih =>
    rw [List.flatMap_cons, List.length_append, List.length_cons, List.length_cons]
    omega

/-- A section of numbered items, each with its first line and the others. -/
theorem forLines_table (value : ι → π) {b : LineBody (List (Nat × π))} (first : Nat × ι → Text)
    (others : Nat × ι → List Text) (arranged : printed.Perm (items.zipIdx.map Prod.swap))
    (item : ∀ entry ∈ printed, first entry ≠ [] ∧ first entry ≠ END ∧ ∀ map more left, Shows tail (others entry ++ more) left →
      ∃ left', b.run map (first entry) left = .ok ((entry.1, value entry.2) :: map, left') ∧ Shows tail more left')
    (shows : Shows tail (printed.flatMap fun entry => first entry :: others entry) code) (closes : Closes END behind tail)
    (fits : code.length < 2 ^ 64) :
    (forLines END b [] code >>= fun read => tableOf library size read.1 >>= fun values => .ok (values, read.2)) =
      .ok (items.map value, behind) := by
  have count : items.length < 2 ^ 64 := by
    have same := arranged_length arranged
    have lines := blocks_length first others printed
    have bound := shows.length.1
    omega
  rw [← List.append_nil (printed.flatMap _)] at shows
  obtain ⟨left, run, later⟩ := forLines_items first others (fun map entry => (entry.1, value entry.2) :: map)
    (by decide : END ≠ []) item shows []
  rw [later.skip (by decide : END ≠ []), closes.finish (by decide : END ≠ [])] at run
  have entries : printed.foldl (fun map entry => (entry.1, value entry.2) :: map) [] =
      (printed.map fun entry => (entry.1, value entry.2)).reverse := by
    rw [List.foldl_flip_cons_eq_append, List.append_nil]
  rw [run, ok_bind, entries, tableOf_printed value arranged count, ok_bind]

end Tables

/-- An import: the module itself, or the one that a constant names. -/
inductive ImportSource
  | this
  | module (constIndex : Nat) (name : Text)
  deriving DecidableEq

namespace ImportSource

def print (entry : Nat × ImportSource) : Text :=
  numeral entry.1 ++
    match entry.2 with
    | this => [':', 't', 'h', 'i', 's']
    | module constIndex _ => ':' :: (constName ++ '#' :: numeral constIndex)

def name (moduleName : Text) : ImportSource → Text
  | this => moduleName
  | module _ name => name

def Written (constValues : List ConstValue) : ImportSource → Prop
  | this => True
  | module constIndex name => constIndex < SIZE_MAX ∧ NamesString constValues constIndex name

end ImportSource

/-- A type that is used: the import it comes from and its name, which is the
constant with this index. -/
structure UsingTypeSource where
  importIndex : Nat
  nameIndex : Nat
  name : Text
  deriving DecidableEq

namespace UsingTypeSource

def print (entry : Nat × UsingTypeSource) : Text :=
  numeral entry.1 ++ ':' :: (numeral entry.2.importIndex ++ ':' :: numeral entry.2.nameIndex)

/-- The type that is meant. -/
def info (type : UsingTypeSource) : TypeInfo := ⟨type.importIndex, type.name⟩

/-- The type that is read: its name is the number of the constant. -/
def readAs (type : UsingTypeSource) : TypeInfo := ⟨type.importIndex, numeral type.nameIndex⟩

structure Written (constValues : List ConstValue) (type : UsingTypeSource) : Prop where
  importIndex : type.importIndex < SIZE_MAX
  nameIndex : type.nameIndex < SIZE_MAX
  name : NamesString constValues type.nameIndex type.name

theorem info_eq_readAs (type : UsingTypeSource) : type.info = type.readAs ↔ type.name = numeral type.nameIndex := by
  simp [info, readAs]

end UsingTypeSource

section Sections
variable {library : StandardLibrary} {constValues : List ConstValue} {code tail behind : Text}

theorem entry_ne (index : Nat) (text : Text) : numeral index ++ ':' :: text ≠ [] ∧ numeral index ++ ':' :: text ≠ END := by
  refine ⟨by simp, fun same => ?_⟩
  have colon : ':' ∈ numeral index ++ ':' :: text := by simp
  exact absurd (same ▸ colon) (by decide)

theorem readImport_print {own : Text} {entry : Nat × ImportSource} (fits : entry.1 < 2 ^ 64)
    (written : entry.2.Written constValues) (map : List (Nat × Text)) :
    readImport own constValues map (ImportSource.print entry) = .ok ((entry.1, entry.2.name own) :: map) := by
  obtain ⟨index, source⟩ := entry
  dsimp only at fits written
  have number := stoull_numeral fits
  cases source with
  | this =>
    have other : fullMatch [digits, .literal [':'], wordCharacters, .literal ['#'], digits]
        (numeral index ++ [':', 't', 'h', 'i', 's']) = none := by
      have word : fullMatch [wordCharacters, .literal ['#'], digits] ['t', 'h', 'i', 's'] = none := by decide +kernel
      rw [digits_literal, word, Option.map_none]
    have this_ : fullMatch [digits, .literal [':', 't', 'h', 'i', 's']] (numeral index ++ [':', 't', 'h', 'i', 's']) =
        some [numeral index] := by
      rw [digits, fullMatch_repeated_literal (fun _ member => digit_numeral member) (numeral_length index) (by decide)]
      rfl
    simp only [readImport, ImportSource.print, other, this_, number, ok_bind]
    rfl
  | module constIndex name =>
    have target : fullMatch [digits, .literal [':'], wordCharacters, .literal ['#'], digits]
        (numeral index ++ ':' :: (constName ++ '#' :: numeral constIndex)) =
        some [numeral index, constName, numeral constIndex] := by
      have word : IsWord constName := by decide
      rw [digits_literal, wordCharacters, fullMatch_repeated_literal word.2 (List.length_pos_iff.mpr word.1) (by decide),
        fullMatch_literal_cons, fullMatch_literal_nil, digits_numeral]
      rfl
    simp only [readImport, ImportSource.print, target, number, ok_bind, stoull_written written.1, if_true,
      getConstValueAsString_named written.2]
    rfl

theorem readUsingType_print {entry : Nat × UsingTypeSource} (fits : entry.1 < 2 ^ 64)
    (written : entry.2.Written constValues) (map : List (Nat × TypeInfo)) :
    readUsingType map (UsingTypeSource.print entry) = .ok ((entry.1, entry.2.readAs) :: map) := by
  have line : fullMatch [digits, .literal [':'], digits, .literal [':'], digits] (UsingTypeSource.print entry) =
      some [numeral entry.1, numeral entry.2.importIndex, numeral entry.2.nameIndex] := by
    rw [UsingTypeSource.print, digits_literal, digits_literal, digits_numeral]
    rfl
  simp only [readUsingType, line, stoull_numeral fits, stoull_written written.importIndex, ok_bind]
  rfl

/-- A section of numbered lines that are read one by one. -/
theorem forLines_numbered {size : Nat} {ι π : Type} {items : List ι} {printed : List (Nat × ι)} (value : ι → π) (print : Nat × ι → Text)
    (read : List (Nat × π) → Text → Except ParseFailure (List (Nat × π)))
    (arranged : printed.Perm (items.zipIdx.map Prod.swap)) (visible : ∀ entry, print entry ≠ [] ∧ print entry ≠ END)
    (line : ∀ entry ∈ printed, entry.1 < 2 ^ 64 → ∀ map, read map (print entry) = .ok ((entry.1, value entry.2) :: map))
    (shows : Shows tail (printed.map print) code) (closes : Closes END behind tail) (fits : code.length < 2 ^ 64) :
    (forLines END (.ofLine read) [] code >>= fun read => tableOf library size read.1 >>= fun values => .ok (values, read.2)) =
      .ok (items.map value, behind) := by
  have count : printed.length ≤ code.length := by simpa using shows.length.1
  have same := arranged_length arranged
  rw [List.map_eq_flatMap] at shows
  refine forLines_table value print (fun _ => []) arranged (fun entry member => ?_) shows closes fits
  refine ⟨(visible entry).1, (visible entry).2, fun map more left shows => ⟨left, ?_, shows⟩⟩
  have inside := (arranged_entry arranged member).1
  rw [LineBody.ofLine_run, line entry member (by omega)]
  rfl

theorem parseImport_prints (own : Text) {imports : List ImportSource} {printed : List (Nat × ImportSource)}
    (written : ∀ source ∈ imports, source.Written constValues) (arranged : printed.Perm (imports.zipIdx.map Prod.swap))
    (shows : Shows tail (printed.map ImportSource.print) code) (closes : Closes END behind tail) (fits : code.length < 2 ^ 64) :
    parseImport library own constValues code = .ok (imports.map (ImportSource.name own), behind) := by
  refine forLines_numbered (ImportSource.name own) ImportSource.print (readImport own constValues) arranged (fun entry => ?_)
    (fun entry member index map => ?_) shows closes fits
  · obtain ⟨index, source⟩ := entry
    cases source <;> exact entry_ne index _
  · exact readImport_print index (written entry.2 (arranged_entry arranged member).2) map

theorem parseType_prints {types : List UsingTypeSource} {printed : List (Nat × UsingTypeSource)}
    (written : ∀ type ∈ types, type.Written constValues) (arranged : printed.Perm (types.zipIdx.map Prod.swap))
    (shows : Shows tail (printed.map UsingTypeSource.print) code) (closes : Closes END behind tail)
    (fits : code.length < 2 ^ 64) : parseType library code = .ok (types.map UsingTypeSource.readAs, behind) := by
  refine forLines_numbered UsingTypeSource.readAs UsingTypeSource.print readUsingType arranged (fun entry => entry_ne entry.1 _)
    (fun entry member index map => ?_) shows closes fits
  exact readUsingType_print index (written entry.2 (arranged_entry arranged member).2) map

/-- A type is read with the numbers of its fields for their names. -/
theorem parseTypeDefine_readAs {types : List TypeDefineSource} (written : ∀ type ∈ types, type.Written constValues)
    (fields : ∀ type ∈ types, type.fields ≠ []) (shows : Shows tail (types.map TypeDefineSource.print) code)
    (closes : Closes END behind tail) :
    parseTypeDefine constValues code = .ok (types.map TypeDefineSource.readAs, behind) := by
  rw [← List.append_nil (types.map _)] at shows
  obtain ⟨left, later, run⟩ := forLines_lines (readTypeDefine constValues) (by decide : END ≠ []) (fun line member => by
    obtain ⟨type, _, rfl⟩ := List.mem_map.mp member
    exact print_ne_end type) shows
  rw [parseTypeDefine, run, foldlM_prints written, List.nil_append, if_pos fields, ok_bind,
    later.skip (by decide : END ≠ []), closes.finish (by decide : END ≠ [])]

theorem parseFunction_prints {functions : List FunctionSource} {printed : List (Nat × FunctionSource)}
    (written : ∀ function ∈ functions, function.Written constValues) (arranged : printed.Perm (functions.zipIdx.map Prod.swap))
    (shows : Shows tail (functionLines printed) code) (closes : Closes END behind tail) (fits : code.length < 2 ^ 64) :
    parseFunction library constValues code = .ok (functions.map FunctionSource.vmFunction, behind) := by
  have same := arranged_length arranged
  obtain ⟨lines, line⟩ := shows.length
  have bound := functionLines_length printed
  refine forLines_table (b := ⟨readFunction library constValues, readFunction_length library constValues⟩) FunctionSource.vmFunction
    (fun entry => entry.2.header entry.1) (fun entry => entry.2.body) arranged (fun entry member => ?_) shows closes fits
  refine ⟨header_ne_nil _ _, header_ne_end _ _, fun map more left shows => ?_⟩
  have header := line (entry.2.header entry.1) (List.mem_flatMap.mpr ⟨_, member, List.mem_cons_self⟩)
  have arguments := arguments_length entry.1 entry.2
  obtain ⟨inside, known⟩ := arranged_entry arranged member
  exact readFunction_shows (written entry.2 known) (by omega) (by omega) map shows

/-- The section of the constants ends with its `$end`, behind empty lines. -/
theorem readConsts_closes {map : List (Nat × ConstValue)} (closes : Closes END behind tail) : readConsts library map tail = .ok (map, behind) := by
  obtain ⟨raw, oneLine, shown, rfl | ⟨rfl, rfl⟩⟩ := closes
  · rw [readConsts_pass (by simp) (moveUntilNextLine_line oneLine _), if_pos shown]
  · have more : tail ≠ [] := by
      rintro rfl
      exact absurd shown (by decide)
    rw [readConsts_pass more (moveUntilNextLine_last oneLine), if_pos shown]

theorem parseConst_prints {constants : List Constant} {entries : List ConstEntry}
    (arranged : (entries.map fun entry => (entry.index, entry.constant)).Perm (constants.zipIdx.map Prod.swap))
    (emptyLines : List Nat) (closes : Closes END behind tail) (fits : (entries.flatMap ConstEntry.print).length < 2 ^ 64) :
    parseConst library (entries.flatMap ConstEntry.print ++ (emptyLines.flatMap (fun n => spaces n ++ ['\n']) ++ tail)) =
      .ok (constants.map Constant.value, behind) := by
  have bounds := entries_length entries
  have same : entries.length = constants.length := by simpa using arranged.length_eq
  have index : ∀ entry ∈ entries, entry.index < 2 ^ 64 := by
    intro entry member
    have inside := (arranged_entry arranged (List.mem_map_of_mem member)).1
    dsimp only at inside
    omega
  have size : ∀ entry ∈ entries, entry.constant.text.length < 2 ^ 64 := fun entry member => (bounds.2 entry member).trans_lt fits
  have table := constTableOf_perm library (by rw [List.length_map]; omega) (entered_perm Constant.value arranged)
  rw [List.map_map] at table
  rw [parseConst, readConsts_entries entries _ index size, readConsts_emptyLines, readConsts_closes closes, ok_bind,
    List.append_nil]
  exact congrArg (· >>= _) table

end Sections

def importName : Text := ['i', 'm', 'p', 'o', 'r', 't']
def typedefName : Text := ['t', 'y', 'p', 'e', 'd', 'e', 'f']
def typeName : Text := ['t', 'y', 'p', 'e']
def functionName : Text := ['f', 'u', 'n', 'c', 't', 'i', 'o', 'n']

/-- A module before it is written down. -/
structure ModuleSource where
  constants : List Constant
  imports : List ImportSource
  types : List TypeDefineSource
  usingTypes : List UsingTypeSource
  functions : List FunctionSource

namespace ModuleSource

def constValues (source : ModuleSource) : List ConstValue := source.constants.map Constant.value

/-- The module that is meant, under this name. -/
def module (source : ModuleSource) (own : Text) : VMModule :=
  .make own source.constValues (source.imports.map (ImportSource.name own)) (source.types.map TypeDefineSource.vmType)
    (source.usingTypes.map UsingTypeSource.info) (source.functions.map FunctionSource.vmFunction)

/-- The module that is read: its fields and the types that it uses have the
numbers of their names. -/
def readAs (source : ModuleSource) (own : Text) : VMModule :=
  { source.module own with
    typeDefines := source.types.map TypeDefineSource.readAs
    usingTypeInfos := source.usingTypes.map UsingTypeSource.readAs }

/-- All names that are read as numbers are these numbers. -/
structure NamedByNumbers (source : ModuleSource) : Prop where
  fields : ∀ type ∈ source.types, ∀ field ∈ type.fields, field.name = numeral field.nameIndex
  usingTypes : ∀ type ∈ source.usingTypes, type.name = numeral type.nameIndex

/-- What there is to read of it. -/
def sections (source : ModuleSource) (own : Text) : Sections where
  constValues := source.constValues
  importModuleNames := source.imports.map (ImportSource.name own)
  typeDefines := source.types.map TypeDefineSource.readAs
  usingTypes := source.usingTypes.map UsingTypeSource.readAs
  functions := source.functions.map FunctionSource.vmFunction

@[simp] theorem sections_constValues (source : ModuleSource) (own : Text) :
    (source.sections own).constValues = source.constValues := rfl

structure Written (source : ModuleSource) : Prop where
  imports : ∀ entry ∈ source.imports, entry.Written source.constValues
  types : ∀ type ∈ source.types, type.Written source.constValues
  fields : ∀ type ∈ source.types, type.fields ≠ []
  usingTypes : ∀ type ∈ source.usingTypes, type.Written source.constValues
  functions : ∀ function ∈ source.functions, function.Written source.constValues

/-- The names of the types are read as they are meant. -/
theorem typeDefineMap_readAs (types : List TypeDefineSource) :
    buildTypeDefineMap (types.map TypeDefineSource.readAs) = buildTypeDefineMap (types.map TypeDefineSource.vmType) := by
  simp only [buildTypeDefineMap, List.zipIdx_map, List.foldl_map]
  rfl

theorem make_sections (source : ModuleSource) (own : Text) :
    VMModule.make own (source.sections own).constValues (source.sections own).importModuleNames
      (source.sections own).typeDefines (source.sections own).usingTypes (source.sections own).functions =
      source.readAs own := by
  simp only [VMModule.make, sections, typeDefineMap_readAs]
  rfl

theorem readAs_eq_module (source : ModuleSource) (own : Text) : source.readAs own = source.module own ↔ source.NamedByNumbers := by
  have types : source.types.map TypeDefineSource.readAs = source.types.map TypeDefineSource.vmType ↔
      ∀ type ∈ source.types, ∀ field ∈ type.fields, field.name = numeral field.nameIndex := by
    simp only [List.map_inj_left, eq_comm.trans (vmType_eq_readAs _)]
  have usingTypes : source.usingTypes.map UsingTypeSource.readAs = source.usingTypes.map UsingTypeSource.info ↔
      ∀ type ∈ source.usingTypes, type.name = numeral type.nameIndex := by
    simp only [List.map_inj_left, eq_comm.trans (UsingTypeSource.info_eq_readAs _)]
  constructor
  · intro same
    exact ⟨types.mp (congrArg VMModule.typeDefines same), usingTypes.mp (congrArg VMModule.usingTypeInfos same)⟩
  · rintro ⟨fields, names⟩
    rw [readAs, types.mpr fields, usingTypes.mpr names]
    rfl

end ModuleSource

/-- What stands between the line that begins a section and the line behind it,
and what is known of the module afterwards. A section has its entries in any
order; it refers to the constants that were printed before it. -/
inductive PrintsSection (source : ModuleSource) : Text → Text → Text → ModuleSource → Prop
  | consts {constants : List Constant} {entries : List ConstEntry} {emptyLines : List Nat} {tail behind : Text}
      (arranged : (entries.map fun entry => (entry.index, entry.constant)).Perm (constants.zipIdx.map Prod.swap))
      (closes : Closes END behind tail) :
      PrintsSection source constName
        (entries.flatMap ConstEntry.print ++ (emptyLines.flatMap (fun n => spaces n ++ ['\n']) ++ tail)) behind
        { source with constants }
  | imports {imports : List ImportSource} {printed : List (Nat × ImportSource)} {text tail behind : Text}
      (written : ∀ entry ∈ imports, entry.Written source.constValues) (arranged : printed.Perm (imports.zipIdx.map Prod.swap))
      (shows : Shows tail (printed.map ImportSource.print) text) (closes : Closes END behind tail) :
      PrintsSection source importName text behind { source with imports }
  | typeDefines {types : List TypeDefineSource} {text tail behind : Text}
      (written : ∀ type ∈ types, type.Written source.constValues) (fields : ∀ type ∈ types, type.fields ≠ [])
      (shows : Shows tail (types.map TypeDefineSource.print) text) (closes : Closes END behind tail) :
      PrintsSection source typedefName text behind { source with types }
  | usingTypes {usingTypes : List UsingTypeSource} {printed : List (Nat × UsingTypeSource)} {text tail behind : Text}
      (written : ∀ type ∈ usingTypes, type.Written source.constValues)
      (arranged : printed.Perm (usingTypes.zipIdx.map Prod.swap))
      (shows : Shows tail (printed.map UsingTypeSource.print) text) (closes : Closes END behind tail) :
      PrintsSection source typeName text behind { source with usingTypes }
  | functions {functions : List FunctionSource} {printed : List (Nat × FunctionSource)} {text tail behind : Text}
      (written : ∀ function ∈ functions, function.Written source.constValues)
      (arranged : printed.Perm (functions.zipIdx.map Prod.swap)) (shows : Shows tail (functionLines printed) text)
      (closes : Closes END behind tail) :
      PrintsSection source functionName text behind { source with functions }

/-- The text of a module, from these sections on up to the last ones. Sections
come in any order and may come again, a later one instead of an earlier one;
lines that begin no section are passed over. -/
inductive Prints : ModuleSource → Text → ModuleSource → Prop
  | done {source} : Prints source [] source
  | other {source last} {raw code : Text} (oneLine : '\n' ∉ raw)
      (plain : raw.filter (· ≠ ' ') ∉ [constName, importName, typedefName, typeName, functionName].map ('$' :: ·))
      (rest : Prints source code last) : Prints source (raw ++ '\n' :: code) last
  | next {source after last} {raw keyword text code : Text} (oneLine : '\n' ∉ raw)
      (begins : raw.filter (· ≠ ' ') = '$' :: keyword) (prints : PrintsSection source keyword text code after)
      (rest : Prints after code last) : Prints source (raw ++ '\n' :: text) last

section Module
variable {library : StandardLibrary} {own : Text} {sections : Sections} {source source' last : ModuleSource}
  {code left keyword : Text}

theorem readSection_other {line : Text}
    (plain : line ∉ [constName, importName, typedefName, typeName, functionName].map ('$' :: ·)) :
    readSection library own sections line code = .ok (sections, code) := by
  simp only [importName, typedefName, typeName, functionName, List.map_cons, List.map_nil, List.mem_cons, List.not_mem_nil,
    or_false, not_or] at plain
  obtain ⟨const, import_, typedef, type, function⟩ := plain
  rw [readSection, if_neg const, if_neg import_, if_neg typedef, if_neg type, if_neg function]

theorem readSection_prints (library : StandardLibrary)
    (prints : PrintsSection source keyword code left source') (fits : code.length < 2 ^ 64) :
    readSection library own (source.sections own) ('$' :: keyword) code = .ok (source'.sections own, left) := by
  cases prints with
  | @consts constants entries emptyLines tail behind arranged closes =>
    have short : (entries.flatMap ConstEntry.print).length < 2 ^ 64 := by
      rw [List.length_append] at fits
      omega
    rw [readSection, if_pos rfl, parseConst_prints arranged emptyLines closes short]
    rfl
  | imports written arranged shows closes =>
    unfold importName
    rw [readSection, if_neg (by decide), if_pos rfl, ModuleSource.sections_constValues,
      parseImport_prints own written arranged shows closes fits]
    rfl
  | typeDefines written fields shows closes =>
    unfold typedefName
    rw [readSection, if_neg (by decide), if_neg (by decide), if_pos rfl, ModuleSource.sections_constValues,
      parseTypeDefine_readAs written fields shows closes]
    rfl
  | usingTypes written arranged shows closes =>
    unfold typeName
    rw [readSection, if_neg (by decide), if_neg (by decide), if_neg (by decide), if_pos rfl,
      parseType_prints written arranged shows closes fits]
    rfl
  | functions written arranged shows closes =>
    unfold functionName
    rw [readSection, if_neg (by decide), if_neg (by decide), if_neg (by decide), if_neg (by decide), if_pos rfl,
      ModuleSource.sections_constValues, parseFunction_prints written arranged shows closes fits]
    rfl

theorem readSections_prints (library : StandardLibrary) (prints : Prints source code last)
    (fits : code.length < 2 ^ 64) : readSections library own (source.sections own) code = .ok (last.sections own) := by
  induction prints with
  | done => rw [readSections, dif_pos rfl]
  | other oneLine plain _ ih =>
    rw [List.length_append, List.length_cons] at fits
    rw [readSections_pass (by simp) (moveUntilNextLine_line oneLine _), readSection_other plain]
    exact ih (by omega)
  | next oneLine begins prints _ ih =>
    rw [List.length_append, List.length_cons] at fits
    have read := @readSection_prints own _ _ _ _ _ library prints (by omega)
    have shorter := readSection_length read
    rw [readSections_pass (by simp) (moveUntilNextLine_line oneLine _), begins, read]
    exact ih (by omega)

end Module

namespace ModuleSource

/-- The lines of a section, from `$keyword` to `$end`, and what is behind it. -/
def printSection (keyword : Text) (lines : List Text) (behind : Text) : Text :=
  '$' :: keyword ++ '\n' :: (lines.flatMap (· ++ ['\n']) ++ (END ++ '\n' :: behind))

def constEntries (source : ModuleSource) : List ConstEntry :=
  source.constants.zipIdx.map fun entry => ⟨⟨[], 2⟩, entry.2, entry.1⟩

/-- A text of the module, section by section. -/
def print (source : ModuleSource) : Text :=
  '$' :: constName ++ '\n' :: (source.constEntries.flatMap ConstEntry.print ++ (END ++ '\n' ::
    printSection importName ((source.imports.zipIdx.map Prod.swap).map ImportSource.print)
      (printSection typedefName (source.types.map TypeDefineSource.print)
        (printSection typeName ((source.usingTypes.zipIdx.map Prod.swap).map UsingTypeSource.print)
          (printSection functionName (functionLines (source.functions.zipIdx.map Prod.swap)) [])))))

end ModuleSource

/-- Nothing in the text is passed over or ends its line. -/
def Unspaced (text : Text) : Prop := ∀ c ∈ text, c ≠ ' ' ∧ c ≠ '\n'

@[simp] theorem unspaced_nil : Unspaced [] := fun _ member => absurd member List.not_mem_nil

@[simp] theorem unspaced_cons {c : Char} {text : Text} : Unspaced (c :: text) ↔ (c ≠ ' ' ∧ c ≠ '\n') ∧ Unspaced text := by
  simp [Unspaced]

@[simp] theorem unspaced_append {left right : Text} : Unspaced (left ++ right) ↔ Unspaced left ∧ Unspaced right :=
  List.forall_mem_append

theorem IsToken.unspaced {token : Text} (plain : IsToken token) : Unspaced token :=
  fun _ member => ⟨plain.ne (by decide) member, plain.ne (by decide) member⟩

@[simp] theorem unspaced_numeral (n : Nat) : Unspaced (numeral n) := (isToken_numeral n).unspaced

@[simp] theorem unspaced_typeName (type : PrimitiveType) : Unspaced type.name := (isToken_typeName type).unspaced

theorem unspaced_intercalate {tokens : List Text} (each : ∀ token ∈ tokens, Unspaced token) :
    Unspaced ([','].intercalate tokens) := by
  induction tokens with
  | nil => exact unspaced_nil
  | cons token tokens ih =>
    have first := each token List.mem_cons_self
    have later := ih fun other member => each other (List.mem_cons_of_mem token member)
    by_cases last : tokens = []
    · subst last
      simpa using first
    · rw [List.intercalate_cons_of_ne_nil last]
      simp [first, later]

section Printing
variable {constValues : List ConstValue}

theorem unspaced_import (entry : Nat × ImportSource) : Unspaced (ImportSource.print entry) := by
  obtain ⟨index, source⟩ := entry
  cases source <;> simp [ImportSource.print, constName]

theorem unspaced_usingType (entry : Nat × UsingTypeSource) : Unspaced (UsingTypeSource.print entry) := by
  simp [UsingTypeSource.print]

theorem unspaced_typeDefine (type : TypeDefineSource) : Unspaced type.print := by
  have fields : Unspaced ([','].intercalate (type.fields.map FieldSource.print)) := by
    refine unspaced_intercalate fun token member => ?_
    obtain ⟨⟨nameIndex, name, fieldType⟩, _, rfl⟩ := List.mem_map.mp member
    cases fieldType <;> simp [FieldSource.print, FieldTypeSource.print]
  have parent : Unspaced ((type.parent.map ParentSource.print).getD []) := by
    cases type.parent <;> simp [ParentSource.print]
  simp [TypeDefineSource.print, fields, parent]

theorem unspaced_type (type : TypeSource) : Unspaced type.print := by
  cases type with
  | primitive type => exact unspaced_typeName type
  | userDefined typeIndex => exact (isToken_indexText (by decide) typeIndex).unspaced

theorem unspaced_order {order : OrderSource} (written : order.Written constValues) : Unspaced order.print :=
  fun _ member => ⟨print_ne written (by decide) member, print_ne written (by decide) member⟩

theorem unspaced_header (index : Nat) (function : FunctionSource) : Unspaced (function.header index) := by
  have arguments : Unspaced ([','].intercalate function.argumentTexts) := by
    refine unspaced_intercalate fun token member => ?_
    obtain ⟨argument, _, rfl⟩ := List.mem_map.mp member
    simp [unspaced_type]
  simp [FunctionSource.header, arguments, unspaced_type]

theorem unspaced_block {block : BlockSource} (written : block.Written constValues) :
    ∀ line ∈ block.header :: block.body, line ≠ [] ∧ Unspaced line := by
  have header : Unspaced block.header := by simp [BlockSource.header, written.labelName.isToken.unspaced]
  intro line member
  rw [BlockSource.body, List.mem_cons, List.mem_append, List.mem_map, List.mem_singleton] at member
  rcases member with rfl | ⟨order, inside, rfl⟩ | rfl
  · exact ⟨by simp [BlockSource.header], header⟩
  · exact ⟨print_ne_nil order, unspaced_order (written.orders order inside)⟩
  · exact ⟨by decide, by simp [labelEnd]⟩

theorem unspaced_function {function : FunctionSource} (written : function.Written constValues) (index : Nat) :
    ∀ line ∈ function.header index :: function.body, line ≠ [] ∧ Unspaced line := by
  intro line member
  rw [FunctionSource.body, List.mem_cons, List.mem_append, List.mem_flatMap, List.mem_singleton] at member
  rcases member with rfl | ⟨block, inside, member⟩ | rfl
  · exact ⟨header_ne_nil index function, unspaced_header index function⟩
  · exact unspaced_block (written.blocks block inside) line member
  · exact ⟨by decide, by simp⟩

/-- Lines without spaces are shown as they are. -/
theorem shows_unspaced (rest : Text) {lines : List Text} (plain : ∀ line ∈ lines, Unspaced line) :
    Shows rest lines (lines.flatMap (· ++ ['\n']) ++ rest) := by
  induction lines with
  | nil => exact .done
  | cons line lines ih =>
    have here := plain line List.mem_cons_self
    have same : line.filter (· ≠ ' ') = line := List.filter_eq_self.mpr fun c member => by simpa using (here c member).1
    have shown := Shows.line (fun member => (here '\n' member).2 rfl) (ih fun other later => plain other (List.mem_cons_of_mem line later))
    rw [same] at shown
    rwa [List.flatMap_cons, List.append_assoc, List.append_assoc, List.singleton_append]

theorem closes_end (behind : Text) : Closes END behind (END ++ '\n' :: behind) :=
  ⟨END, by decide, by decide, .inl rfl⟩

theorem prints_section {keyword code behind : Text} {source after last : ModuleSource} (word : IsToken keyword)
    (prints : PrintsSection source keyword code behind after) (rest : Prints after behind last) :
    Prints source ('$' :: keyword ++ '\n' :: code) last := by
  have plain : Unspaced ('$' :: keyword) := by simp [word.unspaced]
  exact .next (fun member => (plain '\n' member).2 rfl)
    (List.filter_eq_self.mpr fun c member => by simpa using (plain c member).1) prints rest

/-- The text of a module prints it. -/
theorem ModuleSource.prints {source : ModuleSource} (written : source.Written) :
    Prints ⟨[], [], [], [], []⟩ source.print source := by
  have entries : (source.constEntries.map fun entry => (entry.index, entry.constant)).Perm (source.constants.zipIdx.map Prod.swap) := by
    rw [ModuleSource.constEntries, List.map_map]
    exact .refl _
  refine prints_section (by decide) (@PrintsSection.consts _ _ _ [] _ _ entries (closes_end _)) ?_
  refine prints_section (by decide) (.imports written.imports (.refl _) (shows_unspaced _ fun line member => ?_) (closes_end _)) ?_
  · obtain ⟨entry, _, rfl⟩ := List.mem_map.mp member
    exact unspaced_import entry
  refine prints_section (by decide)
    (.typeDefines written.types written.fields (shows_unspaced _ fun line member => ?_) (closes_end _)) ?_
  · obtain ⟨type, _, rfl⟩ := List.mem_map.mp member
    exact unspaced_typeDefine type
  refine prints_section (by decide) (.usingTypes written.usingTypes (.refl _) (shows_unspaced _ fun line member => ?_) (closes_end _)) ?_
  · obtain ⟨entry, _, rfl⟩ := List.mem_map.mp member
    exact unspaced_usingType entry
  refine prints_section (by decide) (.functions written.functions (.refl _) (shows_unspaced _ fun line member => ?_) (closes_end _)) .done
  obtain ⟨entry, listed, member⟩ := List.mem_flatMap.mp member
  obtain ⟨⟨function, index⟩, known, rfl⟩ := List.mem_map.mp listed
  exact (unspaced_function (written.functions function (List.fst_mem_of_mem_zipIdx known)) index line member).2

end Printing

section Parse
variable {code : Text} {last : ModuleSource}

theorem parse_readAs (library : StandardLibrary) (own : Text) (prints : Prints ⟨[], [], [], [], []⟩ code last)
    (fits : code.length < 2 ^ 64) : parse library own code = .ok (some (last.readAs own)) := by
  have read := @readSections_prints own _ _ _ library prints fits
  rw [parse, show (⟨[], [], [], [], []⟩ : Sections) = (⟨[], [], [], [], []⟩ : ModuleSource).sections own from rfl, read,
    ← last.make_sections own]

/-- A module survives its text, except that names of fields and of the types it
uses are read as numbers: it is the module that is meant if these are its names. -/
theorem parse_prints (library : StandardLibrary) (own : Text) (prints : Prints ⟨[], [], [], [], []⟩ code last)
    (fits : code.length < 2 ^ 64) :
    parse library own code = .ok (some (last.readAs own)) ∧ (last.readAs own = last.module own ↔ last.NamedByNumbers) :=
  ⟨parse_readAs library own prints fits, last.readAs_eq_module own⟩

/-- The names of the types and fields of the text in `main`. -/
def sampleNames : Nat → Text
  | 4 => "TestClass".toList
  | 5 => "TestClass2".toList
  | 6 => ['a']
  | 7 => ['b']
  | _ => ['c']

/-- The module of the text in `main`, with these names. -/
def sampleSource (name : Nat → Text) : ModuleSource where
  constants := [.string "nyan".toList, .integer 20, .integer 100, .integer 1000, .string (name 4), .string (name 5),
    .string (name 6), .string (name 7), .string (name 8)]
  imports := [.this]
  types := [⟨4, name 4, [⟨6, name 6, .primitive .i64⟩, ⟨7, name 7, .userDefined 0 5 (name 5)⟩], some ⟨0, 5, name 5⟩⟩,
    ⟨5, name 5, [⟨8, name 8, .primitive .i64⟩], none⟩]
  usingTypes := [⟨0, 4, name 4⟩, ⟨0, 5, name 5⟩]
  functions := [⟨0, "nyan".toList, 0, 5, [.primitive .i64, .primitive .i64, .primitive .i64, .userDefined 0], .primitive .i64,
    [⟨"entry".toList, [.arg 0 0, .arg 1 1, .iadd 2 .i64 0 1, .arg 3 2, .iadd 4 .i64 2 3, .ret 4]⟩]⟩]

theorem sampleSource_written (name : Nat → Text) : (sampleSource name).Written := by
  have small (n : Nat) (bound : n < 9) : n < SIZE_MAX := bound.trans (by decide)
  refine ⟨fun entry member => ?_, fun type member => ?_, fun type member => ?_, fun type member => ?_, fun function member => ?_⟩
  · obtain rfl := List.mem_singleton.mp member
    trivial
  · simp only [sampleSource, List.mem_cons, List.not_mem_nil, or_false] at member
    rcases member with rfl | rfl
    · refine ⟨small 4 (by decide), rfl, fun field member => ?_, fun parent same => ?_⟩
      · simp only [List.mem_cons, List.not_mem_nil, or_false] at member
        rcases member with rfl | rfl
        · exact ⟨small 6 (by decide), rfl, trivial⟩
        · exact ⟨small 7 (by decide), rfl, small 0 (by decide), small 5 (by decide), rfl⟩
      · obtain rfl := Option.some.inj same
        exact ⟨small 0 (by decide), small 5 (by decide), rfl⟩
    · refine ⟨small 5 (by decide), rfl, fun field member => ?_, fun parent same => absurd same (by simp)⟩
      obtain rfl := List.mem_singleton.mp member
      exact ⟨small 8 (by decide), rfl, trivial⟩
  · simp only [sampleSource, List.mem_cons, List.not_mem_nil, or_false] at member
    rcases member with rfl | rfl <;> simp
  · simp only [sampleSource, List.mem_cons, List.not_mem_nil, or_false] at member
    rcases member with rfl | rfl
    · exact ⟨small 0 (by decide), small 4 (by decide), rfl⟩
    · exact ⟨small 0 (by decide), small 5 (by decide), rfl⟩
  · obtain rfl := List.mem_singleton.mp member
    refine ⟨by decide, rfl, by decide, by decide, by simp [TypeSource.Written, SIZE_MAX], trivial, fun block member => ?_⟩
    obtain rfl := List.mem_singleton.mp member
    refine ⟨(by decide +kernel : IsWord _), ?_⟩
    simp [OrderSource.Written, SIZE_MAX]

/-- The text in `main` is read as another module than the one that is meant; if
its names were numbers, it would be read as it is meant. -/
theorem parse_prints_sample :
    (∃ read, parse plainLibrary "test".toList (sampleSource sampleNames).print = .ok (some read) ∧
      read ≠ (sampleSource sampleNames).module "test".toList ∧ read.usingTypeInfos = [⟨0, ['4']⟩, ⟨0, ['5']⟩]) ∧
    parse plainLibrary "test".toList (sampleSource numeral).print = .ok (some ((sampleSource numeral).module "test".toList)) := by
  constructor
  · obtain ⟨run, meant⟩ := parse_prints plainLibrary "test".toList (ModuleSource.prints (sampleSource_written sampleNames))
      (by decide +kernel)
    exact ⟨_, run, fun same => absurd ((meant.mp same).usingTypes _ List.mem_cons_self) (by decide), rfl⟩
  · obtain ⟨run, meant⟩ := parse_prints plainLibrary "test".toList (ModuleSource.prints (sampleSource_written numeral))
      (by decide +kernel)
    rw [run, meant.mpr ⟨by simp [sampleSource], by simp [sampleSource]⟩]

end Parse
end CatLa
