import CatLa.Vm.Declarations

namespace CatLa
open Lineage Relation

/-- An order of a module, with the function that it is in. -/
def VMModule.HasOrder (mod : VMModule) (function : VMFunction) (order : Order) : Prop :=
  function ∈ mod.functions ∧ ∃ block ∈ function.labelBlocks, order ∈ block.orders

section Declared
variable (library : StandardLibrary) (vm : CatVM)

/-- The parent that a load gives to a type, and the fields that it declares. -/
def declaredLine (pointer : TypePointer) : Option (Option TypePointer × List FieldInfo) :=
  (vm.declaration library pointer).map fun declared =>
    (if declared.2.parentInfo.typeName = [] then none else vm.declaredType library declared.1 declared.2.parentInfo,
      declared.2.fieldInfos)

/-- The names of the fields of a type, those of its ancestors first. -/
def DeclaredFields (pointer : TypePointer) (names : List Text) : Prop :=
  ∃ chain, Lineage (declaredLine library vm) (some pointer) chain ∧ names = chain.reverse.flatten.map (·.fieldName)

end Declared

section Lines
variable {library : StandardLibrary} {vm after : CatVM}

theorem TypesFound.declaredLine (found : TypesFound library vm after) {k : Text} {i : Nat} {mod : VMModule} {type : VMType}
    (here : after.getModule k = some mod) (atIndex : mod.typeDefines[i]? = some type) :
    declaredLine library vm (.defined k i) = some (type.parent, type.fieldInfos) := by
  obtain ⟨source, read, same⟩ := found.sources k mod here
  obtain ⟨type', there, _, fields, parentInfo⟩ := same.parentInfo atIndex
  rw [CatLa.declaredLine, CatVM.declaration, read, Option.bind_some, there, Option.map_some, Option.map_some]
  dsimp only
  rw [(found.types k mod here type (List.mem_of_getElem? atIndex)).parent, found.declaredType here read, fields, parentInfo]

/-- The line of ancestors that is declared is the one that is found. -/
theorem TypesFound.line (found : TypesFound library vm after) {pointer : Option TypePointer} {chain : List (List Field)}
    (line : Lineage (parentOf after.typeParents) pointer chain)
    (known : ∀ p, pointer = some p → ∃ k i, p = .defined k i ∧ (after.getModule k).isSome) :
    ∃ infos, Lineage (CatLa.declaredLine library vm) pointer infos ∧
      infos.map (·.map (·.fieldName)) = chain.map (·.map (·.name)) := by
  induction line with
  | root => exact ⟨[], .root, rfl⟩
  | @child p up label labels here later ih =>
    obtain ⟨k, i, rfl, loaded⟩ := known p rfl
    obtain ⟨mod, loadedHere⟩ := Option.isSome_iff_exists.mp loaded
    obtain ⟨type, atIndex, same⟩ : ∃ type, mod.typeDefines[i]? = some type ∧ (type.parent, type.addFields) = (up, label) := by
      rw [CatVM.parentOf_eq, CatVM.typeAt, loadedHere, Option.bind_some] at here
      exact Option.map_eq_some_iff.mp here
    obtain ⟨rfl, rfl⟩ := Prod.mk.inj same
    obtain ⟨infos, rest, names⟩ := ih fun q above => found.parent_loaded loaded ⟨type.addFields, by
      rw [here, above]⟩
    refine ⟨type.fieldInfos :: infos, .child (found.declaredLine loadedHere atIndex) rest, ?_⟩
    rw [List.map_cons, List.map_cons, names, (found.types k mod loadedHere type (List.mem_of_getElem? atIndex)).addFields,
      List.map_map]
    rfl

theorem TypesFound.declaredFields (found : TypesFound library vm after) (linked : after.Linked library) {k : Text} {i : Nat}
    {type : VMType} (here : after.typeAt (.defined k i) = some type) (names : List Text) :
    DeclaredFields library vm (.defined k i) names ↔ names = type.allFields.map (·.name) := by
  obtain ⟨mod, loaded, atIndex⟩ := Option.bind_eq_some_iff.mp here
  obtain ⟨chain, layout, laid⟩ := ((linked k mod loaded).type loaded atIndex).layout
  obtain ⟨infos, line, same⟩ := found.line layout.line fun p named => ⟨k, i, (Option.some.inj named).symm, by rw [loaded]; rfl⟩
  have fields : infos.reverse.flatten.map (·.fieldName) = type.allFields.map (·.name) := by
    rw [laid, List.map_flatten, List.map_flatten, List.map_reverse, List.map_reverse, same]
  constructor
  · rintro ⟨infos', line', rfl⟩
    rw [line'.unique line, fields]
  · rintro rfl
    exact ⟨infos, line, fields.symm⟩

end Lines

section Module
variable {library : StandardLibrary} {vm after : CatVM} {k : Text} {mod source : VMModule}

/-- A function as the passes leave it. -/
abbrev VMFunction.passed (vm : CatVM) (mod : VMModule) (read : VMFunction) : VMFunction :=
  (read.withSignature mod.usingTypes).linked vm.typeAt mod.usingTypes

section Orders
variable (unlinked : source.Unlinked k)
  (made : mod.core = source.core.linkedBy after.typeNames after.typeParents after.typesDefined k)
include unlinked made

end Orders

section References
variable (found : TypesFound library vm after) (all : after.Linked library) (here : after.getModule k = some mod)
  (read : vm.source library k = some source) (unlinked : source.Unlinked k)
  (made : mod.core = source.core.linkedBy after.typeNames after.typeParents after.typesDefined k)
include found all here read unlinked made

end References
end Module

section Load
variable (library : StandardLibrary) (order : LoadOrder) (vm : CatVM) (name : Text)

variable {library order vm name}

end Load

/-- A module `a`, whose type `T` extends the type `U` of a module `b`. -/
def derivedText : Text :=
  [['$', 'c', 'o', 'n', 's', 't'], ['0', ':', '1', ':', 's', '#', 'T'], ['1', ':', '1', ':', 's', '#', 'b'],
    ['2', ':', '1', ':', 's', '#', 'U'], END, ['$', 'i', 'm', 'p', 'o', 'r', 't'], ['0', ':', 'c', 'o', 'n', 's', 't', '#', '1'], END,
    ['$', 't', 'y', 'p', 'e', 'd', 'e', 'f'], ['0', ':', '(', '7', ':', 'i', '6', '4', ')', ':', '0', ':', '2'], END].flatMap
    (· ++ ['\n'])

def baseText : Text :=
  [['$', 'c', 'o', 'n', 's', 't'], ['0', ':', '1', ':', 's', '#', 'U'], END,
    ['$', 't', 'y', 'p', 'e', 'd', 'e', 'f'], ['0', ':', '(', '8', ':', 'i', '6', '4', ')'], END].flatMap (· ++ ['\n'])

def derivedVM : CatVM := ⟨[(['a'], derivedText), (['b'], baseText)], []⟩

def derivedType : VMType := .make ['T'] [⟨['7'], some .i64, ⟨0, []⟩⟩] (some ⟨0, ['U']⟩)

def baseType : VMType := .make ['U'] [⟨['8'], some .i64, ⟨0, []⟩⟩] none

def derivedParts : ModuleParts where
  constValues := [⟨1, .string ['T']⟩, ⟨1, .string ['b']⟩, ⟨1, .string ['U']⟩]
  importModuleNames := [['b']]
  typeDefines := [derivedType]
  usingTypeInfos := []
  functions := []

def baseParts : ModuleParts where
  constValues := [⟨1, .string ['U']⟩]
  importModuleNames := []
  typeDefines := [baseType]
  usingTypeInfos := []
  functions := []

theorem derived_entered : Entered plainLibrary derivedVM ['a'] (derivedParts.module ['a']) where
  absent := rfl
  text := by decide
  parsed := parse_parts (by decide +kernel)

theorem base_entered : Entered plainLibrary derivedVM ['b'] (baseParts.module ['b']) where
  absent := rfl
  text := by decide
  parsed := parse_parts (by decide +kernel)

theorem derived_closure {k : Text} (path : InClosure plainLibrary derivedVM ['a'] k) : k = ['a'] ∨ k = ['b'] := by
  induction path with
  | refl => exact .inl rfl
  | tail _ imports ih =>
    obtain ⟨source, read, member⟩ := imports
    rcases ih with rfl | rfl
    · obtain rfl := Option.some.inj (derived_entered.source.symm.trans read)
      exact .inr (List.mem_singleton.mp member)
    · obtain rfl := Option.some.inj (base_entered.source.symm.trans read)
      exact absurd member List.not_mem_nil

theorem derived_parent : derivedVM.declaredType plainLibrary (derivedParts.module ['a']) ⟨0, ['U']⟩ = some (.defined ['b'] 0) := by
  show (((derivedVM.source plainLibrary ['b']).map (·.typeDefineMap.get)).bind (· ['U'])).map (TypePointer.defined ['b']) = _
  rw [base_entered.source]
  rfl

end CatLa
