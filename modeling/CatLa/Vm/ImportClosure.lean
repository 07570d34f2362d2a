import CatLa.Vm.ModuleLoader
import Mathlib.Logic.Relation

namespace CatLa
open Relation

/-- The type that `info` names, where `imports` are the modules it counts
through and `typeOf` is their `type_define_map`. -/
def TypeInfo.resolve (imports : List Text) (typeOf : Text → Option (Text → Option Nat)) (info : TypeInfo) :
    Option TypePointer :=
  (imports[info.importIndex]?).bind fun target => ((typeOf target).bind (· info.typeName)).map (.defined target)

section Closure
variable (library : StandardLibrary) (vm : CatVM)

/-- What a module is, or is going to be, before it is linked. -/
def CatVM.source (name : Text) : Option VMModule :=
  (vm.getModule name).or
    ((vm.preLoadedModuleMap.lookup name).bind fun code =>
      match parse library name code with
      | .ok module => module
      | .error _ => none)

variable {library vm} in
theorem CatVM.source_parsed {name code : Text} {mod : VMModule} (absent : vm.getModule name = none)
    (text : vm.preLoadedModuleMap.lookup name = some code) (parsed : parse library name code = .ok (some mod)) :
    vm.source library name = some mod := by
  rw [source, absent, Option.none_or, text, Option.bind_some, parsed]

def Imports (name it : Text) : Prop := ∃ mod, vm.source library name = some mod ∧ it ∈ mod.importModuleNames

/-- The import closure of a name. -/
def InClosure (name k : Text) : Prop := ReflTransGen (Imports library vm) name k

/-- The type that `info` names in a module, by what the modules declare. -/
def CatVM.declaredType (mod : VMModule) (info : TypeInfo) : Option TypePointer :=
  info.resolve mod.importModuleNames fun target => (vm.source library target).map (·.typeDefineMap.get)

def CatVM.declaration : TypePointer → Option (VMModule × VMType)
  | .primitive _ => none
  | .defined name index => (vm.source library name).bind fun mod => (mod.typeDefines[index]?).map fun type => (mod, type)

/-- The parent that a type declares. -/
def DeclaresParent (p q : TypePointer) : Prop :=
  ∃ mod type info, vm.declaration library p = some (mod, type) ∧ type.declaredParent = some info ∧
    vm.declaredType library mod info = some q

/-- The parent that a load gives to a type. One that is declared by an empty name
counts as none. -/
def TakesParent (p q : TypePointer) : Prop :=
  ∃ mod type, vm.declaration library p = some (mod, type) ∧ type.parentInfo.typeName ≠ [] ∧
    vm.declaredType library mod type.parentInfo = some q

/-- Two fields of one name, in a type or in two types of its parent chain. -/
def RepeatsField (parent : TypePointer → TypePointer → Prop) (p : TypePointer) : Prop :=
  ∃ mod type, vm.declaration library p = some (mod, type) ∧
    (¬(type.fieldInfos.map (·.fieldName)).Nodup ∨
      ∃ q mod' type', TransGen parent p q ∧ vm.declaration library q = some (mod', type') ∧
        ∃ field ∈ type.fieldInfos, ∃ field' ∈ type'.fieldInfos, field.fieldName = field'.fieldName)

/-- What must not be among the modules that `load_module` gets to. -/
inductive LoadFails (name : Text) : Prop
  | notPreLoaded {k} : InClosure library vm name k → vm.getModule k = none → vm.preLoadedModuleMap.lookup k = none →
      LoadFails name
  | notParsed {k code} : InClosure library vm name k → vm.getModule k = none →
      vm.preLoadedModuleMap.lookup k = some code → parse library k code = .ok none → LoadFails name
  | cyclic {k index} : InClosure library vm name k →
      TransGen (DeclaresParent library vm) (.defined k index) (.defined k index) → LoadFails name
  | repeatsField {k index} : InClosure library vm name k →
      RepeatsField library vm (DeclaresParent library vm) (.defined k index) → LoadFails name

variable {library vm}

theorem VMType.parentInfo_of_declared {type : VMType} {info : TypeInfo} (declared : type.declaredParent = some info) :
    type.parentInfo = info := by
  rw [VMType.parentInfo, declared, Option.getD_some]

theorem VMType.declared_of_parentInfo {type : VMType} (named : type.parentInfo.typeName ≠ []) :
    type.declaredParent = some type.parentInfo := by
  cases declared : type.declaredParent with
  | none => exact absurd (by rw [parentInfo, declared, Option.getD_none]) named
  | some info => rw [parentInfo_of_declared declared]

/-- The two differ in parents without a name. -/
theorem takesParent_iff {p q : TypePointer} : TakesParent library vm p q ↔
    ∃ mod type info, vm.declaration library p = some (mod, type) ∧ type.declaredParent = some info ∧ info.typeName ≠ [] ∧
      vm.declaredType library mod info = some q := by
  constructor
  · rintro ⟨mod, type, declaration, named, above⟩
    exact ⟨mod, type, type.parentInfo, declaration, VMType.declared_of_parentInfo named, named, above⟩
  · rintro ⟨mod, type, info, declaration, declared, named, above⟩
    have same := VMType.parentInfo_of_declared declared
    exact ⟨mod, type, declaration, same ▸ named, same ▸ above⟩

end Closure
end CatLa
