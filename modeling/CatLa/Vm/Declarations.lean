import CatLa.Vm.LoadedModules

namespace CatLa
open Lineage Outcome Relation TablePass

/-- What the text of a module says of a type. -/
def VMType.declaration (type : VMType) : Text × List FieldInfo × Option TypeInfo :=
  (type.typeName, type.fieldInfos, type.declaredParent)

/-- Two modules that say the same, however far they have been linked. -/
structure VMModule.SameDeclarations (mod source : VMModule) : Prop where
  name : mod.name = source.name
  importModuleNames : mod.importModuleNames = source.importModuleNames
  typeDefineMap : mod.typeDefineMap.get = source.typeDefineMap.get
  usingTypeInfos : mod.usingTypeInfos = source.usingTypeInfos
  types : mod.typeDefines.map (·.declaration) = source.typeDefines.map (·.declaration)

namespace VMModule.SameDeclarations
variable {mod source : VMModule}

theorem symm (same : mod.SameDeclarations source) : source.SameDeclarations mod :=
  ⟨same.name.symm, same.importModuleNames.symm, same.typeDefineMap.symm, same.usingTypeInfos.symm, same.types.symm⟩

theorem trans {mod' : VMModule} (first : mod.SameDeclarations mod') (second : mod'.SameDeclarations source) :
    mod.SameDeclarations source :=
  ⟨first.name.trans second.name, first.importModuleNames.trans second.importModuleNames,
    first.typeDefineMap.trans second.typeDefineMap, first.usingTypeInfos.trans second.usingTypeInfos,
    first.types.trans second.types⟩

theorem type (same : mod.SameDeclarations source) {i : Nat} {type : VMType} (here : mod.typeDefines[i]? = some type) :
    ∃ type', source.typeDefines[i]? = some type' ∧ type'.typeName = type.typeName ∧ type'.fieldInfos = type.fieldInfos ∧
      type'.declaredParent = type.declaredParent := by
  have listed : (source.typeDefines[i]?).map (·.declaration) = some type.declaration := by
    rw [← List.getElem?_map, ← same.types, List.getElem?_map, here, Option.map_some]
  obtain ⟨type', there, sameType⟩ := Option.map_eq_some_iff.mp listed
  obtain ⟨name, rest⟩ := Prod.mk.inj sameType
  obtain ⟨fields, parent⟩ := Prod.mk.inj rest
  exact ⟨type', there, name, fields, parent⟩

theorem parentInfo (same : mod.SameDeclarations source) {i : Nat} {type : VMType} (here : mod.typeDefines[i]? = some type) :
    ∃ type', source.typeDefines[i]? = some type' ∧ type'.typeName = type.typeName ∧ type'.fieldInfos = type.fieldInfos ∧
      type'.parentInfo = type.parentInfo := by
  obtain ⟨type', there, name, fields, parent⟩ := same.type here
  exact ⟨type', there, name, fields, by rw [VMType.parentInfo, VMType.parentInfo, parent]⟩

theorem of_core (same : mod.core = source.core) : mod.SameDeclarations source where
  name := by
    have name : mod.core.name = source.core.name := by rw [same]
    exact name
  importModuleNames := by
    have names : mod.core.importModuleNames = source.core.importModuleNames := by rw [same]
    exact names
  typeDefineMap := by
    have known : mod.core.typeDefineMap = source.core.typeDefineMap := by rw [same]
    rw [← PointerMap.get_known, ← PointerMap.get_known source.typeDefineMap]
    exact congrArg PointerMap.get known
  usingTypeInfos := by
    have infos : mod.core.usingTypeInfos = source.core.usingTypeInfos := by rw [same]
    exact infos
  types := by
    have types : mod.core.typeDefines = source.core.typeDefines := by rw [same]
    exact congrArg (List.map _) types

theorem core (mod : VMModule) : mod.core.SameDeclarations mod := ⟨rfl, rfl, mod.typeDefineMap.get_known, rfl, rfl⟩

theorem of_linked {name : Text} (unlinked : source.Unlinked name) {typeNames : Text → Option (Text → Option Nat)}
    {parents : Text → Option (List (Option TypePointer × List Field))} {types : Text → Option (List VMType)}
    (made : mod.core = source.core.linkedBy typeNames parents types name) : mod.SameDeclarations source where
  name := (linkedFrom made).name
  importModuleNames := (linkedFrom made).importModuleNames
  typeDefineMap := (linkedFrom made).typeDefineMap
  usingTypeInfos := (linkedFrom made).usingTypeInfos
  types := by
    have linked : mod.typeDefines = (source.core.linkedBy typeNames parents types name).typeDefines := by
      rw [← made]
      rfl
    refine List.ext_getElem? fun i => ?_
    rw [List.getElem?_map, linked, unlinked.linked_type, Option.map_map, List.getElem?_map]
    rfl

end VMModule.SameDeclarations

/-- The parent and the fields of a type, as they have been looked up. -/
structure ResolvedType (vm : CatVM) (mod : VMModule) (type : VMType) : Prop where
  parent : type.parent =
    if type.parentInfo.typeName = [] then none else type.parentInfo.resolve mod.importModuleNames vm.typeNames
  addFields : type.addFields = type.fieldInfos.map (·.field (·.resolve mod.importModuleNames vm.typeNames))

/-- The modules of `after` are those of `vm` and some that are read for it, with
all that they import. -/
structure ModulesRead (library : StandardLibrary) (vm after : CatVM) : Prop where
  sources : ∀ k mod, after.getModule k = some mod → ∃ source, vm.source library k = some source ∧ mod.SameDeclarations source
  imports : ∀ k mod, after.getModule k = some mod → ∀ it ∈ mod.importModuleNames, (after.getModule it).isSome

/-- `after` is what the modules of `vm` and those that are read for it look
like once their types have been looked up. -/
structure TypesFound (library : StandardLibrary) (vm after : CatVM) : Prop where
  sources : ∀ k mod, after.getModule k = some mod → ∃ source, vm.source library k = some source ∧ mod.SameDeclarations source
  imports : ∀ k mod, after.getModule k = some mod → ∀ it ∈ mod.importModuleNames, (after.getModule it).isSome
  types : ∀ k mod, after.getModule k = some mod → ∀ type ∈ mod.typeDefines, ResolvedType after mod type

/-- A pass that only adds to what the modules say. -/
theorem ModulesRead.pass {library : StandardLibrary} {vm after after' : CatVM}
    (modules : ModulesRead library vm after) {change : Text → VMModule → VMModule} {names : List Text}
    (changed : after'.entries = replaced change (· ∈ names) after.entries)
    (steady : ∀ k mod, (change k mod).SameDeclarations mod) : ModulesRead library vm after' := by
  have same (k : Text) (mod : VMModule) (here : after'.getModule k = some mod) :
      ∃ before, after.getModule k = some before ∧ mod.SameDeclarations before := by
    have entry := CatVM.entries_eq here
    rw [changed] at entry
    obtain ⟨core, found, made⟩ := Option.map_eq_some_iff.mp entry
    obtain ⟨before, there, rfl⟩ := CatVM.entries_some found
    have linked : mod.core.SameDeclarations before.core := by
      split at made
      · exact made ▸ steady k before.core
      · exact made ▸ ⟨rfl, rfl, rfl, rfl, rfl⟩
    exact ⟨before, there, (VMModule.SameDeclarations.core mod).symm.trans (linked.trans (.core before))⟩
  refine ⟨fun k mod here => ?_, fun k mod here it imported => ?_⟩
  · obtain ⟨before, there, declared⟩ := same k mod here
    obtain ⟨source, read, declared'⟩ := modules.sources k before there
    exact ⟨source, read, declared.trans declared'⟩
  · obtain ⟨before, there, declared⟩ := same k mod here
    rw [← CatVM.isSome_entries, changed, isSome_replaced, CatVM.isSome_entries]
    exact modules.imports k before there it (declared.importModuleNames ▸ imported)

/-- The declared type is the one that is found. -/
theorem ModulesRead.declaredType {library : StandardLibrary} {vm after : CatVM}
    (modules : ModulesRead library vm after) {k : Text} {mod source : VMModule} (here : after.getModule k = some mod)
    (read : vm.source library k = some source) (info : TypeInfo) :
    vm.declaredType library source info = info.resolve mod.importModuleNames after.typeNames := by
  obtain ⟨source', read', same⟩ := modules.sources k mod here
  obtain rfl := Option.some.inj (read.symm.trans read')
  rw [CatVM.declaredType, TypeInfo.resolve, TypeInfo.resolve, same.importModuleNames]
  cases imported : source.importModuleNames[info.importIndex]? with
  | none => rfl
  | some target =>
    have member : target ∈ mod.importModuleNames := same.importModuleNames ▸ List.mem_of_getElem? imported
    obtain ⟨mod', here'⟩ := Option.isSome_iff_exists.mp (modules.imports k mod here target member)
    obtain ⟨source', read', same'⟩ := modules.sources target mod' here'
    rw [Option.bind_some, Option.bind_some, CatVM.typeNames_eq]
    dsimp only
    rw [read', here', Option.map_some, Option.map_some, same'.typeDefineMap]

namespace TypesFound
variable {library : StandardLibrary} {vm after : CatVM} (found : TypesFound library vm after)
include found

theorem modulesRead : ModulesRead library vm after := ⟨found.sources, found.imports⟩

theorem declaredType {k : Text} {mod source : VMModule} (here : after.getModule k = some mod)
    (read : vm.source library k = some source) (info : TypeInfo) :
    vm.declaredType library source info = info.resolve mod.importModuleNames after.typeNames :=
  found.modulesRead.declaredType here read info

theorem resolve_loaded {k : Text} {mod : VMModule} (here : after.getModule k = some mod) {info : TypeInfo} {q : TypePointer}
    (resolved : info.resolve mod.importModuleNames after.typeNames = some q) :
    ∃ target index, q = .defined target index ∧ (after.getModule target).isSome := by
  obtain ⟨target, imported, inTarget⟩ := Option.bind_eq_some_iff.mp resolved
  obtain ⟨index, _, rfl⟩ := Option.map_eq_some_iff.mp inTarget
  exact ⟨target, index, rfl, found.imports k mod here target (List.mem_of_getElem? imported)⟩

/-- The parents that types have are those that they are given. -/
theorem isParent {k : Text} (loaded : (after.getModule k).isSome) (i : Nat) (q : TypePointer) :
    TakesParent library vm (.defined k i) q ↔ IsParent (parentOf after.typeParents) (.defined k i) q := by
  obtain ⟨mod, here⟩ := Option.isSome_iff_exists.mp loaded
  obtain ⟨source, read, same⟩ := found.sources k mod here
  have parent : IsParent (parentOf after.typeParents) (.defined k i) q ↔
      ∃ type, mod.typeDefines[i]? = some type ∧ type.parent = some q := by
    simp [IsParent, CatVM.parentOf_eq, CatVM.typeAt, here]
  have declared : TakesParent library vm (.defined k i) q ↔ ∃ type, source.typeDefines[i]? = some type ∧
      type.parentInfo.typeName ≠ [] ∧ vm.declaredType library source type.parentInfo = some q := by
    simp [TakesParent, CatVM.declaration, read]
  rw [parent, declared]
  constructor
  · rintro ⟨type', there, named, resolved⟩
    obtain ⟨type, atIndex, _, _, parentInfo⟩ := same.symm.parentInfo there
    refine ⟨type, atIndex, ?_⟩
    rw [(found.types k mod here type (List.mem_of_getElem? atIndex)).parent, parentInfo, if_neg named,
      ← found.declaredType here read, resolved]
  · rintro ⟨type, atIndex, above⟩
    obtain ⟨type', there, _, _, parentInfo⟩ := same.parentInfo atIndex
    rw [(found.types k mod here type (List.mem_of_getElem? atIndex)).parent] at above
    split at above
    · exact absurd above (by simp)
    · rename_i named
      rw [← found.declaredType here read, ← parentInfo] at above
      exact ⟨type', there, parentInfo ▸ named, above⟩

theorem parent_loaded {k : Text} (loaded : (after.getModule k).isSome) {i : Nat} {q : TypePointer}
    (above : IsParent (parentOf after.typeParents) (.defined k i) q) :
    ∃ target index, q = .defined target index ∧ (after.getModule target).isSome := by
  obtain ⟨mod, here⟩ := Option.isSome_iff_exists.mp loaded
  obtain ⟨type, atIndex, parent⟩ : ∃ type, mod.typeDefines[i]? = some type ∧ type.parent = some q := by
    simpa [IsParent, CatVM.parentOf_eq, CatVM.typeAt, here] using above
  rw [(found.types k mod here type (List.mem_of_getElem? atIndex)).parent] at parent
  split at parent
  · exact absurd parent (by simp)
  · exact found.resolve_loaded here parent

/-- A type has the fields that it declares. -/
theorem fieldInfos {k : Text} {i : Nat} {source : VMModule} {type' : VMType} (loaded : (after.getModule k).isSome)
    (declared : vm.declaration library (.defined k i) = some (source, type')) :
    ∃ mod type, after.getModule k = some mod ∧ mod.typeDefines[i]? = some type ∧ type.fieldInfos = type'.fieldInfos ∧
      type.addFields = type'.fieldInfos.map (·.field (·.resolve mod.importModuleNames after.typeNames)) := by
  obtain ⟨mod, here⟩ := Option.isSome_iff_exists.mp loaded
  obtain ⟨source', read, same⟩ := found.sources k mod here
  rw [CatVM.declaration, read, Option.bind_some] at declared
  obtain ⟨type', there, rest⟩ := Option.map_eq_some_iff.mp declared
  obtain ⟨rfl, rfl⟩ := Prod.mk.inj rest
  obtain ⟨type, atIndex, _, fields, _⟩ := same.symm.type there
  refine ⟨mod, type, here, atIndex, fields, ?_⟩
  rw [(found.types k mod here type (List.mem_of_getElem? atIndex)).addFields, fields]

theorem declared {k : Text} {i : Nat} {mod : VMModule} {type : VMType} (here : after.getModule k = some mod)
    (atIndex : mod.typeDefines[i]? = some type) :
    ∃ source type', vm.declaration library (.defined k i) = some (source, type') ∧ type'.fieldInfos = type.fieldInfos := by
  obtain ⟨source, read, same⟩ := found.sources k mod here
  obtain ⟨type', there, _, fields, _⟩ := same.type atIndex
  exact ⟨source, type', by rw [CatVM.declaration, read, Option.bind_some, there, Option.map_some], fields⟩

theorem above_loaded {k : Text} (loaded : (after.getModule k).isSome) {i : Nat} {q : TypePointer}
    (above : TransGen (IsParent (parentOf after.typeParents)) (.defined k i) q) :
    ∃ target index, q = .defined target index ∧ (after.getModule target).isSome := by
  induction above with
  | single step => exact found.parent_loaded loaded step
  | tail _ step ih =>
    obtain ⟨target, index, rfl, there⟩ := ih
    exact found.parent_loaded there step

/-- So are the types above it. -/
theorem above_iff {k : Text} (loaded : (after.getModule k).isSome) (i : Nat) (q : TypePointer) :
    TransGen (TakesParent library vm) (.defined k i) q ↔ TransGen (IsParent (parentOf after.typeParents)) (.defined k i) q := by
  constructor
  · intro path
    induction path with
    | single step => exact .single ((found.isParent loaded i _).mp step)
    | tail _ step ih =>
      obtain ⟨target, index, rfl, there⟩ := found.above_loaded loaded ih
      exact ih.tail ((found.isParent there index _).mp step)
  · intro path
    induction path with
    | single step => exact .single ((found.isParent loaded i _).mpr step)
    | tail before step ih =>
      obtain ⟨target, index, rfl, there⟩ := found.above_loaded loaded before
      exact ih.tail ((found.isParent there index _).mpr step)

end TypesFound

namespace LoadDone
variable {library : StandardLibrary} {vm vm' : CatVM} {name : Text} {loaded : List Text}
  (done : LoadDone library vm vm' name loaded)
include done

theorem typesFound (before : vm.Linked library) : TypesFound library vm vm' where
  sources k mod here := by
    by_cases member : k ∈ loaded
    · obtain ⟨source, entered, entry⟩ := done.entered k member
      rw [CatVM.entries_eq here] at entry
      exact ⟨source, entered.source, .of_linked (parse_unlinked entered.parsed) (Option.some.inj entry)⟩
    · have entry := done.others k member
      rw [CatVM.entries_eq here] at entry
      obtain ⟨source, here', same⟩ := CatVM.entries_some entry.symm
      exact ⟨source, source_of_loaded here', .of_core same.symm⟩
  imports k mod here := (done.linked before k mod here).imports
  types k mod here type member := by
    obtain ⟨i, inside, at_i⟩ := List.getElem_of_mem member
    have linked := (done.linked before k mod here).type here (List.getElem?_eq_some_iff.mpr ⟨inside, at_i⟩)
    exact ⟨linked.parent, linked.addFields⟩

/-- A load ends with the modules that were there and the closure of the name. -/
theorem loaded_iff (before : vm.Linked library) (k : Text) :
    (vm'.getModule k).isSome ↔ (vm.getModule k).isSome ∨ InClosure library vm name k := by
  constructor
  · intro here
    by_cases member : k ∈ loaded
    · exact .inr (done.reached k member)
    · refine .inl ?_
      rwa [← CatVM.isSome_entries, ← done.others k member, CatVM.isSome_entries]
  · rintro (here | path)
    · exact done.keeps.isSome here
    · induction path with
      | refl => exact (done.mem_iff.mp done.target).2
      | tail _ imports ih =>
        obtain ⟨source, read, member⟩ := imports
        obtain ⟨mod, here⟩ := Option.isSome_iff_exists.mp ih
        obtain ⟨source', read', same⟩ := (done.typesFound before).sources _ mod here
        obtain rfl := Option.some.inj (read.symm.trans read')
        exact (done.linked before _ mod here).imports _ (same.importModuleNames ▸ member)

end LoadDone
end CatLa
