import CatLa.Parser.ParsedModule
import CatLa.Vm.LinkedModules
import CatLa.Vm.LoadedNames

namespace CatLa
open Lineage Outcome Relation TablePass

attribute [ext] VMModule

namespace VMModule
variable (mod : VMModule) (typeNames : Text → Option (Text → Option Nat))
  (parents : Text → Option (List (Option TypePointer × List Field))) (types : Text → Option (List VMType)) (name : Text)

@[simp] theorem linked_name : (mod.linkedBy typeNames parents types name).name = mod.name := by
  simp only [linkedBy, withImports, withTypes, withLayout, withUsingTypes, withSignatures, withFields, withOrders]

@[simp] theorem linked_constValues : (mod.linkedBy typeNames parents types name).constValues = mod.constValues := by
  simp only [linkedBy, withImports, withTypes, withLayout, withUsingTypes, withSignatures, withFields, withOrders]

@[simp] theorem linked_importModuleNames :
    (mod.linkedBy typeNames parents types name).importModuleNames = mod.importModuleNames := by
  simp only [linkedBy, withImports, withTypes, withLayout, withUsingTypes, withSignatures, withFields, withOrders]

@[simp] theorem linked_importModules :
    (mod.linkedBy typeNames parents types name).importModules = mod.importModules ++ mod.importModuleNames := by
  simp only [linkedBy, withImports, withTypes, withLayout, withUsingTypes, withSignatures, withFields, withOrders]

@[simp] theorem linked_typeDefineMap : (mod.linkedBy typeNames parents types name).typeDefineMap = mod.typeDefineMap := by
  simp only [linkedBy, withImports, withTypes, withLayout, withUsingTypes, withSignatures, withFields, withOrders]

@[simp] theorem linked_usingTypeInfos :
    (mod.linkedBy typeNames parents types name).usingTypeInfos = mod.usingTypeInfos := by
  simp only [linkedBy, withImports, withTypes, withLayout, withUsingTypes, withSignatures, withFields, withOrders]

variable {mod typeNames parents types name}

/-- What the passes have left of the module that was read. -/
structure LinkedFrom (mod source : VMModule) : Prop where
  name : mod.name = source.name
  constValues : mod.constValues = source.constValues
  importModuleNames : mod.importModuleNames = source.importModuleNames
  importModules : mod.importModules = source.importModules ++ source.importModuleNames
  typeDefineMap : mod.typeDefineMap.get = source.typeDefineMap.get
  usingTypeInfos : mod.usingTypeInfos = source.usingTypeInfos

theorem linkedFrom {source : VMModule} (made : mod.core = source.core.linkedBy typeNames parents types name) :
    mod.LinkedFrom source where
  name := (congrArg VMModule.name made).trans (linked_name ..)
  constValues := (congrArg VMModule.constValues made).trans (linked_constValues ..)
  importModuleNames := (congrArg VMModule.importModuleNames made).trans (linked_importModuleNames ..)
  importModules := (congrArg VMModule.importModules made).trans (linked_importModules ..)
  typeDefineMap := by
    have known : mod.typeDefineMap.known = source.typeDefineMap.known :=
      (congrArg VMModule.typeDefineMap made).trans (linked_typeDefineMap ..)
    rw [← PointerMap.get_known, known, PointerMap.get_known]
  usingTypeInfos := (congrArg VMModule.usingTypeInfos made).trans (linked_usingTypeInfos ..)

end VMModule

namespace VMModule.Unlinked
variable {name : Text} {mod : VMModule}

theorem ownName (unlinked : mod.Unlinked name) : mod.name = name := by rw [unlinked.made]; rfl

theorem importModules (unlinked : mod.Unlinked name) : mod.importModules = [] := by rw [unlinked.made]; rfl

theorem usingTypes (unlinked : mod.Unlinked name) : mod.usingTypes = [] := by rw [unlinked.made]; rfl

theorem moduleFields (unlinked : mod.Unlinked name) : mod.moduleFields = none := by rw [unlinked.made]; rfl

theorem typeDefineMap (unlinked : mod.Unlinked name) : mod.typeDefineMap = buildTypeDefineMap mod.typeDefines := by
  rw [unlinked.made]
  rfl

variable (typeNames : Text → Option (Text → Option Nat)) (parents : Text → Option (List (Option TypePointer × List Field)))
  (types : Text → Option (List VMType))

/-- A type of a module after all passes. -/
theorem linked_type (unlinked : mod.Unlinked name) (i : Nat) :
    (mod.core.linkedBy typeNames parents types name).typeDefines[i]? = (mod.typeDefines[i]?).map fun type =>
      (type.withParent (·.resolve mod.importModuleNames typeNames)).laidOut (Lineage.of (parentOf parents) (.defined name i)) := by
  simp [linkedBy, withImports, withTypes, withLayout, withUsingTypes, withSignatures, withFields, withOrders, core,
    unlinked.importModules, Function.comp_def]

theorem linked_usingTypes (unlinked : mod.Unlinked name) :
    (mod.core.linkedBy typeNames parents types name).usingTypes =
      mod.usingTypeInfos.map (·.resolve mod.importModuleNames typeNames) := by
  simp [linkedBy, withImports, withTypes, withLayout, withUsingTypes, withSignatures, withFields, withOrders, core,
    unlinked.importModules, unlinked.usingTypes]

theorem linked_functions (unlinked : mod.Unlinked name) :
    (mod.core.linkedBy typeNames parents types name).functions = mod.functions.map fun function =>
      (function.withSignature (mod.usingTypeInfos.map (·.resolve mod.importModuleNames typeNames))).linked (typeIn types)
        (mod.usingTypeInfos.map (·.resolve mod.importModuleNames typeNames)) := by
  simp [linkedBy, withImports, withTypes, withLayout, withUsingTypes, withSignatures, withFields, withOrders, core,
    unlinked.importModules, unlinked.usingTypes, Function.comp_def]

/-- The functions of a module after all passes. -/
theorem functions_eq {vm : CatVM} {linked : VMModule} (unlinked : mod.Unlinked name)
    (made : linked.core = mod.core.linkedBy vm.typeNames vm.typeParents vm.typesDefined name) :
    linked.functions = mod.functions.map fun read => (read.withSignature linked.usingTypes).linked vm.typeAt linked.usingTypes := by
  have functions : linked.functions = (mod.core.linkedBy vm.typeNames vm.typeParents vm.typesDefined name).functions := by
    rw [← made]
    rfl
  have types : linked.usingTypes = (mod.core.linkedBy vm.typeNames vm.typeParents vm.typesDefined name).usingTypes := by
    rw [← made]
    rfl
  rw [unlinked.linked_usingTypes] at types
  rw [functions, unlinked.linked_functions, ← types, CatVM.typeIn_eq]

theorem linked_moduleFields (unlinked : mod.Unlinked name) :
    (mod.core.linkedBy typeNames parents types name).moduleFields = (mod.typeDefineMap.get name).bind fun index =>
      (mod.typeDefines[index]?).bind fun type => allocatedFields (.defined name index) type.fieldInfos.length := by
  have fields (type : VMType) (member : type ∈ mod.typeDefines) : type.addFields = [] := by
    rw [unlinked.types type member]
    rfl
  simp [linkedBy, withImports, withTypes, withLayout, withUsingTypes, withSignatures, withFields, withOrders, core,
    unlinked.importModules, unlinked.moduleFields, unlinked.ownName]
  cases mod.typeDefineMap.get name with
  | none => rfl
  | some index =>
    cases atIndex : mod.typeDefines[index]? with
    | none => simp [atIndex]
    | some type => simp [atIndex, VMType.laidOut, VMType.withParent, fields type (List.mem_of_getElem? atIndex)]

end VMModule.Unlinked

theorem VMModule.linked_length (mod : VMModule) (typeNames : Text → Option (Text → Option Nat))
    (parents : Text → Option (List (Option TypePointer × List Field))) (types : Text → Option (List VMType)) (name : Text) :
    (mod.core.linkedBy typeNames parents types name).typeDefines.length = mod.typeDefines.length := by
  simp [linkedBy, withImports, withTypes, withLayout, withUsingTypes, withSignatures, withFields, withOrders, core]

section Agreement
variable {typeOf typeOf' : TypePointer → Option VMType} {usingTypes : List (Option TypePointer)}

theorem fieldPosition_congr (same : ∀ p, some p ∈ usingTypes → typeOf' p = typeOf p) (usingTypeIndex : Nat) (fieldName : Text)
    (fieldIndex : Nat) :
    fieldPosition typeOf' usingTypes usingTypeIndex fieldName fieldIndex =
      fieldPosition typeOf usingTypes usingTypeIndex fieldName fieldIndex := by
  have found : usingTypes[usingTypeIndex]?.join.bind typeOf' = usingTypes[usingTypeIndex]?.join.bind typeOf := by
    cases here : usingTypes[usingTypeIndex]? with
    | none => rfl
    | some type =>
      cases type with
      | none => rfl
      | some p => exact same p (List.mem_of_getElem? here)
  rw [fieldPosition, fieldPosition, found]

theorem Order.linked_congr (same : ∀ p, some p ∈ usingTypes → typeOf' p = typeOf p) (label : Text → Option Nat) (order : Order) :
    order.linked typeOf' usingTypes label = order.linked typeOf usingTypes label := by
  cases order <;> simp only [Order.linked, fieldPosition_congr same]

theorem VMFunction.linked_congr (same : ∀ p, some p ∈ usingTypes → typeOf' p = typeOf p) (function : VMFunction) :
    function.linked typeOf' usingTypes = function.linked typeOf usingTypes := by
  simp only [VMFunction.linked, Order.linked_congr same]

/-- Tables that have the same about a module and its imports link it the same. -/
theorem linkedBy_congr {name : Text} {mod : VMModule} (unlinked : mod.Unlinked name)
    {typeNames typeNames' : Text → Option (Text → Option Nat)}
    {parents parents' : Text → Option (List (Option TypePointer × List Field))} {types types' : Text → Option (List VMType)}
    (sameNames : ∀ it ∈ mod.importModuleNames, typeNames' it = typeNames it)
    (sameLines : ∀ i < mod.typeDefines.length,
      Lineage.of (parentOf parents') (.defined name i) = Lineage.of (parentOf parents) (.defined name i))
    (sameTypes : ∀ it ∈ mod.importModuleNames, types' it = types it) :
    mod.core.linkedBy typeNames' parents' types' name = mod.core.linkedBy typeNames parents types name := by
  have resolve (info : TypeInfo) :
      info.resolve mod.importModuleNames typeNames' = info.resolve mod.importModuleNames typeNames := by
    unfold TypeInfo.resolve
    cases here : mod.importModuleNames[info.importIndex]? with
    | none => rfl
    | some target => simp only [Option.bind_some, sameNames target (List.mem_of_getElem? here)]
  have typeAt (p : TypePointer) (used : some p ∈ mod.usingTypeInfos.map (·.resolve mod.importModuleNames typeNames)) :
      typeIn types' p = typeIn types p := by
    obtain ⟨info, _, found⟩ := List.mem_map.mp used
    obtain ⟨target, imported, found⟩ := Option.bind_eq_some_iff.mp found
    obtain ⟨index, _, rfl⟩ := Option.map_eq_some_iff.mp found
    simp only [typeIn, sameTypes target (List.mem_of_getElem? imported)]
  refine VMModule.ext ?_ ?_ ?_ ?_ ?_ (List.ext_getElem? fun i => ?_) ?_ ?_ ?_ ?_
  · rw [VMModule.linked_name, VMModule.linked_name]
  · rw [VMModule.linked_constValues, VMModule.linked_constValues]
  · rw [VMModule.linked_importModuleNames, VMModule.linked_importModuleNames]
  · rw [VMModule.linked_importModules, VMModule.linked_importModules]
  · rw [VMModule.linked_typeDefineMap, VMModule.linked_typeDefineMap]
  · rw [unlinked.linked_type, unlinked.linked_type]
    cases here : mod.typeDefines[i]? with
    | none => rfl
    | some type =>
      simp only [Option.map_some, resolve, sameLines i (List.getElem?_eq_some_iff.mp here).1]
  · rw [VMModule.linked_usingTypeInfos, VMModule.linked_usingTypeInfos]
  · simp only [unlinked.linked_usingTypes, resolve]
  · simp only [unlinked.linked_functions, resolve, VMFunction.linked_congr typeAt]
  · rw [unlinked.linked_moduleFields, unlinked.linked_moduleFields]

end Agreement

namespace CatVM
variable {vm vm' : CatVM}

/-- The modules of `vm` are as they were, but for null pointers in their maps. -/
def Keeps (vm vm' : CatVM) : Prop := ∀ k, (vm.getModule k).isSome → vm'.entries k = vm.entries k

theorem Keeps.view {X : Type} (kept : vm.Keeps vm') (look : VMModule → X) {k : Text} (loaded : (vm.getModule k).isSome) :
    viewOf look vm'.entries k = viewOf look vm.entries k := by
  rw [viewOf, kept k loaded, viewOf]

theorem Keeps.isSome (kept : vm.Keeps vm') {k : Text} (loaded : (vm.getModule k).isSome) : (vm'.getModule k).isSome := by
  obtain ⟨mod, here⟩ := Option.isSome_iff_exists.mp loaded
  obtain ⟨mod', here', _⟩ := entries_some ((kept k loaded).trans (entries_eq here))
  rw [here']
  rfl

theorem Keeps.parentOf (kept : vm.Keeps vm') {p : TypePointer} {up : Option TypePointer × List Field}
    (here : CatLa.parentOf vm.typeParents p = some up) : CatLa.parentOf vm'.typeParents p = some up := by
  cases p with
  | primitive type => exact here
  | defined module index =>
    obtain ⟨types, found, atIndex⟩ := Option.bind_eq_some_iff.mp here
    have loaded : (vm.getModule module).isSome := by
      cases there : vm.getModule module with
      | none => simp [typeParents, viewOf, entries, there] at found
      | some mod => rfl
    rw [CatLa.parentOf, typeParents, kept.view _ loaded]
    exact here

theorem Keeps.line (kept : vm.Keeps vm') {p : Option TypePointer} {chain : List (List Field)}
    (line : Lineage (CatLa.parentOf vm.typeParents) p chain) : Lineage (CatLa.parentOf vm'.typeParents) p chain :=
  line.mono fun _ _ here => kept.parentOf here

theorem Keeps.laysOut (kept : vm.Keeps vm') {k : Text} (loaded : (vm.getModule k).isSome) (laysOut : LaysOut vm.typeParents k) :
    LaysOut vm'.typeParents k := fun types here index inside => by
  rw [typeParents, kept.view _ loaded] at here
  obtain ⟨chain, layout⟩ := laysOut types here index inside
  exact ⟨chain, kept.line layout.line, layout.distinct, layout.typed⟩

end CatVM

/-- A module that has been loaded: what was read, as the passes leave it. -/
structure LinkedModule (library : StandardLibrary) (vm : CatVM) (name : Text) (mod : VMModule) : Prop where
  read : ∃ code source, parse library name code = .ok (some source) ∧
    mod.core = source.core.linkedBy vm.typeNames vm.typeParents vm.typesDefined name
  imports : ∀ it ∈ mod.importModuleNames, (vm.getModule it).isSome
  laysOut : LaysOut vm.typeParents name
  signatures : mod.core.SignaturesFit

theorem LinkedModule.keep {library : StandardLibrary} {vm vm' : CatVM} {name : Text} {mod mod' : VMModule}
    (linked : LinkedModule library vm name mod) (kept : vm.Keeps vm') (here : vm.getModule name = some mod)
    (here' : vm'.getModule name = some mod') : LinkedModule library vm' name mod' := by
  have present : (vm.getModule name).isSome := by rw [here]; rfl
  have same : mod'.core = mod.core := by
    have entry := kept name present
    rw [CatVM.entries_eq here, CatVM.entries_eq here'] at entry
    exact Option.some.inj entry
  obtain ⟨code, source, parsed, made⟩ := linked.read
  have unlinked := parse_unlinked parsed
  have names : mod.importModuleNames = source.importModuleNames := (VMModule.linkedFrom made).importModuleNames
  have names' : mod'.core.importModuleNames = mod.core.importModuleNames := congrArg VMModule.importModuleNames same
  refine ⟨⟨code, source, parsed, same.trans (made.trans ?_)⟩, fun it imported => kept.isSome (linked.imports it (names' ▸ imported)),
    kept.laysOut present linked.laysOut, same ▸ linked.signatures⟩
  have imported (it : Text) (member : it ∈ source.importModuleNames) : (vm.getModule it).isSome :=
    linked.imports it (names ▸ member)
  refine (linkedBy_congr unlinked (fun it member => kept.view _ (imported it member)) (fun i inside => ?_)
    fun it member => kept.view _ (imported it member)).symm
  have length : i < (mod.core.typeDefines.map fun type => (type.parent, type.addFields)).length := by
    rwa [List.length_map, made, VMModule.linked_length]
  obtain ⟨chain, layout⟩ := linked.laysOut _ (CatVM.typeParents_entry (CatVM.entries_eq here)) i length
  rw [Lineage.of_eq layout.line, Lineage.of_eq (kept.line layout.line)]

/-- The state of a virtual machine between two calls: every module is linked. -/
def CatVM.Linked (library : StandardLibrary) (vm : CatVM) : Prop :=
  ∀ k mod, vm.getModule k = some mod → LinkedModule library vm k mod

/-- A virtual machine on which no load has failed. -/
inductive Reached (library : StandardLibrary) : CatVM → Prop
  | start {texts : List (Text × Text)} : Reached library ⟨texts, []⟩
  | preLoad {vm : CatVM} {name code : Text} : Reached library vm → Reached library (vm.preLoadModule name code)
  | load {vm vm' : CatVM} {order : LoadOrder} {name m : Text} : Reached library vm →
      vm.loadModule library order name = .ok (vm', some m) → Reached library vm'

section NameTables
variable {α : Type} (nameOf : α → Text)

/-- The loop of the constructors that fills a map from the names of items. -/
def nameTable (items : List α) : PointerMap Text Nat :=
  items.zipIdx.foldl (fun map item => map.put (nameOf item.1) item.2) .empty

theorem nameTable_append (items : List α) (last : α) :
    nameTable nameOf (items ++ [last]) = (nameTable nameOf items).put (nameOf last) items.length := by
  rw [nameTable, List.zipIdx_append, List.foldl_append, Nat.zero_add]
  rfl

theorem nameTable_names (items : List α) : nameTable nameOf items = nameTable id (items.map nameOf) := by
  simp [nameTable, List.zipIdx_map, List.foldl_map]

variable {nameOf}

/-- What a name is mapped to has that name. -/
theorem get_nameTable {items : List α} {name : Text} {i : Nat} (found : (nameTable nameOf items).get name = some i) :
    ∃ item, items[i]? = some item ∧ nameOf item = name := by
  induction items using List.reverseRecOn with
  | nil => exact absurd found (by simp [nameTable])
  | append_singleton items last ih =>
    rw [nameTable_append, PointerMap.get_put] at found
    split at found
    · rename_i same
      obtain rfl := Option.some.inj found
      exact ⟨last, by simp, same.symm⟩
    · obtain ⟨item, here, named⟩ := ih found
      exact ⟨item, List.getElem?_append_left (List.getElem?_eq_some_iff.mp here).1 ▸ here, named⟩

theorem buildTypeDefineMap_eq (typeDefines : List VMType) : buildTypeDefineMap typeDefines = nameTable (·.typeName) typeDefines := rfl

theorem buildLabelBlockMap_eq (labelBlocks : List LabelBlock) : buildLabelBlockMap labelBlocks = nameTable (·.name) labelBlocks := rfl

end NameTables

section Facts
variable {library : StandardLibrary} {vm : CatVM} {name : Text} {mod : VMModule}

/-- A type of a module that has been loaded. -/
structure LinkedType (vm : CatVM) (name : Text) (mod : VMModule) (i : Nat) (type : VMType) : Prop where
  parent : type.parent =
    if type.parentInfo.typeName = [] then none else type.parentInfo.resolve mod.importModuleNames vm.typeNames
  addFields : type.addFields = type.fieldInfos.map (·.field (·.resolve mod.importModuleNames vm.typeNames))
  layout : ∃ chain, FieldLayout vm.typeParents (.defined name i) chain ∧ type.allFields = chain.reverse.flatten
  referenceFields : type.referenceFields = some (referenceBits type.allFields)

namespace LinkedModule
variable (linked : LinkedModule library vm name mod)
include linked

theorem usingTypes : mod.usingTypes = mod.usingTypeInfos.map (·.resolve mod.importModuleNames vm.typeNames) := by
  obtain ⟨code, source, parsed, made⟩ := linked.read
  have types : mod.usingTypes = (source.core.linkedBy vm.typeNames vm.typeParents vm.typesDefined name).usingTypes := by
    rw [← made]
    rfl
  have infos : mod.usingTypeInfos = source.usingTypeInfos := (VMModule.linkedFrom made).usingTypeInfos
  have names : mod.importModuleNames = source.importModuleNames := (VMModule.linkedFrom made).importModuleNames
  rw [types, (parse_unlinked parsed).linked_usingTypes, infos, names]

theorem type (loaded : vm.getModule name = some mod) {i : Nat} {type : VMType} (here : mod.typeDefines[i]? = some type) :
    LinkedType vm name mod i type := by
  have inside : i < (mod.core.typeDefines.map fun type => (type.parent, type.addFields)).length := by
    rw [List.length_map]
    exact (List.getElem?_eq_some_iff.mp here).1
  obtain ⟨chain, layout⟩ := linked.laysOut _ (CatVM.typeParents_entry (CatVM.entries_eq loaded)) i inside
  obtain ⟨code, source, parsed, made⟩ := linked.read
  have unlinked := parse_unlinked parsed
  have types : mod.typeDefines = (source.core.linkedBy vm.typeNames vm.typeParents vm.typesDefined name).typeDefines := by
    rw [← made]
    rfl
  have names : mod.importModuleNames = source.importModuleNames := (VMModule.linkedFrom made).importModuleNames
  have atIndex := here
  rw [types, unlinked.linked_type, ← names] at atIndex
  obtain ⟨read, there, rfl⟩ := Option.map_eq_some_iff.mp atIndex
  have blank := unlinked.types read (List.mem_of_getElem? there)
  have noParent : read.parent = none := by rw [blank]; rfl
  have noFields : read.addFields = [] := by rw [blank]; rfl
  have noLayout : read.allFields = [] := by rw [blank]; rfl
  refine ⟨?_, ?_, ⟨chain, layout, ?_⟩, rfl⟩
  · simp only [VMType.laidOut, VMType.withParent, noParent, VMType.parentInfo]
  · simp only [VMType.laidOut, VMType.withParent, noFields, List.nil_append]
  · simp only [VMType.laidOut, VMType.withParent, noLayout, List.nil_append, Lineage.of_eq layout.line]

theorem typeDefineMap : mod.typeDefineMap.get = (nameTable (·.typeName) mod.typeDefines).get := by
  obtain ⟨code, source, parsed, made⟩ := linked.read
  have unlinked := parse_unlinked parsed
  have map := (VMModule.linkedFrom made).typeDefineMap
  have types : mod.typeDefines = (source.core.linkedBy vm.typeNames vm.typeParents vm.typesDefined name).typeDefines := by
    rw [← made]
    rfl
  have names : mod.typeDefines.map (·.typeName) = source.typeDefines.map (·.typeName) := by
    refine List.ext_getElem? fun i => ?_
    rw [types, List.getElem?_map, unlinked.linked_type, List.getElem?_map, Option.map_map]
    rfl
  rw [map, unlinked.typeDefineMap, buildTypeDefineMap_eq, nameTable_names, ← names, ← nameTable_names]

theorem moduleFields : mod.moduleFields = (mod.typeDefineMap.get name).bind fun index =>
    (mod.typeDefines[index]?).bind fun type => allocatedFields (.defined name index) type.fieldInfos.length := by
  obtain ⟨code, source, parsed, made⟩ := linked.read
  have unlinked := parse_unlinked parsed
  have fields : mod.moduleFields = (source.core.linkedBy vm.typeNames vm.typeParents vm.typesDefined name).moduleFields := by
    rw [← made]
    rfl
  have types : mod.typeDefines = (source.core.linkedBy vm.typeNames vm.typeParents vm.typesDefined name).typeDefines := by
    rw [← made]
    rfl
  rw [fields, unlinked.linked_moduleFields, (VMModule.linkedFrom made).typeDefineMap]
  refine congrArg _ (funext fun index => ?_)
  rw [types, unlinked.linked_type, Option.bind_map]
  rfl

theorem function {function : VMFunction} (member : function ∈ mod.functions) :
    ∃ read : VMFunction, read.Unlinked ∧ function = (read.withSignature mod.usingTypes).linked vm.typeAt mod.usingTypes := by
  obtain ⟨code, source, parsed, made⟩ := linked.read
  have unlinked := parse_unlinked parsed
  rw [unlinked.functions_eq made] at member
  obtain ⟨read, listed, rfl⟩ := List.mem_map.mp member
  exact ⟨read, unlinked.functions read listed, rfl⟩

theorem importModules : mod.importModules = mod.importModuleNames := by
  obtain ⟨code, source, parsed, made⟩ := linked.read
  rw [(VMModule.linkedFrom made).importModules, (parse_unlinked parsed).importModules,
    (VMModule.linkedFrom made).importModuleNames, List.nil_append]

end LinkedModule

/-- What a name is resolved to is a type of that name. -/
theorem CatVM.Linked.resolve_named (linked : vm.Linked library) {imports : List Text} {info : TypeInfo} {pointer : TypePointer}
    (resolved : info.resolve imports vm.typeNames = some pointer) :
    ∃ target index, pointer = .defined target index ∧ imports[info.importIndex]? = some target ∧
      ∃ type, vm.typeAt (.defined target index) = some type ∧ type.typeName = info.typeName := by
  obtain ⟨target, imported, inTarget⟩ := Option.bind_eq_some_iff.mp resolved
  obtain ⟨index, found, rfl⟩ := Option.map_eq_some_iff.mp inTarget
  obtain ⟨names, here, atName⟩ := Option.bind_eq_some_iff.mp found
  rw [CatVM.typeNames_eq] at here
  obtain ⟨mod, loaded, rfl⟩ := Option.map_eq_some_iff.mp here
  rw [(linked _ mod loaded).typeDefineMap] at atName
  obtain ⟨type, atIndex, named⟩ := get_nameTable atName
  exact ⟨target, index, rfl, imported, type, by rw [CatVM.typeAt, loaded, Option.bind_some, atIndex], named⟩

end Facts

section Load
variable {library : StandardLibrary} {order : LoadOrder} {vm vm' : CatVM} {name m : Text}

/-- What a call of `load_module` has done that returns a module. -/
structure LoadDone (library : StandardLibrary) (vm vm' : CatVM) (name : Text) (loaded : List Text) : Prop where
  target : name ∈ loaded
  entered : ∀ k ∈ loaded, ∃ source, Entered library vm k source ∧
    vm'.entries k = some (source.core.linkedBy vm'.typeNames vm'.typeParents vm'.typesDefined k)
  others : ∀ k ∉ loaded, vm'.entries k = vm.entries k
  imports : ∀ k ∈ loaded, ∀ mod, vm'.getModule k = some mod → ∀ it ∈ mod.importModuleNames, (vm'.getModule it).isSome
  laysOut : ∀ k ∈ loaded, LaysOut vm'.typeParents k
  signatures : ∀ k ∈ loaded, ∀ core, vm'.entries k = some core → core.SignaturesFit
  reached : ∀ k ∈ loaded, InClosure library vm name k

theorem loadModule_done (run : vm.loadModule library order name = .ok (vm', some m)) :
    m = name ∧ ∃ loaded, LoadDone library vm vm' name loaded := by
  unfold CatVM.loadModule at run
  split at run
  · exact absurd run (by simp)
  · exact absurd run (by simp)
  · rename_i s exit
    split at run
    · exact absurd run (by simp)
    · exact absurd run (by simp)
    · rename_i vm'' linked
      obtain ⟨rfl, target⟩ := Prod.mk.inj (Except.ok.inj run)
      obtain ⟨loading, done⟩ := loadNames_run 0 (loading_start library vm name) exit
      have walked (k : Text) : k ∈ order.traverse s.loaded ↔ k ∈ s.loaded := (order.traverse_perm s.loaded).mem_iff
      have distinct := (order.traverse_perm s.loaded).nodup_iff.mpr loading.distinct
      obtain ⟨changed, typeNames, laysOut⟩ := CatVM.linkModules_run distinct linked
      obtain ⟨rfl, member⟩ : m = name ∧ name ∈ s.loaded := by
        rcases loading.target with ⟨_, none, _⟩ | ⟨_, some, member⟩
        · exact absurd (target.symm.trans none) (by simp)
        · exact ⟨Option.some.inj (target.symm.trans some), member⟩
      refine ⟨rfl, s.loaded, member, fun k known => ?_, fun k unknown => ?_, fun k known mod here it imported => ?_,
        fun k known => laysOut k ((walked k).mpr known),
        fun k known core here => CatVM.linkModules_fit distinct linked ((walked k).mpr known) here,
        fun k known => loading.reached k (.inl known)⟩
      · obtain ⟨source, entered, here⟩ := loading.entered k known
        refine ⟨source, entered, ?_⟩
        rw [changed, replaced_of _ _ ((walked k).mpr known), CatVM.entries_eq here, Option.map_some, typeNames]
      · rw [changed, replaced_of_not _ _ (mt (walked k).mp unknown), CatVM.entries, loading.kept k unknown, CatVM.entries]
      · have there (k : Text) : (vm''.getModule k).isSome = (s.vm.getModule k).isSome := by
          rw [← CatVM.isSome_entries, changed, isSome_replaced, CatVM.isSome_entries]
        obtain ⟨source, entered, before⟩ := loading.entered k known
        have same : mod.core = source.core.linkedBy s.vm.typeNames vm''.typeParents vm''.typesDefined k := by
          have entry := CatVM.entries_eq here
          rw [changed, replaced_of _ _ ((walked k).mpr known), CatVM.entries_eq before, Option.map_some] at entry
          exact (Option.some.inj entry).symm
        have names : mod.importModuleNames = source.importModuleNames := (VMModule.linkedFrom same).importModuleNames
        rw [names] at imported
        rw [there]
        exact (loading.imports k known source before it imported).resolve_right (by simp [done])

namespace LoadDone
variable {loaded : List Text} (done : LoadDone library vm vm' name loaded)
include done

theorem absent {k : Text} (member : k ∈ loaded) : vm.getModule k = none := by
  obtain ⟨source, entered, _⟩ := done.entered k member
  exact entered.absent

theorem keeps : vm.Keeps vm' := fun k here => by
  refine done.others k fun member => ?_
  rw [done.absent member] at here
  exact Bool.false_ne_true here

theorem mem_iff {k : Text} : k ∈ loaded ↔ vm.getModule k = none ∧ (vm'.getModule k).isSome := by
  constructor
  · intro member
    obtain ⟨source, entered, entry⟩ := done.entered k member
    exact ⟨entered.absent, by rw [← CatVM.isSome_entries, entry]; rfl⟩
  · rintro ⟨absent, here⟩
    by_contra unknown
    rw [← CatVM.isSome_entries, done.others k unknown, CatVM.isSome_entries, absent] at here
    exact Bool.false_ne_true here

/-- A load that returns a module keeps the virtual machine linked. -/
theorem linked (before : vm.Linked library) : vm'.Linked library := fun k mod here => by
  by_cases member : k ∈ loaded
  · obtain ⟨source, entered, entry⟩ := done.entered k member
    rw [CatVM.entries_eq here] at entry
    exact ⟨⟨_, source, entered.parsed, Option.some.inj entry⟩, done.imports k member mod here, done.laysOut k member,
      done.signatures k member mod.core (CatVM.entries_eq here)⟩
  · have entry := done.others k member
    rw [CatVM.entries_eq here] at entry
    obtain ⟨mod', here', _⟩ := CatVM.entries_some entry.symm
    exact (before k mod' here').keep done.keeps here' here

end LoadDone

theorem Reached.linked (reached : Reached library vm) : vm.Linked library := by
  induction reached with
  | start => exact fun k mod here => absurd here (by simp [CatVM.getModule])
  | preLoad _ ih => exact fun k mod here => ⟨(ih k mod here).read, (ih k mod here).imports, (ih k mod here).laysOut,
      (ih k mod here).signatures⟩
  | load _ run ih =>
    obtain ⟨_, loaded, done⟩ := loadModule_done run
    exact done.linked ih

/-- A load of a module that imports nothing but itself, from its parts. -/
theorem loadModule_parts {vm : CatVM} {name : Text} {parts : ModuleParts} (absent : vm.getModule name = none)
    (text : vm.getPreLoadedModule name ≠ []) (read : parsedParts library name (vm.getPreLoadedModule name) = some parts)
    (only : ∀ it ∈ parts.importModuleNames, it = name) {X : Type} (look : CatVM → X) {x : X}
    (links : (match (vm.register name (parts.module name)).linkModules [name] with
      | .ok vm => some (look vm)
      | .error _ => none) = some x) :
    ∃ vm', vm.loadModule library order name = .ok (vm', some name) ∧ look vm' = x := by
  rw [loadModule_alone absent text (parse_parts read) only]
  split at links
  · rename_i vm' linked
    rw [linked]
    exact ⟨vm', rfl, Option.some.inj links⟩
  · exact absurd links (by simp)

end Load

end CatLa
