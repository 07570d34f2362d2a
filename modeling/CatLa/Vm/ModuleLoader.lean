import CatLa.Heap.HeapAllocator
import CatLa.Parser.ModuleText
import CatLa.Vm.BitSet

namespace CatLa
open Outcome

/-- The maps of `CatVM` that the loading of modules works on. -/
structure CatVM where
  preLoadedModuleMap : List (Text × Text)
  loadedModuleMap : List (Text × VMModule)

/-- How `load_module` ends early: with an exception or a read outside of an
object, or with `return nullptr` in this state. -/
inductive LoadExit
  | failed (failure : ParseFailure)
  | returnedNull (vm : CatVM)

/-- The order in which the unordered sets of `load_module` happen to be walked:
where `begin()` stands in each pass over the names, and a `for` over the
modules. -/
structure LoadOrder where
  first : Nat → List Text → Text
  first_mem : ∀ pass names, names ≠ [] → first pass names ∈ names
  traverse : List Text → List Text
  traverse_perm : ∀ modules, (traverse modules).Perm modules

namespace CatVM

/-- `get_module`. -/
def getModule (vm : CatVM) (name : Text) : Option VMModule := vm.loadedModuleMap.lookup name

/-- `get_pre_loaded_module`. -/
def getPreLoadedModule (vm : CatVM) (name : Text) : Text := (vm.preLoadedModuleMap.lookup name).getD []

/-- `pre_load_module`. -/
def preLoadModule (vm : CatVM) (name code : Text) : CatVM :=
  { vm with preLoadedModuleMap := (name, code) :: vm.preLoadedModuleMap }

/-- `loaded_module_map[name] = module`, under a new name. -/
def register (vm : CatVM) (name : Text) (module : VMModule) : CatVM :=
  { vm with loadedModuleMap := (name, module) :: vm.loadedModuleMap }

def modify (vm : CatVM) (name : Text) (f : VMModule → VMModule) : CatVM :=
  { vm with loadedModuleMap := vm.loadedModuleMap.map fun entry => (entry.1, if entry.1 = name then f entry.2 else entry.2) }

def modifyType (vm : CatVM) (name : Text) (index : Nat) (f : VMType → VMType) : CatVM :=
  vm.modify name fun mod => { mod with typeDefines := mod.typeDefines.modify index f }

theorem getModule_register (vm : CatVM) (name : Text) (module : VMModule) (k : Text) :
    (vm.register name module).getModule k = if k = name then some module else vm.getModule k := by
  by_cases here : k = name
  · simp [getModule, register, here]
  · simp [getModule, register, List.lookup_cons, beq_eq_false_iff_ne.mpr here, here]

theorem getModule_modify (vm : CatVM) (name : Text) (f : VMModule → VMModule) (k : Text) :
    (vm.modify name f).getModule k = (vm.getModule k).map (if k = name then f else id) := by
  simp only [getModule, modify]
  induction vm.loadedModuleMap with
  | nil => rfl
  | cons entry entries ih =>
    obtain ⟨key, module⟩ := entry
    by_cases here : k = key
    · subst here
      by_cases same : k = name <;> simp [same]
    · simpa [List.lookup_cons, beq_eq_false_iff_ne.mpr here] using ih

/-- How many of the pre-loaded texts are of modules that are not loaded. -/
def unloaded (vm : CatVM) : Nat := (vm.preLoadedModuleMap.filter fun entry => (vm.getModule entry.1).isNone).length

theorem unloaded_register {vm : CatVM} {name : Text} (module : VMModule) (absent : vm.getModule name = none)
    (present : vm.getPreLoadedModule name ≠ []) : (vm.register name module).unloaded < vm.unloaded := by
  have split : (vm.preLoadedModuleMap.filter fun entry => ((vm.register name module).getModule entry.1).isNone) =
      (vm.preLoadedModuleMap.filter fun entry => (vm.getModule entry.1).isNone).filter fun entry => entry.1 ≠ name := by
    rw [List.filter_filter]
    refine List.filter_congr fun entry _ => ?_
    rw [getModule_register]
    by_cases here : entry.1 = name <;> simp [here]
  obtain ⟨code, found⟩ : ∃ code, vm.preLoadedModuleMap.lookup name = some code := by
    cases found : vm.preLoadedModuleMap.lookup name with
    | none => exact absurd (by rw [getPreLoadedModule, found]; rfl) present
    | some code => exact ⟨code, rfl⟩
  have entry : (name, code) ∈ vm.preLoadedModuleMap := by
    obtain ⟨before, after, same, _⟩ := List.lookup_eq_some_iff.mp found
    rw [same]
    simp
  rw [unloaded, unloaded]
  show (vm.preLoadedModuleMap.filter fun entry => ((vm.register name module).getModule entry.1).isNone).length < _
  rw [split, List.length_filter_lt_length_iff_exists]
  exact ⟨(name, code), List.mem_filter.mpr ⟨entry, by simp [absent]⟩, by simp⟩

end CatVM

/-- The variables of `load_module` during its first loop. -/
structure LoadState where
  vm : CatVM
  preLoadModules : List Text
  loaded : List Text
  targetModule : Option Text
  first : Bool

/-- What the loop does with a module that it has parsed. -/
def LoadState.enter (s : LoadState) (name : Text) (module : VMModule) : LoadState :=
  { vm := s.vm.register name module
    preLoadModules := module.importModuleNames.foldl (fun names it => names.insert it) (s.preLoadModules.erase name)
    loaded := name :: s.loaded
    targetModule := if s.first then some name else s.targetModule
    first := false }

section Loader
variable (library : StandardLibrary) (order : LoadOrder)

/-- The first loop of `load_module`. A module that does not parse is a null
pointer, which is read. -/
def loadNames (pass : Nat) (s : LoadState) : Except LoadExit LoadState :=
  if more : s.preLoadModules = [] then .ok s
  else
    let currentName := order.first pass s.preLoadModules
    have _member := order.first_mem pass s.preLoadModules more
    if found : (s.vm.getModule currentName).isSome then
      loadNames (pass + 1) { s with preLoadModules := s.preLoadModules.erase currentName }
    else if _empty : s.vm.getPreLoadedModule currentName = [] then .error (.returnedNull s.vm)
    else
      match parse library currentName (s.vm.getPreLoadedModule currentName) with
      | .error failure => .error (.failed failure)
      | .ok none => .error (.failed .undefined)
      | .ok (some module) => loadNames (pass + 1) (s.enter currentName module)
termination_by (s.vm.unloaded, s.preLoadModules.length)
decreasing_by
  · have := List.length_erase_of_mem _member
    have := List.length_pos_of_mem _member
    exact Prod.Lex.right _ (by omega)
  · exact Prod.Lex.left _ _ (CatVM.unloaded_register module (by simpa using found) _empty)

variable {library order}

/-- One pass of the loop, with `*begin()`. -/
theorem loadNames_pass {pass : Nat} {s : LoadState} (more : s.preLoadModules ≠ []) {name : Text}
    (current : order.first pass s.preLoadModules = name) :
    loadNames library order pass s =
      if (s.vm.getModule name).isSome then
        loadNames library order (pass + 1) { s with preLoadModules := s.preLoadModules.erase name }
      else if s.vm.getPreLoadedModule name = [] then .error (.returnedNull s.vm)
      else
        match parse library name (s.vm.getPreLoadedModule name) with
        | .error failure => .error (.failed failure)
        | .ok none => .error (.failed .undefined)
        | .ok (some module) => loadNames library order (pass + 1) (s.enter name module) := by
  subst current
  rw [loadNames, dif_neg more]
  simp only [dite_eq_ite]

end Loader

namespace CatVM

def deref (vm : CatVM) (name : Text) : Except LoadExit VMModule :=
  match vm.getModule name with
  | some mod => .ok mod
  | none => .error (.failed .undefined)

/-- The type behind a pointer. Those of the primitives have no fields. -/
def typeAt (vm : CatVM) : TypePointer → Option VMType
  | .primitive _ => some (.make [] [] none)
  | .defined module index => (vm.getModule module).bind fun mod => mod.typeDefines[index]?

/-- Import `it` of a module. -/
def linkImport (name : Text) (vm : CatVM) (it : Text) : Except LoadExit CatVM :=
  match vm.getModule it with
  | none => .error (.returnedNull vm)
  | some _ => .ok (vm.modify name fun mod => { mod with importModules := mod.importModules ++ [it] })

def linkImports (vm : CatVM) (name : Text) : Except LoadExit CatVM := do
  let mod ← vm.deref name
  mod.importModuleNames.foldlM (linkImport name) vm

/-- `mod->import_modules[import_index]->type_define_map[type_name]`. -/
def lookupType (vm : CatVM) (mod : VMModule) (info : TypeInfo) : Except LoadExit (CatVM × Option TypePointer) :=
  match mod.importModules[info.importIndex]? with
  | none => .error (.failed .undefined)
  | some target => do
    let imported ← vm.deref target
    .ok (vm.modify target fun mod => { mod with typeDefineMap := mod.typeDefineMap.access info.typeName },
      (imported.typeDefineMap.get info.typeName).map (.defined target))

def linkField (mod : VMModule) (built : CatVM × List Field) (info : FieldInfo) : Except LoadExit (CatVM × List Field) :=
  match info.primitiveType with
  | some type => .ok (built.1, built.2 ++ [⟨info.fieldName, some (.primitive type)⟩])
  | none => do
    let (vm, type) ← built.1.lookupType mod info.userDefType
    .ok (vm, built.2 ++ [⟨info.fieldName, type⟩])

/-- The parent, if one is declared by a name. -/
def lookupParent (vm : CatVM) (mod : VMModule) (type : VMType) : Except LoadExit (CatVM × Option TypePointer) :=
  if type.parentInfo.typeName = [] then .ok (vm, type.parent) else vm.lookupType mod type.parentInfo

/-- The parent and the fields of a type. -/
def linkType (mod : VMModule) (built : CatVM × List VMType) (type : VMType) : Except LoadExit (CatVM × List VMType) := do
  let (vm, parent) ← built.1.lookupParent mod type
  let (vm, addFields) ← type.fieldInfos.foldlM (linkField mod) (vm, type.addFields)
  .ok (vm, built.2 ++ [{ type with parent, addFields }])

def linkTypes (vm : CatVM) (name : Text) : Except LoadExit CatVM := do
  let mod ← vm.deref name
  let (vm, typeDefines) ← mod.typeDefines.foldlM (linkType mod) (vm, [])
  .ok (vm.modify name fun mod => { mod with typeDefines })

def typePointers (vm : CatVM) : List TypePointer :=
  allTypes.map .primitive ++
    vm.loadedModuleMap.flatMap fun entry => (List.range entry.2.typeDefines.length).map (.defined entry.1)

theorem mem_typePointers {vm : CatVM} {pointer : TypePointer} {type : VMType} (here : vm.typeAt pointer = some type) :
    pointer ∈ vm.typePointers := by
  rw [typePointers, List.mem_append]
  cases pointer with
  | primitive type => exact .inl (List.mem_map_of_mem (by cases type <;> decide))
  | defined module index =>
    obtain ⟨mod, found, atIndex⟩ := Option.bind_eq_some_iff.mp here
    obtain ⟨before, after, same, _⟩ := List.lookup_eq_some_iff.mp found
    refine .inr (List.mem_flatMap.mpr ⟨(module, mod), by simp [same], ?_⟩)
    exact List.mem_map_of_mem (List.mem_range.mpr (List.getElem?_eq_some_iff.mp atIndex).1)

/-- The types from `current` up to the root. A type that comes twice ends the
whole call. -/
def parentChain (vm : CatVM) (foundTypes : List TypePointer) (current : Option TypePointer) :
    Except LoadExit (List VMType) :=
  match current with
  | none => .ok []
  | some pointer =>
    if pointer ∈ foundTypes then .error (.returnedNull vm)
    else
      match _here : vm.typeAt pointer with
      | none => .error (.failed .undefined)
      | some type => do
        let parents ← parentChain vm (pointer :: foundTypes) type.parent
        .ok (type :: parents)
termination_by (vm.typePointers.filter (· ∉ foundTypes)).length
decreasing_by
  rename_i fresh
  have split : vm.typePointers.filter (· ∉ pointer :: foundTypes) =
      (vm.typePointers.filter (· ∉ foundTypes)).filter (· ≠ pointer) := by
    rw [List.filter_filter]
    refine List.filter_congr fun other _ => ?_
    simp [List.mem_cons, not_or]
  rw [split, List.length_filter_lt_length_iff_exists]
  exact ⟨pointer, List.mem_filter.mpr ⟨mem_typePointers _here, by simpa using fresh⟩, by simp⟩

theorem parentChain_some {vm : CatVM} {foundTypes : List TypePointer} {pointer : TypePointer} (fresh : pointer ∉ foundTypes) :
    vm.parentChain foundTypes (some pointer) =
      match vm.typeAt pointer with
      | none => .error (.failed .undefined)
      | some type => vm.parentChain (pointer :: foundTypes) type.parent >>= fun parents => .ok (type :: parents) := by
  rw [parentChain, if_neg fresh]
  split <;> rename_i here <;> rw [here]

end CatVM

/-- The fields that are laid out before a name comes twice, and whether none
does. -/
def layFields (foundFieldNames : List Text) : List Field → List Field × Bool
  | [] => ([], true)
  | field :: fields =>
    if field.name ∈ foundFieldNames then ([], false)
    else
      let (laid, unique) := layFields (field.name :: foundFieldNames) fields
      (field :: laid, unique)

/-- The bit of one field in `reference_fields`. Its type is read. -/
def markField (bytes : List (BitVec 8)) (field : Field × Nat) : Except LoadExit (List (BitVec 8)) :=
  match field.1.type with
  | none => .error (.failed .undefined)
  | some (.primitive _) => .ok bytes
  | some (.defined _ _) => .ok (setFlag bytes field.2 true)

namespace CatVM

/-- The layout of one type. -/
def layType (name : Text) (vm : CatVM) (index : Nat) : Except LoadExit CatVM := do
  let mod ← vm.deref name
  match mod.typeDefines[index]? with
  | none => .error (.failed .undefined)
  | some type => do
    let parents ← vm.parentChain [] (some (.defined name index))
    let (laid, unique) := layFields [] (parents.reverse.flatMap (·.addFields))
    let allFields := type.allFields ++ laid
    let vm := vm.modifyType name index fun type => { type with allFields }
    if unique = false then .error (.returnedNull vm)
    else
      let referenceFields ← allFields.zipIdx.foldlM markField (createBitset allFields.length)
      .ok (vm.modifyType name index fun type => { type with referenceFields := some referenceFields })

def layTypes (vm : CatVM) (name : Text) : Except LoadExit CatVM := do
  let mod ← vm.deref name
  (List.range mod.typeDefines.length).foldlM (layType name) vm

def linkUsingType (mod : VMModule) (built : CatVM × List (Option TypePointer)) (info : TypeInfo) :
    Except LoadExit (CatVM × List (Option TypePointer)) := do
  let (vm, type) ← built.1.lookupType mod info
  .ok (vm, built.2 ++ [type])

def linkUsingTypes (vm : CatVM) (name : Text) : Except LoadExit CatVM := do
  let mod ← vm.deref name
  let (vm, usingTypes) ← mod.usingTypeInfos.foldlM (linkUsingType mod) (vm, mod.usingTypes)
  .ok (vm.modify name fun mod => { mod with usingTypes })

end CatVM

/-- The type of an argument or of the result. -/
def linkArgument (usingTypes : List (Option TypePointer)) (info : ArgumentInfo) : Except LoadExit (Option TypePointer) :=
  match info.primitiveType with
  | some type => .ok (some (.primitive type))
  | none =>
    match usingTypes[info.typeIndex]? with
    | some type => .ok type
    | none => .error (.failed .undefined)

def linkSignature (usingTypes : List (Option TypePointer)) (function : VMFunction) : Except LoadExit VMFunction := do
  let returnType ← linkArgument usingTypes function.returnTypeInfo
  let argumentTypes ← function.argumentTypeInfos.mapM (linkArgument usingTypes)
  .ok { function with returnType, argumentTypes := function.argumentTypes ++ argumentTypes }

/-- The object that `malloc` gives for a type with so many fields: none where the
heap has no cells of this size. -/
def allocatedFields (type : TypePointer) (fieldLength : Nat) : Option ModuleFields :=
  (HeapAllocator.chooseBlock fieldLength).map fun _ => ⟨type, fieldLength⟩

theorem allocatedFields_isSome {type : TypePointer} {fieldLength : Nat} (short : fieldLength < 2 ^ 60) :
    (allocatedFields type fieldLength).isSome ↔ fieldLength < 60 := by
  have small : objectSize fieldLength < 2 ^ 64 := by
    rw [objectSize, sizeofHeapObject]
    omega
  rw [allocatedFields, Option.isSome_map, Option.isSome_iff_ne_none, ne_eq, HeapAllocator.chooseBlock_none small, objectSize,
    sizeofHeapObject]
  omega

namespace CatVM

def linkSignatures (vm : CatVM) (name : Text) : Except LoadExit CatVM := do
  let mod ← vm.deref name
  let functions ← mod.functions.mapM (linkSignature mod.usingTypes)
  .ok (vm.modify name fun mod => { mod with functions })

/-- The object for the module's own fields, when it has a type of its name. -/
def allocateFields (vm : CatVM) (name : Text) : Except LoadExit CatVM := do
  let mod ← vm.deref name
  let vm := vm.modify name fun mod => { mod with typeDefineMap := mod.typeDefineMap.access mod.name }
  match mod.typeDefineMap.get mod.name with
  | none => .ok vm
  | some index =>
    match mod.typeDefines[index]? with
    | none => .error (.failed .undefined)
    | some type =>
      .ok (vm.modify name fun mod => { mod with moduleFields := allocatedFields (.defined name index) type.addFields.length })

/-- The position of a field by its name, in the orders that have one. -/
def linkFieldIndex (vm : CatVM) (mod : VMModule) (usingTypeIndex : Nat) (fieldName : Text) (fieldIndex : Nat) :
    Except LoadExit Nat :=
  if fieldName = [] then .ok fieldIndex
  else
    match mod.usingTypes[usingTypeIndex]?.join.bind vm.typeAt with
    | none => .error (.failed .undefined)
    | some type =>
      match type.allFields.findIdx? (·.name = fieldName) with
      | none => .ok fieldIndex
      | some i => if type.referenceFields = none then .error (.failed .undefined) else .ok i

/-- `Order::link`, with the label block map of the function. -/
def linkOrder (vm : CatVM) (mod : VMModule) (labelBlockMap : PointerMap Text Nat) :
    Order → Except LoadExit (PointerMap Text Nat × Order)
  | .jumpToLabel labelName _ =>
    .ok (labelBlockMap.access labelName, .jumpToLabel labelName (labelBlockMap.get labelName))
  | .setObjectFieldOwnership targetRegister fieldObjectRegisterIndex usingTypeIndex fieldName fieldIndex borrowLock => do
    let fieldIndex ← vm.linkFieldIndex mod usingTypeIndex fieldName fieldIndex
    .ok (labelBlockMap,
      .setObjectFieldOwnership targetRegister fieldObjectRegisterIndex usingTypeIndex fieldName fieldIndex borrowLock)
  | .getObjectFieldOwnership targetRegister resultRegister usingTypeIndex fieldName fieldIndex ownershipOrder => do
    let fieldIndex ← vm.linkFieldIndex mod usingTypeIndex fieldName fieldIndex
    .ok (labelBlockMap, .getObjectFieldOwnership targetRegister resultRegister usingTypeIndex fieldName fieldIndex ownershipOrder)
  | .newClassObject resultRegister usingTypeIndex _ fieldLength =>
    match mod.usingTypes[usingTypeIndex]? with
    | none => .error (.failed .undefined)
    | some usingType => .ok (labelBlockMap, .newClassObject resultRegister usingTypeIndex usingType fieldLength)
  | order => .ok (labelBlockMap, order)

def linkBlockOrder (vm : CatVM) (mod : VMModule) (built : PointerMap Text Nat × List Order) (order : Order) :
    Except LoadExit (PointerMap Text Nat × List Order) := do
  let (labelBlockMap, order) ← vm.linkOrder mod built.1 order
  .ok (labelBlockMap, built.2 ++ [order])

def linkBlock (vm : CatVM) (mod : VMModule) (built : PointerMap Text Nat × List LabelBlock) (block : LabelBlock) :
    Except LoadExit (PointerMap Text Nat × List LabelBlock) := do
  let (labelBlockMap, orders) ← block.orders.foldlM (vm.linkBlockOrder mod) (built.1, [])
  .ok (labelBlockMap, built.2 ++ [{ block with orders }])

def linkFunction (vm : CatVM) (mod : VMModule) (function : VMFunction) : Except LoadExit VMFunction := do
  let (labelBlockMap, labelBlocks) ← function.labelBlocks.foldlM (vm.linkBlock mod) (function.labelBlockMap, [])
  .ok { function with labelBlockMap, labelBlocks }

def linkOrders (vm : CatVM) (name : Text) : Except LoadExit CatVM := do
  let mod ← vm.deref name
  let functions ← mod.functions.mapM (vm.linkFunction mod)
  .ok (vm.modify name fun mod => { mod with functions })

/-- The loops of `load_module` over the modules that it has parsed. -/
def linkModules (vm : CatVM) (loaded : List Text) : Except LoadExit CatVM := do
  let vm ← loaded.foldlM linkImports vm
  let vm ← loaded.foldlM linkTypes vm
  let vm ← loaded.foldlM layTypes vm
  let vm ← loaded.foldlM linkUsingTypes vm
  let vm ← loaded.foldlM linkSignatures vm
  let vm ← loaded.foldlM allocateFields vm
  loaded.foldlM linkOrders vm

/-- `load_module`, with the module that it returns. -/
def loadModule (library : StandardLibrary) (order : LoadOrder) (vm : CatVM) (name : Text) :
    Except ParseFailure (CatVM × Option Text) :=
  match loadNames library order 0 ⟨vm, [name], [], none, true⟩ with
  | .error (.failed failure) => .error failure
  | .error (.returnedNull vm) => .ok (vm, none)
  | .ok s =>
    match s.vm.linkModules (order.traverse s.loaded) with
    | .error (.failed failure) => .error failure
    | .error (.returnedNull vm) => .ok (vm, none)
    | .ok vm => .ok (vm, s.targetModule)

end CatVM
end CatLa
