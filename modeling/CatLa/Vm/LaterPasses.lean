import CatLa.Vm.LoadPasses

namespace CatLa
open Lineage Outcome Relation TablePass

/-- What the order needs of the types that its module uses. -/
def Order.Links (typeOf : TypePointer → Option VMType) (usingTypes : List (Option TypePointer)) : Order → Prop
  | .setObjectFieldOwnership _ _ usingTypeIndex _ _ _ | .getObjectFieldOwnership _ _ usingTypeIndex _ _ _ =>
    ∃ type, usingTypes[usingTypeIndex]?.join.bind typeOf = some type ∧ type.referenceFields ≠ none
  | .newClassObject _ usingTypeIndex _ _ => usingTypeIndex < usingTypes.length
  | _ => True

def VMFunction.Links (typeOf : TypePointer → Option VMType) (usingTypes : List (Option TypePointer)) (function : VMFunction) : Prop :=
  ∀ block ∈ function.labelBlocks, ∀ order ∈ block.orders, order.Links typeOf usingTypes

theorem linkArgument_returns {usingTypes : List (Option TypePointer)} {info : ArgumentInfo}
    (fits : info.primitiveType = none → info.typeIndex < usingTypes.length) : ∃ type, linkArgument usingTypes info = .ok type := by
  unfold linkArgument
  cases here : info.primitiveType with
  | some type => exact ⟨_, rfl⟩
  | none =>
    dsimp only
    rw [List.getElem?_eq_getElem (fits here)]
    exact ⟨_, rfl⟩

theorem linkSignature_returns {usingTypes : List (Option TypePointer)} {function : VMFunction}
    (fits : ∀ info ∈ function.returnTypeInfo :: function.argumentTypeInfos,
      info.primitiveType = none → info.typeIndex < usingTypes.length) :
    ∃ function', linkSignature usingTypes function = .ok function' := by
  obtain ⟨returnType, result⟩ := linkArgument_returns (fits _ List.mem_cons_self)
  obtain ⟨argumentTypes, arguments⟩ := mapM_returns fun info member =>
    linkArgument_returns (fits info (List.mem_cons_of_mem _ member))
  rw [linkSignature, result, ok_bind, arguments, ok_bind]
  exact ⟨_, rfl⟩

namespace CatVM
variable {vm vm' : CatVM} {name : Text} {mod : VMModule}

theorem layType_maps {index : Nat} (run : layType name vm index = .ok vm') : vm'.maps = vm.maps := by
  obtain ⟨mod, here, run⟩ := bind_eq_ok.mp run
  split at run
  · exact absurd run (by simp)
  · obtain ⟨parents, above, run⟩ := bind_eq_ok.mp run
    dsimp only at run
    split at run
    · exact absurd run (by simp)
    · obtain ⟨bytes, bits, same⟩ := bind_eq_ok.mp run
      rw [← Except.ok.inj same, modifyType, maps_modify, modifyType, maps_modify]
      · exact fun _ => rfl
      · exact fun _ => rfl

theorem layTypes_maps {names : List Text} (run : names.foldlM layTypes vm = .ok vm') : vm'.maps = vm.maps := by
  refine foldlM_post (P := fun _ (after : CatVM) => after.maps = vm.maps) (fun k _ before after same step => ?_) run rfl
  obtain ⟨mod, here, step⟩ := bind_eq_ok.mp step
  refine foldlM_post (P := fun _ (after : CatVM) => after.maps = vm.maps) (fun index _ before after same step => ?_) step same
  exact (layType_maps step).trans same

theorem linkUsingTypes_returns (here : vm.getModule name = some mod)
    (resolves : ∀ info ∈ mod.usingTypeInfos, (info.resolve mod.importModules vm.typeNames).isSome) :
    ∃ vm', vm.linkUsingTypes name = .ok vm' ∧ vm'.maps = vm.maps := by
  let Left (rest : List TypeInfo) (types : CatVM × List (Option TypePointer)) : Prop :=
    types.1.getModule = vm.getModule ∧ ∀ info ∈ rest, info ∈ mod.usingTypeInfos
  have each (info : TypeInfo) (rest : List TypeInfo) (types : CatVM × List (Option TypePointer)) (left : Left (info :: rest) types) :
      ∃ types', linkUsingType mod types info = .ok types' ∧ Left rest types' := by
    obtain ⟨same, listed⟩ := left
    have resolved := resolves info (listed info List.mem_cons_self)
    rw [← same_typeNames same] at resolved
    obtain ⟨after, found, run, same'⟩ := lookupType_returns resolved
    rw [linkUsingType, run]
    exact ⟨_, rfl, same'.trans same, fun other member => listed other (List.mem_cons_of_mem info member)⟩
  have start : Left mod.usingTypeInfos (vm, mod.usingTypes) := ⟨rfl, fun _ member => member⟩
  obtain ⟨types, run, same, _⟩ := foldlM_returns each start
  rw [linkUsingTypes, deref_some here, ok_bind, run, ok_bind]
  refine ⟨_, rfl, ?_⟩
  rw [maps_modify]
  · funext k
    rw [maps, same, maps]
  · exact fun _ => rfl

theorem linkSignatures_returns (here : vm.getModule name = some mod) (fits : mod.SignaturesFit) :
    ∃ vm', vm.linkSignatures name = .ok vm' ∧ vm'.maps = vm.maps := by
  obtain ⟨functions, run⟩ := mapM_returns fun function member =>
    @linkSignature_returns mod.usingTypes function fun info listed =>
      fits _ (List.mem_map.mpr ⟨function, member, rfl⟩) info listed
  rw [linkSignatures, deref_some here, ok_bind, run, ok_bind]
  exact ⟨_, rfl, maps_modify fun _ => rfl⟩

theorem allocateFields_returns (here : vm.getModule name = some mod)
    (inside : ∀ index, mod.typeDefineMap.get mod.name = some index → index < mod.typeDefines.length) :
    ∃ vm', vm.allocateFields name = .ok vm' := by
  rw [allocateFields, deref_some here, ok_bind]
  dsimp only
  cases named : mod.typeDefineMap.get mod.name with
  | none => exact ⟨_, rfl⟩
  | some index =>
    dsimp only
    rw [List.getElem?_eq_getElem (inside index named)]
    exact ⟨_, rfl⟩

theorem linkOrder_returns {labelBlockMap : PointerMap Text Nat} {order : Order} (links : order.Links vm.typeAt mod.usingTypes) :
    ∃ linked, vm.linkOrder mod labelBlockMap order = .ok linked := by
  have position {usingTypeIndex fieldIndex : Nat} {fieldName : Text}
      (links : ∃ type, mod.usingTypes[usingTypeIndex]?.join.bind vm.typeAt = some type ∧ type.referenceFields ≠ none) :
      ∃ i, vm.linkFieldIndex mod usingTypeIndex fieldName fieldIndex = .ok i := by
    obtain ⟨type, here, bits⟩ := links
    unfold linkFieldIndex
    split
    · exact ⟨_, rfl⟩
    · rw [here]
      dsimp only
      split
      · exact ⟨_, rfl⟩
      · rw [if_neg bits]
        exact ⟨_, rfl⟩
  cases order with
  | setObjectFieldOwnership | getObjectFieldOwnership =>
    obtain ⟨i, run⟩ := position links
    rw [linkOrder, run]
    exact ⟨_, rfl⟩
  | newClassObject =>
    rw [linkOrder, List.getElem?_eq_getElem links]
    exact ⟨_, rfl⟩
  | jumpToLabel | returnFunction | getConstInteger | getArgument | addInteger => exact ⟨_, rfl⟩

theorem linkFunction_returns {function : VMFunction} (links : function.Links vm.typeAt mod.usingTypes) :
    ∃ function', vm.linkFunction mod function = .ok function' := by
  let Blocks (rest : List LabelBlock) (_ : PointerMap Text Nat × List LabelBlock) : Prop :=
    ∀ block ∈ rest, ∀ order ∈ block.orders, order.Links vm.typeAt mod.usingTypes
  let Orders (rest : List Order) (_ : PointerMap Text Nat × List Order) : Prop :=
    ∀ order ∈ rest, order.Links vm.typeAt mod.usingTypes
  have one (order : Order) (rest : List Order) (built : PointerMap Text Nat × List Order) (left : Orders (order :: rest) built) :
      ∃ built', vm.linkBlockOrder mod built order = .ok built' ∧ Orders rest built' := by
    obtain ⟨linked, run⟩ := @linkOrder_returns vm mod built.1 order (left order List.mem_cons_self)
    rw [linkBlockOrder, run]
    exact ⟨_, rfl, fun other member => left other (List.mem_cons_of_mem order member)⟩
  have each (block : LabelBlock) (rest : List LabelBlock) (built : PointerMap Text Nat × List LabelBlock)
      (left : Blocks (block :: rest) built) : ∃ built', vm.linkBlock mod built block = .ok built' ∧ Blocks rest built' := by
    have start : Orders block.orders (built.1, []) := left block List.mem_cons_self
    obtain ⟨orders, run, _⟩ := foldlM_returns one start
    rw [linkBlock, run]
    exact ⟨_, rfl, fun other member => left other (List.mem_cons_of_mem block member)⟩
  have start : Blocks function.labelBlocks (function.labelBlockMap, []) := links
  obtain ⟨blocks, run, _⟩ := foldlM_returns each start
  rw [linkFunction, run]
  exact ⟨_, rfl⟩

theorem linkOrders_returns (here : vm.getModule name = some mod)
    (links : ∀ function ∈ mod.functions, function.Links vm.typeAt mod.usingTypes) :
    ∃ vm', vm.linkOrders name = .ok vm' ∧ vm'.maps = vm.maps := by
  obtain ⟨functions, run⟩ := mapM_returns fun function member => linkFunction_returns (links function member)
  rw [linkOrders, deref_some here, ok_bind, run, ok_bind]
  exact ⟨_, rfl, maps_modify fun _ => rfl⟩

/-- The names of the modules, and their maps with the null pointers in them. -/
def namedMaps (vm : CatVM) (k : Text) : Option (Text × PointerMap Text Nat) :=
  (vm.getModule k).map fun mod => (mod.name, mod.typeDefineMap)

/-- The sixth pass looks its own name up in the map of a module. -/
theorem allocateFields_maps (run : vm.allocateFields name = .ok vm') :
    vm'.namedMaps = replaced (fun _ known => (known.1, known.2.access known.1)) (· = name) vm.namedMaps := by
  obtain ⟨mod, found, run⟩ := bind_eq_ok.mp run
  have found := deref_run found
  dsimp only at run
  split at run
  · obtain rfl := Except.ok.inj run
    funext k
    by_cases here : k = name
    · subst here
      simp [namedMaps, getModule_modify, replaced, found]
    · cases there : vm.getModule k <;> simp [namedMaps, getModule_modify, replaced, here, there]
  · split at run
    · exact absurd run (by simp)
    · obtain rfl := Except.ok.inj run
      funext k
      by_cases here : k = name
      · subst here
        simp [namedMaps, getModule_modify, replaced, found]
      · cases there : vm.getModule k <;> simp [namedMaps, getModule_modify, replaced, here, there]

theorem maps_namedMaps (vm : CatVM) (k : Text) : vm.maps k = (vm.namedMaps k).map (·.2) := by
  rw [maps, namedMaps, Option.map_map]
  rfl

section Passes
variable {names : List Text} (distinct : names.Nodup)
include distinct

theorem usingTypesPass_returns (ready : ∀ k ∈ names, ∃ mod, vm.getModule k = some mod ∧
      ∀ info ∈ mod.usingTypeInfos, (info.resolve mod.importModules vm.typeNames).isSome) :
    ∃ vm', names.foldlM linkUsingTypes vm = .ok vm' ∧ vm'.maps = vm.maps := by
  let Ready (view : Text → Option (Text → Option Nat)) (_ : Text) (mod : VMModule) : Prop :=
    ∀ info ∈ mod.usingTypeInfos, (info.resolve mod.importModules view).isSome
  have returns (vm : CatVM) (k : Text) (core : VMModule) (found : vm.entries k = some core)
      (resolves : Ready vm.typeNames k core) : ∃ vm', vm.linkUsingTypes k = .ok vm' ∧ vm'.maps = vm.maps := by
    obtain ⟨mod, here, rfl⟩ := entries_some found
    exact linkUsingTypes_returns here resolves
  refine returns_foldlM CatVM.entries (·.typeDefineMap.get) VMModule.withUsingTypes (fun _ _ _ => rfl)
    (fun run => linkUsingTypes_run run) returns distinct fun k member => ?_
  obtain ⟨mod, here, resolves⟩ := ready k member
  exact ⟨mod.core, entries_eq here, resolves⟩

theorem signaturesPass_returns (ready : ∀ k ∈ names, ∃ mod, vm.getModule k = some mod ∧ mod.SignaturesFit) :
    ∃ vm', names.foldlM linkSignatures vm = .ok vm' ∧ vm'.maps = vm.maps := by
  let Ready (_ : Text → Option Unit) (_ : Text) (mod : VMModule) : Prop := mod.SignaturesFit
  have returns (vm : CatVM) (k : Text) (core : VMModule) (found : vm.entries k = some core)
      (fits : Ready (viewOf (fun _ => ()) vm.entries) k core) : ∃ vm', vm.linkSignatures k = .ok vm' ∧ vm'.maps = vm.maps := by
    obtain ⟨mod, here, rfl⟩ := entries_some found
    exact linkSignatures_returns here fits
  refine returns_foldlM CatVM.entries (fun _ => ()) (fun _ _ => VMModule.withSignatures) (fun _ _ _ => rfl)
    (fun run => linkSignatures_run run) returns distinct fun k member => ?_
  obtain ⟨mod, here, fits⟩ := ready k member
  exact ⟨mod.core, entries_eq here, fits⟩

theorem fieldsPass_returns (ready : ∀ k ∈ names, ∃ mod, vm.getModule k = some mod ∧
      ∀ index, mod.typeDefineMap.get mod.name = some index → index < mod.typeDefines.length) :
    ∃ vm', names.foldlM allocateFields vm = .ok vm' ∧
      vm'.namedMaps = replaced (fun _ known => (known.1, known.2.access known.1)) (· ∈ names) vm.namedMaps := by
  let Ready (_ : Text → Option Unit) (_ : Text) (mod : VMModule) : Prop :=
    ∀ index, mod.typeDefineMap.get mod.name = some index → index < mod.typeDefines.length
  have returns (vm : CatVM) (k : Text) (core : VMModule) (found : vm.entries k = some core)
      (inside : Ready (viewOf (fun _ => ()) vm.entries) k core) : ∃ vm', vm.allocateFields k = .ok vm' ∧ () = () := by
    obtain ⟨mod, here, rfl⟩ := entries_some found
    obtain ⟨vm', run⟩ := allocateFields_returns here fun index named => inside index (by
      show mod.typeDefineMap.known.get mod.name = some index
      rw [PointerMap.get_known, named])
    exact ⟨vm', run, rfl⟩
  obtain ⟨vm', run, _⟩ := returns_foldlM CatVM.entries (fun _ => ()) (fun _ => VMModule.withFields) (fun _ _ _ => rfl)
    (fun run => allocateFields_run run) returns distinct (s := vm) fun k member => by
      obtain ⟨mod, here, inside⟩ := ready k member
      exact ⟨mod.core, entries_eq here, fun index named => inside index (by
        have named : mod.typeDefineMap.known.get mod.name = some index := named
        rwa [PointerMap.get_known] at named)⟩
  exact ⟨vm', run, foldlM_run CatVM.namedMaps (fun _ => ()) (fun _ _ known => (known.1, known.2.access known.1)) (fun _ _ _ => rfl)
    (fun run => allocateFields_maps run) distinct run⟩

theorem ordersPass_returns (ready : ∀ k ∈ names, ∃ mod, vm.getModule k = some mod ∧
      ∀ function ∈ mod.functions, function.Links vm.typeAt mod.usingTypes) :
    ∃ vm', names.foldlM linkOrders vm = .ok vm' ∧ vm'.maps = vm.maps := by
  let Ready (types : Text → Option (List VMType)) (_ : Text) (mod : VMModule) : Prop :=
    ∀ function ∈ mod.functions, function.Links (typeIn types) mod.usingTypes
  have returns (vm : CatVM) (k : Text) (core : VMModule) (found : vm.entries k = some core)
      (links : Ready vm.typesDefined k core) : ∃ vm', vm.linkOrders k = .ok vm' ∧ vm'.maps = vm.maps := by
    obtain ⟨mod, here, rfl⟩ := entries_some found
    exact linkOrders_returns here fun function member => typeIn_eq vm ▸ links function member
  refine returns_foldlM CatVM.entries (·.typeDefines) VMModule.withOrders (fun _ _ _ => rfl)
    (fun run => linkOrders_run run) returns distinct fun k member => ?_
  obtain ⟨mod, here, links⟩ := ready k member
  refine ⟨mod.core, entries_eq here, fun function member => ?_⟩
  show function.Links (typeIn vm.typesDefined) mod.usingTypes
  rw [typeIn_eq]
  exact links function member

end Passes
end CatVM
end CatLa
