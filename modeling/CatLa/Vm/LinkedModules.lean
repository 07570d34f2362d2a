import CatLa.Vm.TypeLayouts
import CatLa.Vm.RepeatedLoads

namespace CatLa
open Outcome TablePass

/-- A module after all passes. The types are looked at by their names, by their
parents, and when they are laid out. -/
noncomputable def VMModule.linkedBy (typeNames : Text → Option (Text → Option Nat))
    (parents : Text → Option (List (Option TypePointer × List Field))) (types : Text → Option (List VMType)) (name : Text)
    (mod : VMModule) : VMModule :=
  ((((((mod.withImports.withTypes typeNames name).withLayout parents name).withUsingTypes typeNames name).withSignatures).withFields
    name).withOrders types name)

/-- The types in the signatures of a module's functions, and how many types
there are to choose from. -/
def VMModule.signatures (mod : VMModule) : List (List ArgumentInfo) × Nat :=
  (mod.functions.map fun function => function.returnTypeInfo :: function.argumentTypeInfos, mod.usingTypes.length)

/-- No signature asks for a type that is not there. -/
def VMModule.SignaturesFit (mod : VMModule) : Prop :=
  ∀ infos ∈ mod.signatures.1, ∀ info ∈ infos, info.primitiveType = none → info.typeIndex < mod.signatures.2

theorem linkArgument_fits {usingTypes : List (Option TypePointer)} {info : ArgumentInfo} {type : Option TypePointer}
    (run : linkArgument usingTypes info = .ok type) (used : info.primitiveType = none) : info.typeIndex < usingTypes.length := by
  unfold linkArgument at run
  rw [used] at run
  dsimp only at run
  split at run
  · rename_i found
    exact (List.getElem?_eq_some_iff.mp found).1
  · exact absurd run (by simp)

theorem linkSignature_fits {usingTypes : List (Option TypePointer)} {function function' : VMFunction}
    (run : linkSignature usingTypes function = .ok function') {info : ArgumentInfo}
    (member : info ∈ function.returnTypeInfo :: function.argumentTypeInfos) (used : info.primitiveType = none) :
    info.typeIndex < usingTypes.length := by
  obtain ⟨returnType, result, run⟩ := bind_eq_ok.mp run
  obtain ⟨argumentTypes, arguments, _⟩ := bind_eq_ok.mp run
  rcases List.mem_cons.mp member with rfl | member
  · exact linkArgument_fits result used
  · obtain ⟨type, here⟩ := each_of_mapM arguments member
    exact linkArgument_fits here used

namespace CatVM
variable {vm vm' : CatVM}

theorem linkSignatures_fit {name : Text} {core : VMModule} (run : vm.linkSignatures name = .ok vm')
    (here : vm.entries name = some core) : core.SignaturesFit := by
  obtain ⟨mod, found, run⟩ := bind_eq_ok.mp run
  obtain ⟨functions, linked, _⟩ := bind_eq_ok.mp run
  obtain rfl := Option.some.inj (here.symm.trans (entries_eq (deref_run found)))
  intro infos member info inside used
  obtain ⟨function, listed, rfl⟩ := List.mem_map.mp member
  obtain ⟨function', step⟩ := each_of_mapM linked listed
  exact linkSignature_fits step inside used

theorem linkSignatures_signatures {name : Text} (run : vm.linkSignatures name = .ok vm') :
    viewOf (·.signatures) vm'.entries = viewOf (·.signatures) vm.entries := by
  rw [linkSignatures_run run]
  refine viewOf_replaced (fun _ mod => ?_) _ _
  simp [VMModule.signatures, VMModule.withSignatures, VMFunction.withSignature]

/-- A pass leaves what it does not look at. -/
theorem viewOf_pass {X : Type} {look : VMModule → X} {change : Text → VMModule → VMModule} {names : List Text}
    (changed : vm'.entries = replaced change (· ∈ names) vm.entries) (steady : ∀ k mod, look (change k mod) = look mod) :
    viewOf look vm'.entries = viewOf look vm.entries := by
  rw [changed]
  exact viewOf_replaced steady _ _

section Passes
variable {names : List Text} (distinct : names.Nodup)
include distinct

theorem importsPass (run : names.foldlM linkImports vm = .ok vm') :
    vm'.entries = replaced (fun _ => VMModule.withImports) (· ∈ names) vm.entries :=
  foldlM_run CatVM.entries (fun _ => ()) (fun _ _ => VMModule.withImports) (fun _ _ _ => rfl)
    (fun run => linkImports_run run) distinct run

theorem typesPass (run : names.foldlM linkTypes vm = .ok vm') :
    vm'.entries = replaced (VMModule.withTypes vm.typeNames) (· ∈ names) vm.entries :=
  foldlM_run CatVM.entries (·.typeDefineMap.get) VMModule.withTypes (fun _ _ _ => rfl) (fun run => linkTypes_run run)
    distinct run

theorem layoutPass (run : names.foldlM layTypes vm = .ok vm') :
    vm'.entries = replaced (VMModule.withLayout vm.typeParents) (· ∈ names) vm.entries := by
  have pass := foldlM_run CatVM.entries (fun mod => mod.typeDefines.map fun type => (type.parent, type.addFields))
    VMModule.withLayout ?_ ?_ distinct run
  · exact pass
  · intro view name mod
    exact withLayout_parents view name mod
  · intro s name s' run
    exact layTypes_run run

theorem usingTypesPass (run : names.foldlM linkUsingTypes vm = .ok vm') :
    vm'.entries = replaced (VMModule.withUsingTypes vm.typeNames) (· ∈ names) vm.entries :=
  foldlM_run CatVM.entries (·.typeDefineMap.get) VMModule.withUsingTypes (fun _ _ _ => rfl)
    (fun run => linkUsingTypes_run run) distinct run

theorem signaturesPass (run : names.foldlM linkSignatures vm = .ok vm') :
    vm'.entries = replaced (fun _ => VMModule.withSignatures) (· ∈ names) vm.entries :=
  foldlM_run CatVM.entries (fun _ => ()) (fun _ _ => VMModule.withSignatures) (fun _ _ _ => rfl)
    (fun run => linkSignatures_run run) distinct run

theorem fieldsPass (run : names.foldlM allocateFields vm = .ok vm') :
    vm'.entries = replaced VMModule.withFields (· ∈ names) vm.entries :=
  foldlM_run CatVM.entries (fun _ => ()) (fun _ => VMModule.withFields) (fun _ _ _ => rfl)
    (fun run => allocateFields_run run) distinct run

theorem ordersPass (run : names.foldlM linkOrders vm = .ok vm') :
    vm'.entries = replaced (VMModule.withOrders vm.typesDefined) (· ∈ names) vm.entries :=
  foldlM_run CatVM.entries (·.typeDefines) VMModule.withOrders (fun _ _ _ => rfl) (fun run => linkOrders_run run)
    distinct run

theorem linkModules_run (run : vm.linkModules names = .ok vm') :
    vm'.entries = replaced (VMModule.linkedBy vm.typeNames vm'.typeParents vm'.typesDefined) (· ∈ names) vm.entries ∧
      vm'.typeNames = vm.typeNames ∧ ∀ k ∈ names, LaysOut vm'.typeParents k := by
  obtain ⟨vm₁, first, run⟩ := bind_eq_ok.mp run
  obtain ⟨vm₂, second, run⟩ := bind_eq_ok.mp run
  obtain ⟨vm₃, third, run⟩ := bind_eq_ok.mp run
  obtain ⟨vm₄, fourth, run⟩ := bind_eq_ok.mp run
  obtain ⟨vm₅, fifth, run⟩ := bind_eq_ok.mp run
  obtain ⟨vm₆, sixth, last⟩ := bind_eq_ok.mp run
  have imports := importsPass distinct first
  have types := typesPass distinct second
  have layout := layoutPass distinct third
  have usingTypes := usingTypesPass distinct fourth
  have signatures := signaturesPass distinct fifth
  have fields := fieldsPass distinct sixth
  have orders := ordersPass distinct last
  -- what a pass sees is what its predecessors have left
  have names₁ : vm₁.typeNames = vm.typeNames := viewOf_pass imports fun _ _ => rfl
  have names₂ : vm₂.typeNames = vm₁.typeNames := viewOf_pass types fun _ _ => rfl
  have names₃ : vm₃.typeNames = vm₂.typeNames := viewOf_pass layout fun _ _ => rfl
  have names₄ : vm₄.typeNames = vm₃.typeNames := viewOf_pass usingTypes fun _ _ => rfl
  have names₅ : vm₅.typeNames = vm₄.typeNames := viewOf_pass signatures fun _ _ => rfl
  have names₆ : vm₆.typeNames = vm₅.typeNames := viewOf_pass fields fun _ _ => rfl
  have names' : vm'.typeNames = vm₆.typeNames := viewOf_pass orders fun _ _ => rfl
  have types' : vm'.typesDefined = vm₆.typesDefined := viewOf_pass orders fun _ _ => rfl
  have parents₃ : vm₃.typeParents = vm₂.typeParents := viewOf_pass layout fun _ _ => withLayout_parents _ _ _
  have parents₄ : vm₄.typeParents = vm₃.typeParents := viewOf_pass usingTypes fun _ _ => rfl
  have parents₅ : vm₅.typeParents = vm₄.typeParents := viewOf_pass signatures fun _ _ => rfl
  have parents₆ : vm₆.typeParents = vm₅.typeParents := viewOf_pass fields fun _ _ => rfl
  have parents' : vm'.typeParents = vm₆.typeParents := viewOf_pass orders fun _ _ => rfl
  rw [parents₆, parents₅, parents₄, parents₃] at parents'
  rw [names₂, names₁] at names₃
  rw [names₆, names₅, names₄, names₃] at names'
  refine ⟨?_, names', fun k member => parents' ▸ layTypes_layouts third member⟩
  rw [types', parents', orders, fields, signatures, usingTypes, layout, types, imports, names₁, names₃]
  simp only [replaced_comp]
  rfl

theorem linkModules_fit (run : vm.linkModules names = .ok vm') {k : Text} (member : k ∈ names) {core : VMModule}
    (here : vm'.entries k = some core) : core.SignaturesFit := by
  obtain ⟨vm₁, first, run⟩ := bind_eq_ok.mp run
  obtain ⟨vm₂, second, run⟩ := bind_eq_ok.mp run
  obtain ⟨vm₃, third, run⟩ := bind_eq_ok.mp run
  obtain ⟨vm₄, fourth, run⟩ := bind_eq_ok.mp run
  obtain ⟨vm₅, fifth, run⟩ := bind_eq_ok.mp run
  obtain ⟨vm₆, sixth, last⟩ := bind_eq_ok.mp run
  have signatures₆ : viewOf (·.signatures) vm₆.entries = viewOf (·.signatures) vm₅.entries :=
    viewOf_pass (fieldsPass distinct sixth) fun _ _ => rfl
  have signatures' : viewOf (·.signatures) vm'.entries = viewOf (·.signatures) vm₆.entries := by
    refine viewOf_pass (ordersPass distinct last) fun _ mod => ?_
    simp [VMModule.signatures, VMModule.withOrders, VMFunction.linked]
  obtain ⟨vm₇, vm₈, same, step⟩ := foldlM_visits
    (P := fun vm₇ : CatVM => viewOf (·.signatures) vm₇.entries = viewOf (·.signatures) vm₄.entries)
    (fun _ _ _ same step => (linkSignatures_signatures step).trans same) fifth rfl member
  have signatures₅ : viewOf (·.signatures) vm₅.entries = viewOf (·.signatures) vm₄.entries := by
    refine viewOf_pass (signaturesPass distinct fifth) fun _ mod => ?_
    simp [VMModule.signatures, VMModule.withSignatures, VMFunction.withSignature]
  have view : viewOf (·.signatures) vm₇.entries k = some core.signatures := by
    rw [same, ← signatures₅, ← signatures₆, ← signatures', viewOf, here, Option.map_some]
  obtain ⟨core', there, signatures⟩ := Option.map_eq_some_iff.mp view
  have fit := linkSignatures_fit step there
  rw [VMModule.SignaturesFit, signatures] at fit
  exact fit

end Passes
end CatVM
end CatLa
