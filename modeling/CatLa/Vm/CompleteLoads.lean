import CatLa.Vm.LaterPasses
import CatLa.Vm.LayoutPass
import CatLa.Vm.LinkSoundness

namespace CatLa
open Lineage Outcome Relation TablePass

section Fits
variable (library : StandardLibrary) (vm : CatVM)

/-- The types that a module asks for are there, and its indices are in range. -/
structure SourceFits (source : VMModule) : Prop where
  types : ∀ type ∈ source.typeDefines, type.Resolves (vm.declaredType library source)
  usingTypes : ∀ info ∈ source.usingTypeInfos, (vm.declaredType library source info).isSome
  signatures : ∀ function ∈ source.functions, ∀ info ∈ function.returnTypeInfo :: function.argumentTypeInfos,
    info.primitiveType = none → info.typeIndex < source.usingTypeInfos.length
  orders : ∀ function targetRegister fieldObjectRegisterIndex usingTypeIndex fieldName fieldIndex borrowLock,
    source.HasOrder function
      (.setObjectFieldOwnership targetRegister fieldObjectRegisterIndex usingTypeIndex fieldName fieldIndex borrowLock) →
    usingTypeIndex < source.usingTypeInfos.length

/-- What a load of the name gets to is present and parses, and nothing in it is
missing, out of range, cyclic or repeated. -/
structure ClosureFits (name : Text) : Prop where
  present : ∀ k, InClosure library vm name k → vm.getModule k = none →
    ∃ code source, vm.preLoadedModuleMap.lookup k = some code ∧ parse library k code = .ok (some source)
  fits : ∀ k source, InClosure library vm name k → vm.getModule k = none → vm.source library k = some source → SourceFits library vm source
  chains : ∀ p, NewType library vm name p → ¬BadChain library vm (TakesParent library vm) p

/-- The texts that a load of the name gets to are not empty. -/
def TextsWritten (name : Text) : Prop := ∀ k, InClosure library vm name k → vm.getModule k = none → vm.getPreLoadedModule k ≠ []

/-- The modules after a load: those that were there, and the closure of the
name, with its imports. -/
structure LoadsClosure (name : Text) (modules : Text → Option VMModule) : Prop where
  names : ∀ k, (modules k).isSome ↔ (vm.getModule k).isSome ∨ InClosure library vm name k
  imports : ∀ k mod, vm.getModule k = none → modules k = some mod →
    mod.importModules.length = mod.importModuleNames.length ∧ ∀ (i : Nat) (it : Text), mod.importModuleNames[i]? = some it →
      mod.importModules[i]? = some it ∧ ∃ target, modules it = some target ∧ target.name = it
  kept : ∀ k mod, vm.getModule k = some mod → modules k = some mod

end Fits

section Unique
variable {vm vm' w w' : CatVM} {names names' : List Text}

/-- The passes lead to the same modules in whatever order they are walked. -/
theorem linkModules_unique (distinct : names.Nodup) (distinct' : names'.Nodup) (same : ∀ k, k ∈ names ↔ k ∈ names')
    (start : vm.entries = w.entries) (run : vm.linkModules names = .ok vm') (run' : w.linkModules names' = .ok w') :
    vm'.entries = w'.entries := by
  obtain ⟨vm₁, first, run⟩ := bind_eq_ok.mp run
  obtain ⟨vm₂, second, run⟩ := bind_eq_ok.mp run
  obtain ⟨vm₃, third, run⟩ := bind_eq_ok.mp run
  obtain ⟨vm₄, fourth, run⟩ := bind_eq_ok.mp run
  obtain ⟨vm₅, fifth, run⟩ := bind_eq_ok.mp run
  obtain ⟨vm₆, sixth, last⟩ := bind_eq_ok.mp run
  obtain ⟨w₁, first', run'⟩ := bind_eq_ok.mp run'
  obtain ⟨w₂, second', run'⟩ := bind_eq_ok.mp run'
  obtain ⟨w₃, third', run'⟩ := bind_eq_ok.mp run'
  obtain ⟨w₄, fourth', run'⟩ := bind_eq_ok.mp run'
  obtain ⟨w₅, fifth', run'⟩ := bind_eq_ok.mp run'
  obtain ⟨w₆, sixth', last'⟩ := bind_eq_ok.mp run'
  have same₁ : vm₁.entries = w₁.entries := by
    rw [CatVM.importsPass distinct first, CatVM.importsPass distinct' first']
    exact replaced_members same rfl start
  have same₂ : vm₂.entries = w₂.entries := by
    rw [CatVM.typesPass distinct second, CatVM.typesPass distinct' second']
    exact replaced_members same (by rw [CatVM.typeNames, same₁, CatVM.typeNames]) same₁
  have same₃ : vm₃.entries = w₃.entries := by
    rw [CatVM.layoutPass distinct third, CatVM.layoutPass distinct' third']
    exact replaced_members same (by rw [CatVM.typeParents, same₂, CatVM.typeParents]) same₂
  have same₄ : vm₄.entries = w₄.entries := by
    rw [CatVM.usingTypesPass distinct fourth, CatVM.usingTypesPass distinct' fourth']
    exact replaced_members same (by rw [CatVM.typeNames, same₃, CatVM.typeNames]) same₃
  have same₅ : vm₅.entries = w₅.entries := by
    rw [CatVM.signaturesPass distinct fifth, CatVM.signaturesPass distinct' fifth']
    exact replaced_members same rfl same₄
  have same₆ : vm₆.entries = w₆.entries := by
    rw [CatVM.fieldsPass distinct sixth, CatVM.fieldsPass distinct' sixth']
    exact replaced_members same rfl same₅
  rw [CatVM.ordersPass distinct last, CatVM.ordersPass distinct' last']
  exact replaced_members same (by rw [CatVM.typesDefined, same₆, CatVM.typesDefined]) same₆

theorem CatVM.namedMaps_eq (entries : viewOf (·.name) vm'.entries = viewOf (·.name) vm.entries) (maps : vm'.maps = vm.maps) :
    vm'.namedMaps = vm.namedMaps := by
  funext k
  have name := congrFun entries k
  have map := congrFun maps k
  simp only [viewOf, CatVM.entries, Option.map_map] at name
  unfold CatVM.maps at map
  unfold CatVM.namedMaps
  cases here : vm.getModule k with
  | none =>
    rw [here, Option.map_none, Option.map_eq_none_iff] at map
    rw [map]
  | some mod =>
    rw [here, Option.map_some] at map name
    obtain ⟨mod', here', same⟩ := Option.map_eq_some_iff.mp map
    rw [here', Option.map_some, Option.some.injEq] at name
    have name : mod'.name = mod.name := name
    rw [here', Option.map_some, Option.map_some, same, name]

end Unique
section Complete
variable {library : StandardLibrary} {vm : CatVM} {name : Text} {loaded : List Text} {order : LoadOrder}

theorem pass_entry {before after : CatVM} {change : Text → VMModule → VMModule} (changed : after.entries = replaced change (· ∈ loaded) before.entries)
    {k : Text} (member : k ∈ loaded) {mod : VMModule} (here : before.getModule k = some mod) :
    ∃ mod', after.getModule k = some mod' ∧ mod'.core = change k mod.core := by
  have entry := congrFun changed k
  rw [replaced_of _ _ member, CatVM.entries_eq here, Option.map_some] at entry
  exact CatVM.entries_some entry

/-- What the later passes need of a module that has been read. -/
structure LaidModule (vm₃ : CatVM) (source mod : VMModule) : Prop where
  importModules : mod.importModules = source.importModuleNames
  usingTypeInfos : mod.usingTypeInfos = source.usingTypeInfos
  usingTypes : mod.usingTypes = []
  functions : mod.functions = source.functions
  uses : ∀ info ∈ source.usingTypeInfos, ∃ p type, info.resolve source.importModuleNames vm₃.typeNames = some p ∧
    vm₃.typeAt p = some type ∧ type.referenceFields ≠ none

theorem AwaitingLayout.laidModule {vm₂ vm₃ : CatVM} (awaiting : AwaitingLayout library vm name loaded vm₂) (before : vm.Linked library)
    (fits : ∀ k source, InClosure library vm name k → vm.getModule k = none → vm.source library k = some source → SourceFits library vm source)
    (run : loaded.foldlM CatVM.layTypes vm₂ = .ok vm₃) {k : Text} (member : k ∈ loaded) :
    ∃ source mod, Entered library vm k source ∧ vm₃.getModule k = some mod ∧ LaidModule vm₃ source mod := by
  have resolves : TypesResolve library vm name := fun k source path absent read => (fits k source path absent read).types
  obtain ⟨source, mod₂, entered, here₂, _, core₂⟩ := awaiting.read k member
  obtain ⟨modules, laid⟩ := awaiting.laid before resolves run
  obtain ⟨mod, here, core⟩ := pass_entry (CatVM.layoutPass awaiting.distinct run) member here₂
  have unlinked := parse_unlinked entered.parsed
  rw [core₂] at core
  have imports : mod.core.importModules = (source.core.withImports.withTypes vm₂.typeNames k).importModules := by rw [core]; rfl
  have infos : mod.core.usingTypeInfos = (source.core.withImports.withTypes vm₂.typeNames k).usingTypeInfos := by rw [core]; rfl
  have types : mod.core.usingTypes = (source.core.withImports.withTypes vm₂.typeNames k).usingTypes := by rw [core]; rfl
  have functions : mod.core.functions = (source.core.withImports.withTypes vm₂.typeNames k).functions := by rw [core]; rfl
  have importModules : mod.importModules = source.importModuleNames := by
    refine imports.trans ?_
    show source.importModules ++ source.importModuleNames = source.importModuleNames
    rw [unlinked.importModules, List.nil_append]
  refine ⟨source, mod, entered, here, importModules, infos, types.trans unlinked.usingTypes, functions, fun info asked => ?_⟩
  have declared := (fits k source ((awaiting.mem_iff k).mp member).1 entered.absent entered.source).usingTypes info asked
  obtain ⟨source', read, same⟩ := modules.sources k mod here
  obtain rfl := Option.some.inj (read.symm.trans entered.source)
  rw [modules.declaredType here entered.source, same.importModuleNames] at declared
  obtain ⟨p, resolved⟩ := Option.isSome_iff_exists.mp declared
  obtain ⟨target, index, mod', type, rfl, there, atIndex⟩ := modules.resolve_type before resolved
  refine ⟨_, type, resolved, by rw [CatVM.typeAt, there, Option.bind_some, atIndex], ?_⟩
  rw [(laid target mod' index type there atIndex).referenceFields]
  exact Option.some_ne_none _

theorem LaidModule.links {vm₃ : CatVM} {source mod : VMModule} {k : Text} (laid : LaidModule vm₃ source mod)
    (unlinked : source.Unlinked k) (fits : SourceFits library vm source) {function read : VMFunction} (listed : read ∈ source.functions)
    (blocks : function.labelBlocks = read.labelBlocks) :
    function.Links vm₃.typeAt (source.usingTypeInfos.map (·.resolve source.importModuleNames vm₃.typeNames)) := by
  intro block inside order member
  rw [blocks] at inside
  have blank := (unlinked.functions read listed).orders inside member
  cases order with
  | setObjectFieldOwnership targetRegister fieldObjectRegisterIndex usingTypeIndex fieldName fieldIndex borrowLock =>
    have bound := fits.orders read _ _ _ _ _ _ ⟨listed, block, inside, member⟩
    obtain ⟨p, type, resolved, there, bits⟩ := laid.uses _ (List.getElem_mem bound)
    refine ⟨type, ?_, bits⟩
    rw [List.getElem?_map, List.getElem?_eq_getElem bound, Option.map_some, resolved]
    exact there
  | getObjectFieldOwnership => exact blank.elim
  | newClassObject => exact blank.elim
  | jumpToLabel | returnFunction | getConstInteger | getArgument | addInteger => trivial

/-- The passes behind the layout return, and look up nothing that is not there
but the names of the modules. -/
theorem AwaitingLayout.laterPasses {vm₂ vm₃ : CatVM} (awaiting : AwaitingLayout library vm name loaded vm₂) (before : vm.Linked library)
    (fits : ∀ k source, InClosure library vm name k → vm.getModule k = none → vm.source library k = some source → SourceFits library vm source)
    (run : loaded.foldlM CatVM.layTypes vm₂ = .ok vm₃) :
    ∃ vm₄ vm₅ vm₆ vm', loaded.foldlM CatVM.linkUsingTypes vm₃ = .ok vm₄ ∧ loaded.foldlM CatVM.linkSignatures vm₄ = .ok vm₅ ∧
      loaded.foldlM CatVM.allocateFields vm₅ = .ok vm₆ ∧ loaded.foldlM CatVM.linkOrders vm₆ = .ok vm' ∧
      vm'.namedMaps = replaced (fun _ known => (known.1, known.2.access known.1)) (· ∈ loaded) vm₃.namedMaps := by
  have distinct := awaiting.distinct
  have resolves : TypesResolve library vm name := fun k source path absent read => (fits k source path absent read).types
  have modules₃ := (awaiting.laid before resolves run).1
  have ready₃ (k : Text) (member : k ∈ loaded) := awaiting.laidModule before fits run member
  obtain ⟨vm₄, run₄, maps₄⟩ := CatVM.usingTypesPass_returns distinct fun k member => by
    obtain ⟨source, mod, _, here, laid⟩ := ready₃ k member
    refine ⟨mod, here, fun info asked => ?_⟩
    rw [laid.usingTypeInfos] at asked
    obtain ⟨p, _, resolved, _⟩ := laid.uses info asked
    rw [laid.importModules, resolved]
    rfl
  have entries₄ := CatVM.usingTypesPass distinct run₄
  have ready₄ (k : Text) (member : k ∈ loaded) : ∃ source mod mod₄, Entered library vm k source ∧ LaidModule vm₃ source mod ∧
      vm₄.getModule k = some mod₄ ∧ mod₄.functions = source.functions ∧
      mod₄.usingTypes = source.usingTypeInfos.map (·.resolve source.importModuleNames vm₃.typeNames) := by
    obtain ⟨source, mod, entered, here, laid⟩ := ready₃ k member
    obtain ⟨mod₄, here₄, core⟩ := pass_entry entries₄ member here
    have functions : mod₄.core.functions = (mod.core.withUsingTypes vm₃.typeNames k).functions := by rw [core]
    have types : mod₄.core.usingTypes = (mod.core.withUsingTypes vm₃.typeNames k).usingTypes := by rw [core]
    refine ⟨source, mod, mod₄, entered, laid, here₄, functions.trans laid.functions, types.trans ?_⟩
    show mod.usingTypes ++ mod.usingTypeInfos.map (·.resolve mod.importModules vm₃.typeNames) = _
    rw [laid.usingTypes, laid.usingTypeInfos, laid.importModules, List.nil_append]
  obtain ⟨vm₅, run₅, maps₅⟩ := CatVM.signaturesPass_returns distinct fun k member => by
    obtain ⟨source, mod, mod₄, entered, laid, here₄, functions, types⟩ := ready₄ k member
    refine ⟨mod₄, here₄, fun infos listed info inside userDefined => ?_⟩
    obtain ⟨function, known, rfl⟩ := List.mem_map.mp listed
    rw [VMModule.signatures, types, List.length_map]
    exact (fits k source ((awaiting.mem_iff k).mp member).1 entered.absent entered.source).signatures function (functions ▸ known)
      info inside userDefined
  have entries₅ := CatVM.signaturesPass distinct run₅
  have modules₅ : ModulesRead library vm vm₅ :=
    (modules₃.pass entries₄ fun _ _ => ⟨rfl, rfl, rfl, rfl, rfl⟩).pass entries₅ fun _ _ => ⟨rfl, rfl, rfl, rfl, rfl⟩
  obtain ⟨vm₆, run₆, maps₆⟩ := CatVM.fieldsPass_returns distinct fun k member => by
    obtain ⟨_, _, mod₄, _, _, here₄, _⟩ := ready₄ k member
    obtain ⟨mod₅, here₅, _⟩ := pass_entry entries₅ member here₄
    refine ⟨mod₅, here₅, fun index named => ?_⟩
    rw [modules₅.typeDefineMap before here₅] at named
    obtain ⟨type, atIndex, _⟩ := get_nameTable named
    exact (List.getElem?_eq_some_iff.mp atIndex).1
  have entries₆ := CatVM.fieldsPass distinct run₆
  have types₆ : vm₆.typeAt = vm₃.typeAt := by
    have types₄ : vm₄.typesDefined = vm₃.typesDefined := CatVM.viewOf_pass entries₄ fun _ _ => rfl
    have types₅ : vm₅.typesDefined = vm₄.typesDefined := CatVM.viewOf_pass entries₅ fun _ _ => rfl
    have types₆ : vm₆.typesDefined = vm₅.typesDefined := CatVM.viewOf_pass entries₆ fun _ _ => rfl
    rw [← CatVM.typeIn_eq, types₆, types₅, types₄, CatVM.typeIn_eq]
  obtain ⟨vm', run', maps'⟩ := @CatVM.ordersPass_returns vm₆ loaded distinct fun k member => by
    obtain ⟨source, mod, mod₄, entered, laid, here₄, functions, types⟩ := ready₄ k member
    obtain ⟨mod₅, here₅, core₅⟩ := pass_entry entries₅ member here₄
    obtain ⟨mod₆, here₆, core₆⟩ := pass_entry entries₆ member here₅
    rw [core₅] at core₆
    have functions₆ : mod₆.core.functions = (mod₄.core.withSignatures.withFields k).functions := by rw [core₆]
    have types₄ : mod₆.core.usingTypes = (mod₄.core.withSignatures.withFields k).usingTypes := by rw [core₆]
    have functions₆ : mod₆.functions = mod₄.functions.map (·.withSignature mod₄.usingTypes) := functions₆
    have types₄ : mod₆.usingTypes = mod₄.usingTypes := types₄
    refine ⟨mod₆, here₆, fun function listed => ?_⟩
    rw [functions₆] at listed
    obtain ⟨read, known, rfl⟩ := List.mem_map.mp listed
    rw [functions] at known
    rw [types₆, types₄, types]
    exact laid.links (parse_unlinked entered.parsed)
      (fits k source ((awaiting.mem_iff k).mp member).1 entered.absent entered.source) known rfl
  refine ⟨vm₄, vm₅, vm₆, vm', run₄, run₅, run₆, run', ?_⟩
  have named' : vm'.namedMaps = vm₆.namedMaps := CatVM.namedMaps_eq (CatVM.viewOf_pass (CatVM.ordersPass distinct run') fun _ _ => rfl) maps'
  have named₅ : vm₅.namedMaps = vm₄.namedMaps := CatVM.namedMaps_eq (CatVM.viewOf_pass entries₅ fun _ _ => rfl) maps₅
  have named₄ : vm₄.namedMaps = vm₃.namedMaps := CatVM.namedMaps_eq (CatVM.viewOf_pass entries₄ fun _ _ => rfl) maps₄
  rw [named', maps₆, named₅, named₄]

theorem ClosureFits.closureRead (fits : ClosureFits library vm name) (texts : TextsWritten library vm name) :
    ClosureRead library vm name := fun k path absent => by
  obtain ⟨code, source, found, parsed⟩ := fits.present k path absent
  have text := texts k path absent
  rw [CatVM.getPreLoadedModule, found, Option.getD_some] at text
  refine ⟨source, absent, ?_, ?_⟩
  · rwa [CatVM.getPreLoadedModule, found, Option.getD_some]
  · rwa [CatVM.getPreLoadedModule, found, Option.getD_some]

/-- What the first loop leaves does not depend on the order of its passes. -/
theorem Loading.unique {s s' : LoadState} (loading : Loading library vm name s) (done : s.preLoadModules = [])
    (loading' : Loading library vm name s') (done' : s'.preLoadModules = []) (before : vm.Linked library) :
    (∀ k, k ∈ s.loaded ↔ k ∈ s'.loaded) ∧ s.vm.getModule = s'.vm.getModule := by
  have same (k : Text) : k ∈ s.loaded ↔ k ∈ s'.loaded :=
    (loading.loaded_iff done before k).trans (loading'.loaded_iff done' before k).symm
  refine ⟨same, funext fun k => ?_⟩
  by_cases member : k ∈ s.loaded
  · obtain ⟨source, entered, here⟩ := loading.entered k member
    obtain ⟨source', entered', here'⟩ := loading'.entered k ((same k).mp member)
    rw [here, here', Option.some.inj (entered.source.symm.trans entered'.source)]
  · rw [loading.kept k member, loading'.kept k (mt (same k).mpr member)]

/-- A load of a name whose closure is in order returns. -/
theorem load_completes (order : LoadOrder) (before : vm.Linked library) (absent : vm.getModule name = none)
    (fits : ClosureFits library vm name) (texts : TextsWritten library vm name) :
    ∃ s vm', Loading library vm name s ∧ s.preLoadModules = [] ∧ vm.loadModule library order name = .ok (vm', some name) ∧
      s.vm.linkModules (order.traverse s.loaded) = .ok vm' ∧
      vm'.namedMaps = replaced (fun _ known => (known.1, known.2.access known.1)) (· ∈ s.loaded) s.vm.namedMaps := by
  have resolves : TypesResolve library vm name := fun k source path absent read => (fits.fits k source path absent read).types
  obtain ⟨loaded, vm₂, ⟨s, vm₁, names, rfl, imports, types⟩, awaiting⟩ :=
    reachesLayout order before (fits.closureRead texts) resolves
  obtain ⟨loading, done⟩ := loadNames_run 0 (loading_start library vm name) names
  have walked (k : Text) : k ∈ order.traverse s.loaded ↔ k ∈ s.loaded := (order.traverse_perm s.loaded).mem_iff
  obtain ⟨vm₃, layout⟩ : ∃ vm₃, (order.traverse s.loaded).foldlM CatVM.layTypes vm₂ = .ok vm₃ := by
    rcases CatVM.layTypes_decide awaiting.distinct fun k member => awaiting.awaits before resolves member with
      ⟨vm₃, run, _⟩ | ⟨_, _, k, member, stuck⟩
    · exact ⟨vm₃, run⟩
    · exact absurd ((awaiting.laysOut_iff before resolves).mpr fits.chains k member) stuck
  obtain ⟨vm₄, vm₅, vm₆, vm', run₄, run₅, run₆, run', named⟩ := awaiting.laterPasses before fits.fits layout
  have links : s.vm.linkModules (order.traverse s.loaded) = .ok vm' := by
    rw [CatVM.linkModules, imports, ok_bind, types, ok_bind, layout, ok_bind, run₄, ok_bind, run₅, ok_bind, run₆, ok_bind, run']
  have target : s.targetModule = some name := by
    rcases loading.target with ⟨_, _, nothing, _⟩ | ⟨_, target, _⟩
    · have member := (loading.loaded_iff done before name).mpr ⟨.refl, absent⟩
      rw [nothing] at member
      exact absurd member List.not_mem_nil
    · exact target
  refine ⟨s, vm', loading, done, ?_, links, ?_⟩
  · rw [CatVM.loadModule, names]
    dsimp only
    rw [links, ← target]
  · have maps₂ : vm₂.maps = s.vm.maps := by
      funext k
      by_cases member : k ∈ s.loaded
      · obtain ⟨source, mod, entered, here, map, _⟩ := awaiting.read k ((walked k).mpr member)
        obtain ⟨source', entered', here'⟩ := loading.entered k member
        rw [CatVM.maps, CatVM.maps, here, here', Option.map_some, Option.map_some, map,
          Option.some.inj (entered.source.symm.trans entered'.source)]
      · rw [CatVM.maps, CatVM.maps, awaiting.kept k (mt (walked k).mp member), loading.kept k member]
    have distinct := awaiting.distinct
    have names₁ : viewOf (·.name) vm₁.entries = viewOf (·.name) s.vm.entries :=
      CatVM.viewOf_pass (CatVM.importsPass distinct imports) fun _ _ => rfl
    have names₂ : viewOf (·.name) vm₂.entries = viewOf (·.name) vm₁.entries :=
      CatVM.viewOf_pass (CatVM.typesPass distinct types) fun _ _ => rfl
    have names₃ : viewOf (·.name) vm₃.entries = viewOf (·.name) vm₂.entries :=
      CatVM.viewOf_pass (CatVM.layoutPass distinct layout) fun _ _ => rfl
    have named₂ : vm₂.namedMaps = s.vm.namedMaps := CatVM.namedMaps_eq (names₂.trans names₁) maps₂
    have named₃ : vm₃.namedMaps = vm₂.namedMaps := CatVM.namedMaps_eq names₃ (CatVM.layTypes_maps layout)
    rw [named, named₃, named₂]
    exact replaced_members walked rfl rfl

/-- A load of a name that is not loaded, with a closure of texts that are not
empty, parse and have all that they ask for, returns the module. It leaves the
modules that were there as they are, adds the rest of the closure with its
imports, and the order in which it walks its sets does not matter. -/
theorem loadModule_loads (reached : Reached library vm) (absent : vm.getModule name = none) (fits : ClosureFits library vm name)
    (texts : TextsWritten library vm name) :
    ∃ modules, LoadsClosure library vm name modules ∧
      ∀ order, ∃ vm', vm.loadModule library order name = .ok (vm', some name) ∧ vm'.getModule = modules := by
  have before := reached.linked
  obtain ⟨s, first, loading, done, run, links, named⟩ := load_completes firstListed before absent fits texts
  obtain ⟨_, loaded, linked⟩ := loadModule_done run
  refine ⟨first.getModule, ⟨linked.loaded_iff before, fun k mod fresh here => ?_, fun k mod here => ?_⟩, fun order => ?_⟩
  · have complete := linked.linked before k mod here
    rw [complete.importModules]
    refine ⟨rfl, fun i it atIndex => ⟨atIndex, ?_⟩⟩
    obtain ⟨target, there⟩ := Option.isSome_iff_exists.mp (complete.imports it (List.mem_of_getElem? atIndex))
    obtain ⟨_, source, parsed, made⟩ := (linked.linked before it target there).read
    exact ⟨target, there, (VMModule.linkedFrom made).name.trans (parse_unlinked parsed).ownName⟩
  · have present : (vm.getModule k).isSome := by rw [here]; rfl
    have other : k ∉ s.loaded := fun member => by
      rw [((loading.loaded_iff done before k).mp member).2] at here
      exact absurd here (by simp)
    rw [← here]
    refine CatVM.getModule_eq (linked.keeps k present) ?_
    rw [CatVM.maps_namedMaps, named, replaced_of_not _ _ other, ← CatVM.maps_namedMaps, CatVM.maps, loading.kept k other,
      CatVM.maps]
  · obtain ⟨s', vm', loading', done', run', links', named'⟩ := load_completes order before absent fits texts
    obtain ⟨members, modules⟩ := loading'.unique done' loading done before
    refine ⟨vm', run', funext fun k => CatVM.getModule_eq (congrFun ?_ k) ?_⟩
    · refine linkModules_unique ((order.traverse_perm s'.loaded).nodup_iff.mpr loading'.distinct)
        ((firstListed.traverse_perm s.loaded).nodup_iff.mpr loading.distinct) (fun k => ?_) ?_ links' links
      · rw [(order.traverse_perm s'.loaded).mem_iff, (firstListed.traverse_perm s.loaded).mem_iff, members]
      · funext k
        rw [CatVM.entries, modules, CatVM.entries]
    · have maps : s'.vm.namedMaps = s.vm.namedMaps := by
        funext k
        rw [CatVM.namedMaps, modules, CatVM.namedMaps]
      rw [CatVM.maps_namedMaps, named', CatVM.maps_namedMaps, named, replaced_members members rfl maps]

end Complete

theorem derived_fits : ClosureFits plainLibrary derivedVM ['a'] where
  present k path _ := by
    rcases derived_closure path with rfl | rfl
    · exact ⟨_, _, rfl, derived_entered.parsed⟩
    · exact ⟨_, _, rfl, base_entered.parsed⟩
  fits k source path absent read := by
    have types := derived_resolves k source path absent read
    have none : source.usingTypeInfos = [] ∧ source.functions = [] := by
      rcases derived_closure path with rfl | rfl
      · obtain rfl := Option.some.inj (derived_entered.source.symm.trans read)
        exact ⟨rfl, rfl⟩
      · obtain rfl := Option.some.inj (base_entered.source.symm.trans read)
        exact ⟨rfl, rfl⟩
    refine ⟨types, fun _ member => ?_, fun _ member => ?_, fun _ _ _ _ _ _ _ has => ?_⟩
    · exact absurd (none.1 ▸ member) List.not_mem_nil
    · exact absurd (none.2 ▸ member) List.not_mem_nil
    · exact absurd (none.2 ▸ has.1) List.not_mem_nil
  chains _ := derived_chains

theorem loadModule_loads_derived : ∃ modules, LoadsClosure plainLibrary derivedVM ['a'] modules ∧
    ∀ order, ∃ vm, derivedVM.loadModule plainLibrary order ['a'] = .ok (vm, some ['a']) ∧ vm.getModule = modules :=
  loadModule_loads .start rfl derived_fits fun k path _ => by
    rcases derived_closure path with rfl | rfl <;> decide

/-- A module whose text is empty: it parses, as a module with nothing in it. -/
def emptyVM : CatVM := ⟨[(['a'], [])], []⟩

def emptyParts : ModuleParts := ⟨[], [], [], [], []⟩

theorem empty_parsed : parse plainLibrary ['a'] [] = .ok (some (emptyParts.module ['a'])) :=
  parse_parts (by decide +kernel)

theorem empty_source : emptyVM.source plainLibrary ['a'] = some (emptyParts.module ['a']) :=
  CatVM.source_parsed rfl rfl empty_parsed

/-- Nothing is wrong with it, and it is not loaded. -/
theorem loadModule_loads_empty : ClosureFits plainLibrary emptyVM ['a'] ∧ emptyVM.getModule ['a'] = none ∧
    ∀ order, emptyVM.loadModule plainLibrary order ['a'] = .ok (emptyVM, none) := by
  have alone {k : Text} (path : InClosure plainLibrary emptyVM ['a'] k) : k = ['a'] :=
    closure_alone empty_source (fun _ member => absurd member List.not_mem_nil) path
  refine ⟨⟨fun k path _ => ?_, fun k source path _ read => ?_, ?_⟩, rfl, fun order => loadModule_empty rfl rfl⟩
  · obtain rfl := alone path
    exact ⟨_, _, rfl, empty_parsed⟩
  · obtain rfl := alone path
    obtain rfl := Option.some.inj (empty_source.symm.trans read)
    exact ⟨fun _ member => absurd member List.not_mem_nil, fun _ member => absurd member List.not_mem_nil,
      fun _ member => absurd member List.not_mem_nil, fun _ _ _ _ _ _ _ has => absurd has.1 List.not_mem_nil⟩
  · rintro _ ⟨k, i, rfl, path, _, declared⟩
    obtain rfl := alone path
    rw [CatVM.declaration, empty_source] at declared
    exact absurd declared (by simp [ModuleParts.module, VMModule.make, emptyParts])

end CatLa
