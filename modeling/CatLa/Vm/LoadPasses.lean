import CatLa.Vm.PassesReturn

namespace CatLa
open Lineage Outcome Relation TablePass

section Names
variable {library : StandardLibrary} {vm : CatVM} {name : Text} {s : LoadState}

theorem Loading.same (loading : Loading library vm name s) {k : Text} (present : (vm.getModule k).isSome) :
    s.vm.getModule k = vm.getModule k := by
  refine loading.kept k fun member => ?_
  obtain ⟨source, entered, _⟩ := loading.entered k member
  rw [entered.absent] at present
  exact Bool.false_ne_true present

/-- The first loop leaves the modules that were there, and those that it has
read. -/
theorem Loading.modulesRead (loading : Loading library vm name s) (done : s.preLoadModules = []) (before : vm.Linked library) :
    ModulesRead library vm s.vm where
  sources k mod here := by
    by_cases member : k ∈ s.loaded
    · obtain ⟨source, entered, here'⟩ := loading.entered k member
      obtain rfl := Option.some.inj (here.symm.trans here')
      exact ⟨mod, entered.source, ⟨rfl, rfl, rfl, rfl, rfl⟩⟩
    · rw [loading.kept k member] at here
      exact ⟨mod, source_of_loaded here, ⟨rfl, rfl, rfl, rfl, rfl⟩⟩
  imports k mod here it imported := by
    by_cases member : k ∈ s.loaded
    · exact (loading.imports k member mod here it imported).resolve_right (by simp [done])
    · rw [loading.kept k member] at here
      have there := (before k mod here).imports it imported
      rw [loading.same there]
      exact there

/-- It has read the modules of the closure that were not there. -/
theorem Loading.loaded_iff (loading : Loading library vm name s) (done : s.preLoadModules = []) (before : vm.Linked library) (k : Text) :
    k ∈ s.loaded ↔ InClosure library vm name k ∧ vm.getModule k = none := by
  have modules := loading.modulesRead done before
  constructor
  · intro member
    obtain ⟨source, entered, _⟩ := loading.entered k member
    exact ⟨loading.reached k (.inl member), entered.absent⟩
  · rintro ⟨path, absent⟩
    have present : (s.vm.getModule k).isSome := by
      clear absent
      induction path with
      | refl => exact loading.start.resolve_right (by simp [done])
      | @tail k it _ imports ih =>
        obtain ⟨source, read, imported⟩ := imports
        obtain ⟨mod, here⟩ := Option.isSome_iff_exists.mp ih
        obtain ⟨source', read', same⟩ := modules.sources k mod here
        obtain rfl := Option.some.inj (read.symm.trans read')
        exact modules.imports k mod here it (same.importModuleNames ▸ imported)
    by_contra unread
    rw [loading.kept k unread, absent] at present
    exact Bool.false_ne_true present

/-- A map from names to types has the types of the module. -/
theorem source_typeDefineMap (before : vm.Linked library) {k : Text} {source : VMModule} (read : vm.source library k = some source) :
    source.typeDefineMap.get = (nameTable (·.typeName) source.typeDefines).get := by
  rw [CatVM.source] at read
  cases here : vm.getModule k with
  | some mod =>
    rw [here, Option.some_or] at read
    obtain rfl := Option.some.inj read
    exact (before k mod here).typeDefineMap
  | none =>
    rw [here, Option.none_or] at read
    obtain ⟨code, _, parsed⟩ := Option.bind_eq_some_iff.mp read
    split at parsed
    · rename_i found
      obtain rfl := parsed
      rw [(parse_unlinked found).typeDefineMap, buildTypeDefineMap_eq]
    · exact absurd parsed (by simp)

end Names

section Layout
variable (library : StandardLibrary) (vm : CatVM) (name : Text)

/-- The parents and the field types of the modules that a load reads name
types. -/
def TypesResolve : Prop :=
  ∀ k source, InClosure library vm name k → vm.getModule k = none → vm.source library k = some source →
    ∀ type ∈ source.typeDefines, type.Resolves (vm.declaredType library source)

/-- A load gets to the layout of these modules, in this state. -/
def ReachesLayout (order : LoadOrder) (loaded : List Text) (vm₂ : CatVM) : Prop :=
  ∃ s vm₁, loadNames library order 0 ⟨vm, [name], [], none, true⟩ = .ok s ∧ loaded = order.traverse s.loaded ∧
    loaded.foldlM CatVM.linkImports s.vm = .ok vm₁ ∧ loaded.foldlM CatVM.linkTypes vm₁ = .ok vm₂

/-- The modules before their types are laid out: those that were there, and
those that have been read. -/
structure AwaitingLayout (loaded : List Text) (vm₂ : CatVM) : Prop where
  distinct : loaded.Nodup
  mem_iff : ∀ k, k ∈ loaded ↔ InClosure library vm name k ∧ vm.getModule k = none
  modules : ModulesRead library vm vm₂
  kept : ∀ k ∉ loaded, vm₂.getModule k = vm.getModule k
  read : ∀ k ∈ loaded, ∃ source mod, Entered library vm k source ∧ vm₂.getModule k = some mod ∧
    mod.typeDefineMap = source.typeDefineMap ∧ mod.core = source.core.withImports.withTypes vm₂.typeNames k

variable {library vm name}

/-- A module that imports nothing but itself is all of its closure. -/
theorem closure_alone {source : VMModule} (read : vm.source library name = some source)
    (only : ∀ it ∈ source.importModuleNames, it = name) {k : Text} (path : InClosure library vm name k) : k = name := by
  induction path with
  | refl => rfl
  | tail _ imports ih =>
    obtain ⟨mod, read', member⟩ := imports
    rw [ih] at read'
    obtain rfl := Option.some.inj (read.symm.trans read')
    exact only _ member

namespace CatVM

/-- A module is what it is without null pointers, and its map. -/
theorem getModule_eq {vm vm' : CatVM} {k : Text} (entries : vm'.entries k = vm.entries k) (maps : vm'.maps k = vm.maps k) :
    vm'.getModule k = vm.getModule k := by
  unfold CatVM.entries at entries
  unfold CatVM.maps at maps
  cases here : vm.getModule k with
  | none =>
    rw [here, Option.map_none, Option.map_eq_none_iff] at maps
    exact maps
  | some mod =>
    rw [here, Option.map_some] at entries maps
    obtain ⟨mod', here', core⟩ := Option.map_eq_some_iff.mp entries
    rw [here', Option.map_some, Option.some.injEq] at maps
    rw [here', Option.some.injEq]
    calc mod' = { mod'.core with typeDefineMap := mod'.typeDefineMap } := rfl
      _ = { mod.core with typeDefineMap := mod.typeDefineMap } := by rw [core, maps]
      _ = mod := rfl

end CatVM

theorem withImports_made {k : Text} {mod source : VMModule} (unlinked : source.Unlinked k)
    (core : mod.core = source.core.withImports) :
    mod.typeDefines = source.typeDefines ∧ mod.importModuleNames = source.importModuleNames ∧
      mod.importModules = source.importModuleNames := by
  have types : mod.core.typeDefines = source.core.withImports.typeDefines := by rw [core]
  have names : mod.core.importModuleNames = source.core.withImports.importModuleNames := by rw [core]
  have modules : mod.core.importModules = source.core.withImports.importModules := by rw [core]
  refine ⟨types, names, modules.trans ?_⟩
  show source.importModules ++ source.importModuleNames = source.importModuleNames
  rw [unlinked.importModules, List.nil_append]

/-- A load gets to the layout when all imports are there and all types that are
declared are. -/
theorem reachesLayout (order : LoadOrder) (before : vm.Linked library) (read : ClosureRead library vm name)
    (resolves : TypesResolve library vm name) :
    ∃ loaded vm₂, ReachesLayout library vm name order loaded vm₂ ∧ AwaitingLayout library vm name loaded vm₂ := by
  obtain ⟨s, names⟩ := @loadNames_returns library vm name order read 0 _ (loading_start library vm name)
  obtain ⟨loading, done⟩ := loadNames_run 0 (loading_start library vm name) names
  have modules := loading.modulesRead done before
  have walked (k : Text) : k ∈ order.traverse s.loaded ↔ k ∈ s.loaded := (order.traverse_perm s.loaded).mem_iff
  have distinct := (order.traverse_perm s.loaded).nodup_iff.mpr loading.distinct
  obtain ⟨vm₁, imports, maps₁⟩ := @CatVM.importsPass_returns s.vm _ distinct fun k member => by
    obtain ⟨source, _, here⟩ := loading.entered k ((walked k).mp member)
    exact ⟨source, here, modules.imports k source here⟩
  have entries₁ := CatVM.importsPass distinct imports
  have modules₁ := modules.pass entries₁ fun _ _ => ⟨rfl, rfl, rfl, rfl, rfl⟩
  have read₁ (k : Text) (member : k ∈ s.loaded) : ∃ source mod, Entered library vm k source ∧ vm₁.getModule k = some mod ∧
      mod.core = source.core.withImports := by
    obtain ⟨source, entered, here⟩ := loading.entered k member
    have entry := congrFun entries₁ k
    rw [replaced_of _ _ ((walked k).mpr member), CatVM.entries_eq here, Option.map_some] at entry
    obtain ⟨mod, here', core⟩ := CatVM.entries_some entry
    exact ⟨source, mod, entered, here', core⟩
  obtain ⟨vm₂, types, maps₂⟩ := @CatVM.typesPass_returns vm₁ _ distinct fun k member => by
    obtain ⟨source, mod, entered, here, core⟩ := read₁ k ((walked k).mp member)
    obtain ⟨definitions, names, imports⟩ := withImports_made (parse_unlinked entered.parsed) core
    have declares : vm.declaredType library source = fun info => info.resolve mod.importModules vm₁.typeNames := by
      funext info
      rw [modules₁.declaredType here entered.source, imports, names]
    refine ⟨mod, here, ?_⟩
    rw [← declares, definitions]
    exact resolves k source (loading.reached k (.inl ((walked k).mp member))) entered.absent entered.source
  have entries₂ := CatVM.typesPass distinct types
  have typeNames : vm₂.typeNames = vm₁.typeNames := CatVM.viewOf_pass entries₂ fun _ _ => rfl
  refine ⟨_, vm₂, ⟨s, vm₁, names, rfl, imports, types⟩, distinct,
    fun k => (walked k).trans (loading.loaded_iff done before k), modules₁.pass entries₂ fun _ mod => ?_, fun k unread => ?_,
    fun k member => ?_⟩
  · refine ⟨rfl, rfl, rfl, rfl, ?_⟩
    simp [VMModule.withTypes, VMType.withParent, VMType.declaration, Function.comp_def]
  · have same : vm₂.getModule k = s.vm.getModule k := by
      refine CatVM.getModule_eq ?_ (by rw [maps₂, maps₁])
      rw [entries₂, replaced_of_not _ _ unread, entries₁, replaced_of_not _ _ unread]
    rw [same, loading.kept k (mt (walked k).mpr unread)]
  · obtain ⟨source, mod₁, entered, here₁, core₁⟩ := read₁ k ((walked k).mp member)
    have entry := congrFun entries₂ k
    rw [replaced_of _ _ member, CatVM.entries_eq here₁, Option.map_some, core₁, ← typeNames] at entry
    obtain ⟨mod, here, core⟩ := CatVM.entries_some entry
    refine ⟨source, mod, entered, here, ?_, core⟩
    obtain ⟨source', entered', start⟩ := loading.entered k ((walked k).mp member)
    obtain rfl := Option.some.inj (entered.source.symm.trans entered'.source)
    have map : vm₂.maps k = s.vm.maps k := by rw [maps₂, maps₁]
    rw [CatVM.maps, CatVM.maps, here, start] at map
    exact Option.some.inj map

theorem withTypes_made {k : Text} {mod source : VMModule} {typeNames : Text → Option (Text → Option Nat)}
    (unlinked : source.Unlinked k) (core : mod.core = source.core.withImports.withTypes typeNames k) :
    mod.typeDefines = source.typeDefines.map (·.withParent (·.resolve source.importModuleNames typeNames)) ∧
      mod.importModuleNames = source.importModuleNames := by
  obtain ⟨_, _, imports⟩ := @withImports_made k source.withImports source unlinked rfl
  have types : mod.core.typeDefines = (source.core.withImports.withTypes typeNames k).typeDefines := by rw [core]
  have names : mod.core.importModuleNames = (source.core.withImports.withTypes typeNames k).importModuleNames := by rw [core]
  refine ⟨types.trans ?_, names⟩
  show source.typeDefines.map (·.withParent (·.resolve source.withImports.importModules typeNames)) = _
  rw [imports]

namespace ModulesRead
variable {after : CatVM} (modules : ModulesRead library vm after) (before : vm.Linked library)
include modules before

theorem typeDefineMap {k : Text} {mod : VMModule} (here : after.getModule k = some mod) :
    mod.typeDefineMap.get = (nameTable (·.typeName) mod.typeDefines).get := by
  obtain ⟨source, read, same⟩ := modules.sources k mod here
  have names : mod.typeDefines.map (·.typeName) = source.typeDefines.map (·.typeName) := by
    have names := congrArg (List.map Prod.fst) same.types
    rwa [List.map_map, List.map_map] at names
  rw [same.typeDefineMap, source_typeDefineMap before read, nameTable_names, ← names, ← nameTable_names]

/-- A name that is resolved is that of a type. -/
theorem resolve_type {imports : List Text} {info : TypeInfo} {p : TypePointer}
    (resolved : info.resolve imports after.typeNames = some p) :
    ∃ target index mod type, p = .defined target index ∧ after.getModule target = some mod ∧
      mod.typeDefines[index]? = some type := by
  obtain ⟨target, imported, inTarget⟩ := Option.bind_eq_some_iff.mp resolved
  obtain ⟨index, atName, rfl⟩ := Option.map_eq_some_iff.mp inTarget
  obtain ⟨names, known, atName⟩ := Option.bind_eq_some_iff.mp atName
  rw [CatVM.typeNames_eq] at known
  obtain ⟨mod, there, rfl⟩ := Option.map_eq_some_iff.mp known
  rw [modules.typeDefineMap before there] at atName
  obtain ⟨type, atIndex, _⟩ := get_nameTable atName
  exact ⟨target, index, mod, type, rfl, there, atIndex⟩

end ModulesRead

namespace AwaitingLayout
variable {loaded : List Text} {vm₂ : CatVM} (awaiting : AwaitingLayout library vm name loaded vm₂)
include awaiting

theorem keeps : vm.Keeps vm₂ := fun k present => by
  have unread : k ∉ loaded := fun member => by
    rw [((awaiting.mem_iff k).mp member).2] at present
    exact Bool.false_ne_true present
  rw [CatVM.entries, awaiting.kept k unread, CatVM.entries]

theorem linked (before : vm.Linked library) {k : Text} (unread : k ∉ loaded) {mod : VMModule} (here : vm₂.getModule k = some mod) :
    LinkedModule library vm₂ k mod := by
  have there := (awaiting.kept k unread).symm.trans here
  exact (before k mod there).keep awaiting.keeps there here

/-- What the second pass has found for a type. -/
theorem types (before : vm.Linked library) (resolves : TypesResolve library vm name) {k : Text} {mod : VMModule}
    (here : vm₂.getModule k = some mod) {type : VMType} (member : type ∈ mod.typeDefines) :
    ResolvedType vm₂ mod type ∧ ∀ field ∈ type.addFields, field.type.isSome := by
  by_cases known : k ∈ loaded
  · obtain ⟨source, mod', entered, here', _, core⟩ := awaiting.read k known
    obtain rfl := Option.some.inj (here.symm.trans here')
    have unlinked := parse_unlinked entered.parsed
    obtain ⟨made, names⟩ := withTypes_made unlinked core
    rw [made] at member
    obtain ⟨read, listed, rfl⟩ := List.mem_map.mp member
    have blank := unlinked.types read listed
    have noParent : read.parent = none := by rw [blank]; rfl
    have noFields : read.addFields = [] := by rw [blank]; rfl
    refine ⟨⟨?_, ?_⟩, ?_⟩
    · simp only [VMType.withParent, noParent, names, VMType.parentInfo]
    · simp only [VMType.withParent, noFields, List.nil_append, names]
    · simp only [VMType.withParent, noFields, List.nil_append, List.forall_mem_map]
      intro info asked
      unfold FieldInfo.field
      cases primitive : info.primitiveType with
      | some type => rfl
      | none =>
        have resolved := (resolves k source ((awaiting.mem_iff k).mp known).1 entered.absent entered.source read listed).fields
          info asked primitive
        rwa [awaiting.modules.declaredType here entered.source, names] at resolved
  · obtain ⟨i, inside, at_i⟩ := List.getElem_of_mem member
    have linked := (awaiting.linked before known here).type here (List.getElem?_eq_some_iff.mpr ⟨inside, at_i⟩)
    obtain ⟨chain, layout, _⟩ := linked.layout
    refine ⟨⟨linked.parent, linked.addFields⟩, fun field listed => ?_⟩
    have there : parentOf vm₂.typeParents (.defined k i) = some (type.parent, type.addFields) := by
      rw [CatVM.parentOf_eq, CatVM.typeAt, here, Option.bind_some, List.getElem?_eq_some_iff.mpr ⟨inside, at_i⟩, Option.map_some]
    obtain ⟨above, rfl, _⟩ := layout.own there
    exact layout.typed field (by simp [listed])

theorem found (before : vm.Linked library) (resolves : TypesResolve library vm name) : TypesFound library vm vm₂ where
  sources := awaiting.modules.sources
  imports := awaiting.modules.imports
  types _ _ here _ member := (awaiting.types before resolves here member).1

/-- A type whose parents are resolved has all its ancestors. -/
theorem resolved (before : vm.Linked library) (resolves : TypesResolve library vm name) {k : Text} {i : Nat} {mod : VMModule}
    (here : vm₂.getModule k = some mod) (inside : i < mod.typeDefines.length) : Resolved vm₂.typeParents (.defined k i) := by
  have found := awaiting.found before resolves
  have reach (q : TypePointer) (path : ReflTransGen (IsParent (parentOf vm₂.typeParents)) (.defined k i) q) :
      ∃ target index mod type, q = .defined target index ∧ vm₂.getModule target = some mod ∧
        mod.typeDefines[index]? = some type := by
    induction path with
    | refl => exact ⟨k, i, mod, _, rfl, here, List.getElem?_eq_getElem inside⟩
    | tail _ step ih =>
      obtain ⟨target, index, mod, type, rfl, there, atIndex⟩ := ih
      obtain ⟨label, atStep⟩ := step
      rw [CatVM.parentOf_eq, CatVM.typeAt, there, Option.bind_some, atIndex, Option.map_some, Option.some.injEq,
        Prod.mk.injEq] at atStep
      have parent := (found.types target mod there type (List.mem_of_getElem? atIndex)).parent
      rw [atStep.1] at parent
      split at parent
      · exact absurd parent (by simp)
      · exact awaiting.modules.resolve_type before parent.symm
  intro q path
  obtain ⟨target, index, mod, type, rfl, there, atIndex⟩ := reach q path
  refine ⟨type.parent, type.addFields, ?_, (awaiting.types before resolves there (List.mem_of_getElem? atIndex)).2⟩
  rw [CatVM.parentOf_eq, CatVM.typeAt, there, Option.bind_some, atIndex, Option.map_some]

theorem awaits (before : vm.Linked library) (resolves : TypesResolve library vm name) {k : Text} (member : k ∈ loaded) :
    ∃ mod, vm₂.getModule k = some mod ∧ AwaitsLayout vm₂.typeParents k mod := by
  obtain ⟨source, mod, entered, here, _, core⟩ := awaiting.read k member
  refine ⟨mod, here, fun type listed => ?_, fun index inside => awaiting.resolved before resolves here inside⟩
  have unlinked := parse_unlinked entered.parsed
  rw [(withTypes_made unlinked core).1] at listed
  obtain ⟨read, asked, rfl⟩ := List.mem_map.mp listed
  have blank := unlinked.types read asked
  show read.allFields = []
  rw [blank]
  rfl

end AwaitingLayout
end Layout
end CatLa
