import CatLa.Vm.Declarations

namespace CatLa
open Lineage Outcome Relation TablePass

section Names
variable (library : StandardLibrary) (vm : CatVM) (name : Text)

/-- Every module that a load gets to is loaded, or has a text that is read. -/
def ClosureRead : Prop := ∀ k, InClosure library vm name k → vm.getModule k = none → ∃ source, Entered library vm k source

variable {library vm name} {order : LoadOrder} {s : LoadState}

theorem Loading.text (loading : Loading library vm name s) (k : Text) : s.vm.getPreLoadedModule k = vm.getPreLoadedModule k := by
  rw [CatVM.getPreLoadedModule, loading.texts, CatVM.getPreLoadedModule]

theorem Loading.waits (loading : Loading library vm name s) (read : ClosureRead library vm name) {k : Text}
    (member : k ∈ s.preLoadModules) (absent : s.vm.getModule k = none) : ∃ source, Entered library vm k source := by
  refine read k (loading.reached k (.inr member)) ?_
  rw [← loading.kept k fun known => ?_, absent]
  obtain ⟨mod, _, here⟩ := loading.entered k known
  exact absurd (here.symm.trans absent) (by simp)

/-- The first loop ends, with all modules that it gets to. -/
theorem loadNames_returns (read : ClosureRead library vm name) (pass : Nat) {s : LoadState} (loading : Loading library vm name s) :
    ∃ s', loadNames library order pass s = .ok s' := by
  induction pass, s using loadNames.induct library order with
  | case1 pass s done => exact ⟨s, by rw [loadNames, dif_pos done]⟩
  | case2 pass s more _ _ found ih =>
    rw [loadNames_pass more rfl, if_pos found]
    exact ih (loading.skip found)
  | case3 pass s more currentName member absent empty =>
    obtain ⟨source, entered⟩ := loading.waits read member (by simpa using absent)
    exact absurd ((loading.text currentName).symm.trans empty) entered.text
  | case4 pass s more currentName member absent text failure failed =>
    obtain ⟨source, entered⟩ := loading.waits read member (by simpa using absent)
    rw [loading.text currentName, entered.parsed] at failed
    exact absurd failed (by simp)
  | case5 pass s more currentName member absent text failed =>
    obtain ⟨source, entered⟩ := loading.waits read member (by simpa using absent)
    rw [loading.text currentName, entered.parsed] at failed
    exact absurd failed (by simp)
  | case6 pass s more currentName member absent text module parsed ih =>
    rw [loadNames_pass more rfl, if_neg absent, if_neg text, parsed]
    exact ih (loading.enter member (by simpa using absent) text parsed)

end Names

/-- The parent and the fields of a type name types. -/
structure VMType.Resolves (resolve : TypeInfo → Option TypePointer) (type : VMType) : Prop where
  parent : type.parentInfo.typeName ≠ [] → (resolve type.parentInfo).isSome
  fields : ∀ info ∈ type.fieldInfos, info.primitiveType = none → (resolve info.userDefType).isSome

namespace CatVM
variable {vm : CatVM} {name : Text} {mod : VMModule}

/-- The maps from names to types, with the null pointers in them. -/
def maps (vm : CatVM) (k : Text) : Option (PointerMap Text Nat) := (vm.getModule k).map (·.typeDefineMap)

theorem maps_modify {f : VMModule → VMModule} (steady : ∀ mod, (f mod).typeDefineMap = mod.typeDefineMap) :
    (vm.modify name f).maps = vm.maps := by
  funext k
  rw [maps, getModule_modify, Option.map_map, maps]
  refine congrFun (congrArg Option.map (funext fun mod => ?_)) _
  rw [Function.comp_apply]
  split
  · exact steady mod
  · rfl

theorem getModule_fixed {f : VMModule → VMModule} (fixed : ∀ mod, vm.getModule name = some mod → f mod = mod) :
    (vm.modify name f).getModule = vm.getModule := by
  funext k
  rw [getModule_modify]
  split
  · rename_i here
    subst here
    cases found : vm.getModule k with
    | none => rfl
    | some mod => rw [Option.map_some, fixed mod found]
  · exact congrFun Option.map_id _

theorem same_typeNames {vm' : CatVM} (same : vm'.getModule = vm.getModule) : vm'.typeNames = vm.typeNames := by
  rw [typeNames_eq, typeNames_eq, same]

theorem lookupType_returns {info : TypeInfo} (resolved : (info.resolve mod.importModules vm.typeNames).isSome) :
    ∃ vm' found, vm.lookupType mod info = .ok (vm', found) ∧ vm'.getModule = vm.getModule := by
  obtain ⟨q, resolved⟩ := Option.isSome_iff_exists.mp resolved
  obtain ⟨target, imported, inTarget⟩ := Option.bind_eq_some_iff.mp resolved
  obtain ⟨index, found, rfl⟩ := Option.map_eq_some_iff.mp inTarget
  obtain ⟨names, known, atName⟩ := Option.bind_eq_some_iff.mp found
  rw [typeNames_eq] at known
  obtain ⟨mod', here, rfl⟩ := Option.map_eq_some_iff.mp known
  rw [lookupType, imported]
  dsimp only
  rw [deref_some here]
  refine ⟨_, _, rfl, getModule_fixed fun mod'' here'' => ?_⟩
  obtain rfl := Option.some.inj (here.symm.trans here'')
  rw [PointerMap.access_present (by rw [atName]; rfl)]

theorem linkField_returns {built : CatVM × List Field} {info : FieldInfo}
    (resolved : info.primitiveType = none → (info.userDefType.resolve mod.importModules built.1.typeNames).isSome) :
    ∃ built', linkField mod built info = .ok built' ∧ built'.1.getModule = built.1.getModule := by
  unfold linkField
  split
  · exact ⟨_, rfl, rfl⟩
  · rename_i userDefined
    obtain ⟨vm', found, run, same⟩ := lookupType_returns (resolved userDefined)
    rw [run]
    exact ⟨_, rfl, same⟩

theorem linkType_returns {built : CatVM × List VMType} {type : VMType}
    (resolves : type.Resolves (·.resolve mod.importModules built.1.typeNames)) :
    ∃ built', linkType mod built type = .ok built' ∧ built'.1.getModule = built.1.getModule := by
  have above : ∃ result, built.1.lookupParent mod type = .ok result ∧ result.1.getModule = built.1.getModule := by
    unfold lookupParent
    split
    · exact ⟨_, rfl, rfl⟩
    · rename_i named
      obtain ⟨vm', found, run, same⟩ := lookupType_returns (resolves.parent named)
      exact ⟨_, run, same⟩
  obtain ⟨⟨vm₁, parent⟩, above, same⟩ := above
  let Left (rest : List FieldInfo) (fields : CatVM × List Field) : Prop :=
    fields.1.getModule = built.1.getModule ∧ ∀ info ∈ rest, info ∈ type.fieldInfos
  have each (info : FieldInfo) (rest : List FieldInfo) (fields : CatVM × List Field) (left : Left (info :: rest) fields) :
      ∃ fields', linkField mod fields info = .ok fields' ∧ Left rest fields' := by
    obtain ⟨same, listed⟩ := left
    have resolved := resolves.fields info (listed info List.mem_cons_self)
    rw [← same_typeNames same] at resolved
    obtain ⟨fields', run, same'⟩ := linkField_returns resolved
    exact ⟨fields', run, same'.trans same, fun info' member => listed info' (List.mem_cons_of_mem info member)⟩
  have start : Left type.fieldInfos (vm₁, type.addFields) := ⟨same, fun _ member => member⟩
  obtain ⟨fields, run, same, _⟩ := foldlM_returns each start
  rw [linkType, above, ok_bind]
  dsimp only
  rw [run, ok_bind]
  exact ⟨_, rfl, same⟩

theorem linkTypes_returns (here : vm.getModule name = some mod)
    (resolves : ∀ type ∈ mod.typeDefines, type.Resolves (·.resolve mod.importModules vm.typeNames)) :
    ∃ vm', vm.linkTypes name = .ok vm' ∧ vm'.maps = vm.maps := by
  let Left (rest : List VMType) (types : CatVM × List VMType) : Prop :=
    types.1.getModule = vm.getModule ∧ ∀ type ∈ rest, type ∈ mod.typeDefines
  have each (type : VMType) (rest : List VMType) (types : CatVM × List VMType) (left : Left (type :: rest) types) :
      ∃ types', linkType mod types type = .ok types' ∧ Left rest types' := by
    obtain ⟨same, listed⟩ := left
    have resolved := resolves type (listed type List.mem_cons_self)
    rw [← same_typeNames same] at resolved
    obtain ⟨types', run, same'⟩ := linkType_returns resolved
    exact ⟨types', run, same'.trans same, fun type' member => listed type' (List.mem_cons_of_mem type member)⟩
  have start : Left mod.typeDefines (vm, []) := ⟨rfl, fun _ member => member⟩
  obtain ⟨types, run, same, _⟩ := foldlM_returns each start
  rw [linkTypes, deref_some here, ok_bind, run, ok_bind]
  refine ⟨_, rfl, ?_⟩
  rw [maps_modify]
  · funext k
    rw [maps, same, maps]
  · exact fun _ => rfl

theorem linkImports_returns (here : vm.getModule name = some mod)
    (present : ∀ it ∈ mod.importModuleNames, (vm.getModule it).isSome) :
    ∃ vm', vm.linkImports name = .ok vm' ∧ vm'.maps = vm.maps := by
  let Left (rest : List Text) (vm' : CatVM) : Prop := vm'.maps = vm.maps ∧ ∀ it ∈ rest, it ∈ mod.importModuleNames
  have each (it : Text) (rest : List Text) (vm' : CatVM) (left : Left (it :: rest) vm') :
      ∃ vm'', linkImport name vm' it = .ok vm'' ∧ Left rest vm'' := by
    obtain ⟨same, listed⟩ := left
    obtain ⟨imported, there⟩ := Option.isSome_iff_exists.mp (present it (listed it List.mem_cons_self))
    have known : vm'.maps it = some imported.typeDefineMap := by rw [same, maps, there, Option.map_some]
    obtain ⟨imported', there', _⟩ := Option.map_eq_some_iff.mp known
    unfold linkImport
    rw [there']
    refine ⟨_, rfl, ?_, fun it' member => listed it' (List.mem_cons_of_mem it member)⟩
    rw [maps_modify]
    · exact same
    · exact fun _ => rfl
  have start : Left mod.importModuleNames vm := ⟨rfl, fun _ member => member⟩
  obtain ⟨vm', run, same, _⟩ := foldlM_returns each start
  rw [linkImports, deref_some here, ok_bind]
  exact ⟨vm', run, same⟩

section Passes
variable {names : List Text} (distinct : names.Nodup)
include distinct

theorem importsPass_returns
    (ready : ∀ k ∈ names, ∃ mod, vm.getModule k = some mod ∧ ∀ it ∈ mod.importModuleNames, (vm.getModule it).isSome) :
    ∃ vm', names.foldlM linkImports vm = .ok vm' ∧ vm'.maps = vm.maps := by
  let Ready (view : Text → Option Unit) (_ : Text) (mod : VMModule) : Prop := ∀ it ∈ mod.importModuleNames, (view it).isSome
  have returns (vm : CatVM) (k : Text) (core : VMModule) (found : vm.entries k = some core)
      (present : Ready (viewOf (fun _ => ()) vm.entries) k core) : ∃ vm', vm.linkImports k = .ok vm' ∧ vm'.maps = vm.maps := by
    obtain ⟨mod, here, rfl⟩ := entries_some found
    exact linkImports_returns here fun it imported => by simpa [viewOf] using present it imported
  refine returns_foldlM CatVM.entries (fun _ => ()) (fun _ _ => VMModule.withImports) (fun _ _ _ => rfl)
    (fun run => linkImports_run run) returns distinct fun k member => ?_
  obtain ⟨mod, here, present⟩ := ready k member
  exact ⟨mod.core, entries_eq here, fun it imported => by simpa [viewOf] using present it imported⟩

theorem typesPass_returns (ready : ∀ k ∈ names, ∃ mod, vm.getModule k = some mod ∧
      ∀ type ∈ mod.typeDefines, type.Resolves (·.resolve mod.importModules vm.typeNames)) :
    ∃ vm', names.foldlM linkTypes vm = .ok vm' ∧ vm'.maps = vm.maps := by
  let Ready (view : Text → Option (Text → Option Nat)) (_ : Text) (mod : VMModule) : Prop :=
    ∀ type ∈ mod.typeDefines, type.Resolves (·.resolve mod.importModules view)
  have returns (vm : CatVM) (k : Text) (core : VMModule) (found : vm.entries k = some core)
      (resolves : Ready vm.typeNames k core) : ∃ vm', vm.linkTypes k = .ok vm' ∧ vm'.maps = vm.maps := by
    obtain ⟨mod, here, rfl⟩ := entries_some found
    exact linkTypes_returns here resolves
  refine returns_foldlM CatVM.entries (·.typeDefineMap.get) VMModule.withTypes (fun _ _ _ => rfl)
    (fun run => linkTypes_run run) returns distinct fun k member => ?_
  obtain ⟨mod, here, resolves⟩ := ready k member
  exact ⟨mod.core, entries_eq here, resolves⟩

end Passes
end CatVM
end CatLa
