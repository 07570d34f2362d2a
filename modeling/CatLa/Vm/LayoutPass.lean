import CatLa.Vm.LinkSoundness
import CatLa.Vm.LoadPasses
import CatLa.Vm.ObjectSizes

namespace CatLa
open Lineage Outcome Relation TablePass

section Declared
variable (library : StandardLibrary) (vm : CatVM)

/-- The fields that a type declares. -/
def CatVM.declaredFields (p : TypePointer) : List Field :=
  match vm.declaration library p with
  | none => []
  | some (mod, type) => type.fieldInfos.map (·.field (vm.declaredType library mod))

/-- A type of a module that a load of the name reads. -/
def NewType (name : Text) (p : TypePointer) : Prop :=
  ∃ k i, p = .defined k i ∧ InClosure library vm name k ∧ vm.getModule k = none ∧ (vm.declaration library p).isSome

section Parents
variable (parent : TypePointer → TypePointer → Prop)

/-- A type whose chain of parents comes back to itself, or has two fields of one
name. -/
def BadChain (p : TypePointer) : Prop :=
  ∃ q, ReflTransGen parent p q ∧ (TransGen parent q q ∨ RepeatsField library vm parent q)

/-- The layout of a type: its fields stand behind those of its parent. -/
structure LaidOutType (after : CatVM) (p : TypePointer) (type : VMType) : Prop where
  root : (∀ q, ¬parent p q) → type.allFields = vm.declaredFields library p
  child : ∀ q, parent p q →
    ∃ above, after.typeAt q = some above ∧ type.allFields = above.allFields ++ vm.declaredFields library p
  indices : ∀ q, TransGen parent p q → ∃ above, after.typeAt q = some above ∧ above.allFields <+: type.allFields
  distinct : (type.allFields.map (·.name)).Nodup
  references : ∃ bytes, type.referenceFields = some bytes ∧ ∀ i field, type.allFields[i]? = some field →
    (getFlag bytes i = true ↔ ∀ primitive, field.type ≠ some (.primitive primitive))

end Parents
end Declared

/-- A field whose type is not a primitive. -/
def Field.holdsObject (field : Field) : Bool :=
  match field.type with
  | some (.defined _ _) => true
  | _ => false

theorem referenceBits_eq (fields : List Field) :
    referenceBits fields = bitsetAfter fields.length (fields.zipIdx.map fun field => (field.2, field.1.holdsObject)) := by
  rw [referenceBits, bitsetAfter, List.foldl_map]
  refine congrFun (congrFun (congrArg List.foldl (funext fun bytes => funext fun field => ?_)) _) _
  unfold Field.holdsObject
  rcases field.1.type with _ | _ | _
  · exact (setFlag_false bytes field.2).symm
  · exact (setFlag_false bytes field.2).symm
  · rfl

/-- The bits say which fields hold objects. -/
theorem getFlag_referenceBits {fields : List Field} {i : Nat} {field : Field} (here : fields[i]? = some field) :
    getFlag (referenceBits fields) i = field.holdsObject := by
  have inside : ∀ call ∈ fields.zipIdx.map fun field => (field.2, field.1.holdsObject), call.1 < fields.length := by
    intro call member
    obtain ⟨⟨field, index⟩, listed, rfl⟩ := List.mem_map.mp member
    exact (List.getElem?_eq_some_iff.mp (List.mk_mem_zipIdx_iff_getElem?.mp listed)).1
  rw [referenceBits_eq, getFlag_bitsetAfter inside, Bool.eq_iff_iff, decide_eq_true_iff]
  simp only [List.mem_map, Prod.mk.injEq]
  constructor
  · rintro ⟨⟨field', index⟩, listed, rfl, holds⟩
    obtain rfl := Option.some.inj (here.symm.trans (List.mk_mem_zipIdx_iff_getElem?.mp listed))
    exact holds
  · intro holds
    exact ⟨(field, i), List.mk_mem_zipIdx_iff_getElem?.mpr here, rfl, holds⟩

theorem holdsObject_iff {field : Field} (typed : field.type.isSome) :
    field.holdsObject = true ↔ ∀ primitive, field.type ≠ some (.primitive primitive) := by
  obtain ⟨type, here⟩ := Option.isSome_iff_exists.mp typed
  unfold Field.holdsObject
  rw [here]
  cases type <;> simp

theorem CatVM.parentOf_defined {vm : CatVM} {k : Text} {i : Nat} {mod : VMModule} {type : VMType}
    (here : vm.getModule k = some mod) (atIndex : mod.typeDefines[i]? = some type) :
    parentOf vm.typeParents (.defined k i) = some (type.parent, type.addFields) := by
  rw [CatVM.parentOf_eq, CatVM.typeAt, here, Option.bind_some, atIndex, Option.map_some]

namespace TypesFound
variable {library : StandardLibrary} {vm after : CatVM} (found : TypesFound library vm after)
include found

theorem path_iff {k : Text} (loaded : (after.getModule k).isSome) (i : Nat) (q : TypePointer) :
    ReflTransGen (TakesParent library vm) (.defined k i) q ↔
      ReflTransGen (IsParent (parentOf after.typeParents)) (.defined k i) q := by
  rw [reflTransGen_iff_eq_or_transGen, reflTransGen_iff_eq_or_transGen, found.above_iff loaded]

theorem path_loaded {k : Text} (loaded : (after.getModule k).isSome) {i : Nat} {q : TypePointer}
    (path : ReflTransGen (IsParent (parentOf after.typeParents)) (.defined k i) q) :
    ∃ target index, q = .defined target index ∧ (after.getModule target).isSome := by
  rcases reflTransGen_iff_eq_or_transGen.mp path with rfl | above
  · exact ⟨k, i, rfl, loaded⟩
  · exact found.above_loaded loaded above

/-- The field names of a type are those that it declares. -/
theorem names_iff {k : Text} (loaded : (after.getModule k).isSome) {i : Nat} {names : List Text} :
    (∃ up own, parentOf after.typeParents (.defined k i) = some (up, own) ∧ own.map (·.name) = names) ↔
      ∃ mod type, vm.declaration library (.defined k i) = some (mod, type) ∧ type.fieldInfos.map (·.fieldName) = names := by
  constructor
  · rintro ⟨up, own, here, rfl⟩
    rw [CatVM.parentOf_eq] at here
    obtain ⟨type, there, same⟩ := Option.map_eq_some_iff.mp here
    obtain ⟨rfl, rfl⟩ := Prod.mk.inj same
    obtain ⟨mod, loadedHere, atIndex⟩ := Option.bind_eq_some_iff.mp there
    obtain ⟨source, type', declared, fields⟩ := found.declared loadedHere atIndex
    refine ⟨source, type', declared, ?_⟩
    rw [fields, (found.types k mod loadedHere type (List.mem_of_getElem? atIndex)).addFields, List.map_map]
    rfl
  · rintro ⟨source, type', declared, rfl⟩
    obtain ⟨mod, type, here, atIndex, _, addFields⟩ := found.fieldInfos loaded declared
    refine ⟨_, _, CatVM.parentOf_defined here atIndex, ?_⟩
    rw [addFields, List.map_map]
    rfl

theorem repeats_iff {k : Text} (loaded : (after.getModule k).isSome) (i : Nat) :
    Repeats (parentOf after.typeParents) (·.map (·.name)) (.defined k i) ↔ RepeatsField library vm (TakesParent library vm) (.defined k i) := by
  constructor
  · rintro ⟨next, own, here, repeated⟩
    obtain ⟨mod, type, declared, names⟩ := (found.names_iff loaded).mp ⟨next, own, here, rfl⟩
    dsimp only at repeated
    rw [← names] at repeated
    refine ⟨mod, type, declared, repeated.imp id ?_⟩
    rintro ⟨up, next', label, above, atUp, x, member, member'⟩
    obtain ⟨target, index, rfl, there⟩ := found.above_loaded loaded above
    obtain ⟨mod', type', declared', names'⟩ := (found.names_iff there).mp ⟨next', label, atUp, rfl⟩
    rw [← names'] at member'
    obtain ⟨field, listed, rfl⟩ := List.mem_map.mp member
    obtain ⟨field', listed', same⟩ := List.mem_map.mp member'
    exact ⟨_, mod', type', (found.above_iff loaded i _).mpr above, declared', field, listed, field', listed', same.symm⟩
  · rintro ⟨mod, type, declared, repeated⟩
    obtain ⟨next, own, here, names⟩ := (found.names_iff loaded).mpr ⟨mod, type, declared, rfl⟩
    rw [← names] at repeated
    refine ⟨next, own, here, repeated.imp id ?_⟩
    rintro ⟨q, mod', type', path, declared', field, listed, field', listed', same⟩
    have above := (found.above_iff loaded i q).mp path
    obtain ⟨target, index, rfl, there⟩ := found.above_loaded loaded above
    obtain ⟨next', label, atUp, names'⟩ := (found.names_iff there).mpr ⟨mod', type', declared', rfl⟩
    refine ⟨_, next', label, above, atUp, field.fieldName, ?_, ?_⟩
    · show field.fieldName ∈ own.map (·.name)
      rw [names]
      exact List.mem_map_of_mem listed
    · show field.fieldName ∈ label.map (·.name)
      rw [names', same]
      exact List.mem_map_of_mem listed'

/-- What is declared has a bad chain exactly if what is found has. -/
theorem badChain_iff {k : Text} (loaded : (after.getModule k).isSome) (i : Nat) :
    BadChain library vm (TakesParent library vm) (.defined k i) ↔ ∃ q, ReflTransGen (IsParent (parentOf after.typeParents)) (.defined k i) q ∧
      (TransGen (IsParent (parentOf after.typeParents)) q q ∨ Repeats (parentOf after.typeParents) (·.map (·.name)) q) := by
  refine exists_congr fun q => ?_
  rw [found.path_iff loaded]
  refine and_congr_right fun path => ?_
  obtain ⟨target, index, rfl, there⟩ := found.path_loaded loaded path
  rw [found.above_iff there, found.repeats_iff there]

end TypesFound

section Laid
variable {library : StandardLibrary} {vm after : CatVM} (found : TypesFound library vm after)
include found

theorem TypesFound.declaredFields_eq {k : Text} {i : Nat} {mod : VMModule} {type : VMType} (here : after.getModule k = some mod)
    (atIndex : mod.typeDefines[i]? = some type) : type.addFields = vm.declaredFields library (.defined k i) := by
  obtain ⟨source, read, same⟩ := found.sources k mod here
  obtain ⟨type', there, _, fields, _⟩ := same.type atIndex
  have declares : vm.declaredType library source = fun info => info.resolve mod.importModuleNames after.typeNames :=
    funext fun info => found.declaredType here read info
  rw [(found.types k mod here type (List.mem_of_getElem? atIndex)).addFields, CatVM.declaredFields, CatVM.declaration, read,
    Option.bind_some, there, Option.map_some]
  dsimp only
  rw [fields, declares]

variable (laid : ∀ k mod i type, after.getModule k = some mod → mod.typeDefines[i]? = some type → LinkedType after k mod i type)
include laid

theorem allFields_child {k : Text} {i : Nat} {mod : VMModule} {type : VMType} (here : after.getModule k = some mod)
    (atIndex : mod.typeDefines[i]? = some type) {q : TypePointer} (takes : TakesParent library vm (.defined k i) q) :
    ∃ target index mod' parent, q = .defined target index ∧ after.getModule target = some mod' ∧
      mod'.typeDefines[index]? = some parent ∧ type.allFields = parent.allFields ++ type.addFields := by
  have present : (after.getModule k).isSome := by rw [here]; rfl
  have isParent := (found.isParent present i q).mp takes
  obtain ⟨target, index, rfl, loaded⟩ := found.parent_loaded present isParent
  obtain ⟨chain, layout, fields⟩ := (laid k mod i type here atIndex).layout
  obtain ⟨above, rfl, line⟩ := layout.own (CatVM.parentOf_defined here atIndex)
  obtain ⟨label, atParent⟩ := isParent
  rw [CatVM.parentOf_defined here atIndex, Option.some.injEq, Prod.mk.injEq] at atParent
  rw [atParent.1] at line
  obtain ⟨mod', there⟩ := Option.isSome_iff_exists.mp loaded
  obtain ⟨parent, atIndex'⟩ : ∃ parent, mod'.typeDefines[index]? = some parent := by
    cases line with
    | child known _ =>
      rw [CatVM.parentOf_eq, CatVM.typeAt, there, Option.bind_some] at known
      obtain ⟨parent, atIndex', _⟩ := Option.map_eq_some_iff.mp known
      exact ⟨parent, atIndex'⟩
  obtain ⟨chain', layout', fields'⟩ := (laid target mod' index parent there atIndex').layout
  obtain rfl := line.unique layout'.line
  refine ⟨target, index, mod', parent, rfl, there, atIndex', ?_⟩
  rw [fields, fields', List.reverse_cons, List.flatten_append, List.flatten_singleton]

/-- What the fields of a type are, once it is laid out. -/
theorem laidOutType {k : Text} {i : Nat} {mod : VMModule} {type : VMType} (here : after.getModule k = some mod)
    (atIndex : mod.typeDefines[i]? = some type) : LaidOutType library vm (TakesParent library vm) after (.defined k i) type := by
  have present : (after.getModule k).isSome := by rw [here]; rfl
  have linked := laid k mod i type here atIndex
  obtain ⟨chain, layout, fields⟩ := linked.layout
  refine ⟨fun root => ?_, fun q declares => ?_, fun q path => ?_, ?_, _, linked.referenceFields, fun j field atField => ?_⟩
  · obtain ⟨above, rfl, line⟩ := layout.own (CatVM.parentOf_defined here atIndex)
    cases parent : type.parent with
    | none =>
      rw [parent] at line
      cases line
      rw [fields, ← found.declaredFields_eq here atIndex]
      simp
    | some q =>
      refine absurd ((found.isParent present i q).mpr ⟨type.addFields, ?_⟩) (root q)
      rw [CatVM.parentOf_defined here atIndex, parent]
  · obtain ⟨target, index, mod', parent, rfl, there, atIndex', made⟩ := allFields_child found laid here atIndex declares
    refine ⟨parent, by rw [CatVM.typeAt, there, Option.bind_some, atIndex'], ?_⟩
    rw [made, found.declaredFields_eq here atIndex]
  · have reach : ∃ target index mod' above, q = .defined target index ∧ after.getModule target = some mod' ∧
        mod'.typeDefines[index]? = some above ∧ above.allFields <+: type.allFields := by
      induction path with
      | single declares =>
        obtain ⟨target, index, mod', parent, rfl, there, atIndex', made⟩ := allFields_child found laid here atIndex declares
        exact ⟨target, index, mod', parent, rfl, there, atIndex', made ▸ List.prefix_append ..⟩
      | tail _ declares ih =>
        obtain ⟨_, _, _, above, rfl, there, atIndex', first⟩ := ih
        obtain ⟨target, index, mod', parent, rfl, there', atIndex'', made⟩ := allFields_child found laid there atIndex' declares
        exact ⟨target, index, mod', parent, rfl, there', atIndex'', (made ▸ List.prefix_append ..).trans first⟩
    obtain ⟨target, index, mod', above, rfl, there, atIndex', first⟩ := reach
    exact ⟨above, by rw [CatVM.typeAt, there, Option.bind_some, atIndex'], first⟩
  · rw [fields]
    exact layout.distinct
  · rw [getFlag_referenceBits atField]
    exact holdsObject_iff (layout.typed field (fields ▸ List.mem_of_getElem? atField))

end Laid

section Layouts
variable {library : StandardLibrary} {vm vm₂ : CatVM} {name : Text} {loaded : List Text}

theorem AwaitingLayout.laysOut_iff (awaiting : AwaitingLayout library vm name loaded vm₂) (before : vm.Linked library)
    (resolves : TypesResolve library vm name) :
    (∀ k ∈ loaded, LaysOut vm₂.typeParents k) ↔ ∀ p, NewType library vm name p → ¬BadChain library vm (TakesParent library vm) p := by
  have found := awaiting.found before resolves
  have each {k : Text} {i : Nat} {mod : VMModule} (here : vm₂.getModule k = some mod) (inside : i < mod.typeDefines.length) :
      (∃ chain, FieldLayout vm₂.typeParents (.defined k i) chain) ↔ ¬BadChain library vm (TakesParent library vm) (.defined k i) := by
    rw [CatVM.fieldLayout_iff (awaiting.resolved before resolves here inside), found.badChain_iff (by rw [here]; rfl)]
    simp only [not_exists, not_and, not_or]
  have present {k : Text} (member : k ∈ loaded) : ∃ mod, vm₂.getModule k = some mod := by
    obtain ⟨_, mod, _, here, _⟩ := awaiting.read k member
    exact ⟨mod, here⟩
  constructor
  · rintro all _ ⟨k, i, rfl, path, absent, declared⟩
    have member := (awaiting.mem_iff k).mpr ⟨path, absent⟩
    obtain ⟨mod, here⟩ := present member
    obtain ⟨⟨source, type'⟩, declared⟩ := Option.isSome_iff_exists.mp declared
    obtain ⟨mod', type, here', atIndex, _⟩ := found.fieldInfos (by rw [here]; rfl) declared
    obtain rfl := Option.some.inj (here.symm.trans here')
    have inside := (List.getElem?_eq_some_iff.mp atIndex).1
    exact (each here inside).mp (all k member _ (CatVM.typeParents_entry (CatVM.entries_eq here)) i (by
      rw [List.length_map]
      exact inside))
  · intro all k member types known i inside
    obtain ⟨mod, here⟩ := present member
    rw [CatVM.typeParents_entry (CatVM.entries_eq here)] at known
    obtain rfl := Option.some.inj known
    rw [List.length_map] at inside
    obtain ⟨path, absent⟩ := (awaiting.mem_iff k).mp member
    obtain ⟨source, type', declared, _⟩ := found.declared here (List.getElem?_eq_getElem inside)
    exact (each here inside).mpr (all _ ⟨k, i, rfl, path, absent, by rw [declared]; rfl⟩)

theorem ModulesRead.typesFound {library : StandardLibrary} {vm after : CatVM}
    (modules : ModulesRead library vm after)
    (laid : ∀ k mod i type, after.getModule k = some mod → mod.typeDefines[i]? = some type → LinkedType after k mod i type) :
    TypesFound library vm after where
  sources := modules.sources
  imports := modules.imports
  types k mod here type member := by
    obtain ⟨i, inside, at_i⟩ := List.getElem_of_mem member
    have linked := laid k mod i type here (List.getElem?_eq_some_iff.mpr ⟨inside, at_i⟩)
    exact ⟨linked.parent, linked.addFields⟩

/-- After the third pass every type has its layout. -/
theorem AwaitingLayout.laid (awaiting : AwaitingLayout library vm name loaded vm₂) (before : vm.Linked library)
    (resolves : TypesResolve library vm name) {vm₃ : CatVM} (run : loaded.foldlM CatVM.layTypes vm₂ = .ok vm₃) :
    ModulesRead library vm vm₃ ∧
      ∀ k mod i type, vm₃.getModule k = some mod → mod.typeDefines[i]? = some type → LinkedType vm₃ k mod i type := by
  have entries := CatVM.layoutPass awaiting.distinct run
  have typeNames : vm₃.typeNames = vm₂.typeNames := CatVM.viewOf_pass entries fun _ _ => rfl
  have parents : vm₃.typeParents = vm₂.typeParents := CatVM.viewOf_pass entries fun _ _ => withLayout_parents _ _ _
  refine ⟨awaiting.modules.pass entries fun k mod => ⟨rfl, rfl, rfl, rfl, ?_⟩, fun k mod i type here atIndex => ?_⟩
  · refine List.ext_getElem (by simp [VMModule.withLayout]) fun i _ _ => ?_
    simp [VMModule.withLayout, VMType.laidOut, VMType.declaration]
  · by_cases member : k ∈ loaded
    · obtain ⟨mod₂, here₂, ready⟩ := awaiting.awaits before resolves member
      have entry := congrFun entries k
      rw [replaced_of _ _ member, CatVM.entries_eq here, CatVM.entries_eq here₂, Option.map_some, Option.some.injEq] at entry
      have types : mod.core.typeDefines = (mod₂.core.withLayout vm₂.typeParents k).typeDefines := by rw [entry]
      have names : mod.core.importModuleNames = (mod₂.core.withLayout vm₂.typeParents k).importModuleNames := by rw [entry]
      have names : mod.importModuleNames = mod₂.importModuleNames := names
      have made : mod.typeDefines[i]? = (mod₂.typeDefines[i]?).map fun type =>
          type.laidOut (Lineage.of (parentOf vm₂.typeParents) (.defined k i)) := by
        refine (congrArg (·[i]?) types).trans ?_
        rw [VMModule.withLayout, List.getElem?_mapIdx]
        rfl
      rw [atIndex] at made
      obtain ⟨type₂, atIndex₂, rfl⟩ := Option.map_eq_some_iff.mp made.symm
      obtain ⟨inside, _⟩ := List.getElem?_eq_some_iff.mp atIndex₂
      have listed := List.mem_of_getElem? atIndex₂
      obtain ⟨found, _⟩ := awaiting.types before resolves here₂ listed
      obtain ⟨chain, layout⟩ := CatVM.layTypes_layouts run member _ (CatVM.typeParents_entry (CatVM.entries_eq here₂)) i (by
        rw [List.length_map]
        exact inside)
      refine ⟨?_, ?_, ⟨chain, parents ▸ layout, ?_⟩, rfl⟩
      · rw [names, typeNames]
        exact found.parent
      · rw [names, typeNames]
        exact found.addFields
      · simp only [VMType.laidOut, ready.blank type₂ listed, List.nil_append, Lineage.of_eq layout.line]
    · have same : vm₃.entries k = vm₂.entries k := by rw [entries, replaced_of_not _ _ member]
      rw [CatVM.entries_eq here] at same
      obtain ⟨mod₂, here₂, core⟩ := CatVM.entries_some same.symm
      have keeps : vm.Keeps vm₃ := fun k' present => by
        have unread : k' ∉ loaded := fun listed => by
          rw [((awaiting.mem_iff k').mp listed).2] at present
          exact Bool.false_ne_true present
        rw [entries, replaced_of_not _ _ unread, awaiting.keeps k' present]
      have there := (awaiting.kept k member).symm.trans here₂
      exact ((before k mod₂ there).keep keeps there here).type here atIndex

end Layouts

section Load
variable (library : StandardLibrary) (vm : CatVM) (name : Text)

/-- The layout pass is what a load returns null at. -/
def NullAtLayout (order : LoadOrder) : Prop :=
  ∃ loaded vm₂ vm₃, ReachesLayout library vm name order loaded vm₂ ∧ loaded.foldlM CatVM.layTypes vm₂ = .error (.returnedNull vm₃) ∧
    vm.loadModule library order name = .ok (vm₃, none)

/-- All types that a load reads are laid out, where these are their parents. -/
def TypesLaidOut (parent : TypePointer → TypePointer → Prop) (after : CatVM) : Prop :=
  ∀ p, NewType library vm name p → ∃ type, after.typeAt p = some type ∧ LaidOutType library vm parent after p type

/-- What a load promises of its layout pass, where these are the parents: it
returns null there exactly for a chain of parents that is cyclic or has a field
name twice, and otherwise each new type has the fields of its parent and its own
behind them. -/
structure LayoutRight (order : LoadOrder) (parent : TypePointer → TypePointer → Prop) : Prop where
  null : NullAtLayout library vm name order ↔ ∃ p, NewType library vm name p ∧ BadChain library vm parent p
  laid : (¬∃ p, NewType library vm name p ∧ BadChain library vm parent p) →
    ∃ loaded vm₂ vm₃, ReachesLayout library vm name order loaded vm₂ ∧ loaded.foldlM CatVM.layTypes vm₂ = .ok vm₃ ∧
      TypesLaidOut library vm name parent vm₃
  returned : ∀ vm' m, vm.loadModule library order name = .ok (vm', some m) → TypesLaidOut library vm name parent vm'

variable {library vm name} {order : LoadOrder} {loaded : List Text}

theorem ReachesLayout.unique {loaded' : List Text} {vm₂ vm₂' : CatVM} (reaches : ReachesLayout library vm name order loaded vm₂)
    (reaches' : ReachesLayout library vm name order loaded' vm₂') : loaded = loaded' ∧ vm₂ = vm₂' := by
  obtain ⟨s, vm₁, names, rfl, imports, types⟩ := reaches
  obtain ⟨s', vm₁', names', rfl, imports', types'⟩ := reaches'
  obtain rfl := Except.ok.inj (names.symm.trans names')
  obtain rfl := Except.ok.inj (imports.symm.trans imports')
  exact ⟨rfl, Except.ok.inj (types.symm.trans types')⟩

theorem ReachesLayout.returnsNull {vm₂ vm₃ : CatVM} (reaches : ReachesLayout library vm name order loaded vm₂)
    (exit : loaded.foldlM CatVM.layTypes vm₂ = .error (.returnedNull vm₃)) : vm.loadModule library order name = .ok (vm₃, none) := by
  obtain ⟨s, vm₁, names, rfl, imports, types⟩ := reaches
  have links : s.vm.linkModules (order.traverse s.loaded) = .error (.returnedNull vm₃) := by
    rw [CatVM.linkModules, imports, ok_bind, types, ok_bind, exit]
    rfl
  rw [CatVM.loadModule, names]
  dsimp only
  rw [links]

theorem typesLaidOut {after : CatVM} (found : TypesFound library vm after)
    (laid : ∀ k mod i type, after.getModule k = some mod → mod.typeDefines[i]? = some type → LinkedType after k mod i type)
    (present : ∀ k, InClosure library vm name k → (after.getModule k).isSome) :
    TypesLaidOut library vm name (TakesParent library vm) after := by
  rintro _ ⟨k, i, rfl, path, absent, declared⟩
  obtain ⟨⟨source, type'⟩, declared⟩ := Option.isSome_iff_exists.mp declared
  obtain ⟨mod, type, here, atIndex, _⟩ := found.fieldInfos (present k path) declared
  exact ⟨type, by rw [CatVM.typeAt, here, Option.bind_some, atIndex], laidOutType found laid here atIndex⟩

/-- A load that returns a module has met no bad chain. -/
theorem LoadDone.chains {vm' : CatVM} (done : LoadDone library vm vm' name loaded) (before : vm.Linked library) :
    ∀ p, NewType library vm name p → ¬BadChain library vm (TakesParent library vm) p := by
  rintro _ ⟨k, i, rfl, path, _, declared⟩ bad
  have found := done.typesFound before
  have present := (done.loaded_iff before k).mpr (.inr path)
  obtain ⟨⟨source, type'⟩, declared⟩ := Option.isSome_iff_exists.mp declared
  obtain ⟨mod, type, here, atIndex, _⟩ := found.fieldInfos present declared
  obtain ⟨chain, layout, _⟩ := ((done.linked before k mod here).type here atIndex).layout
  obtain ⟨q, path, bad⟩ := (found.badChain_iff present i).mp bad
  exact bad.elim (layout.sound q path).1 (layout.sound q path).2

/-- The layout of a load whose types all resolve is right when a parent that is
declared by an empty name counts as none. -/
theorem loadModule_layout (order : LoadOrder) (reached : Reached library vm) (read : ClosureRead library vm name)
    (resolves : TypesResolve library vm name) : LayoutRight library vm name order (TakesParent library vm) := by
  have before := reached.linked
  obtain ⟨loaded, vm₂, reaches, awaiting⟩ := reachesLayout order before read resolves
  have laysOut := awaiting.laysOut_iff before resolves
  have decides := CatVM.layTypes_decide awaiting.distinct fun k member => awaiting.awaits before resolves member
  refine ⟨⟨?_, ?_⟩, ?_, ?_⟩
  · rintro ⟨loaded', vm₂', vm₃, reaches', exit, _⟩
    obtain ⟨rfl, rfl⟩ := reaches.unique reaches'
    rcases decides with ⟨vm', run, _⟩ | ⟨vm', _, k, member, stuck⟩
    · exact absurd (exit.symm.trans run) (by simp)
    · by_contra good
      exact stuck (laysOut.mpr (fun p new bad => good ⟨p, new, bad⟩) k member)
  · rintro ⟨p, new, bad⟩
    rcases decides with ⟨vm', run, all⟩ | ⟨vm₃, exit, _⟩
    · exact absurd bad (laysOut.mp all p new)
    · exact ⟨loaded, vm₂, vm₃, reaches, exit, reaches.returnsNull exit⟩
  · intro good
    rcases decides with ⟨vm₃, run, _⟩ | ⟨vm', _, k, member, stuck⟩
    · obtain ⟨modules, laid⟩ := awaiting.laid before resolves run
      refine ⟨loaded, vm₂, vm₃, reaches, run, typesLaidOut (modules.typesFound laid) laid fun k path => ?_⟩
      have there : (vm₂.getModule k).isSome := by
        by_cases member : k ∈ loaded
        · obtain ⟨_, mod, _, here, _⟩ := awaiting.read k member
          rw [here]
          rfl
        · have present : (vm.getModule k).isSome := by
            by_contra absent
            exact member ((awaiting.mem_iff k).mpr ⟨path, by simpa using absent⟩)
          exact awaiting.keeps.isSome present
      rw [← CatVM.isSome_entries, CatVM.layoutPass awaiting.distinct run, isSome_replaced, CatVM.isSome_entries]
      exact there
    · exact absurd (laysOut.mpr fun p new bad => good ⟨p, new, bad⟩) fun all => stuck (all k member)
  · intro vm' m run
    obtain ⟨_, loaded', done⟩ := loadModule_done run
    exact typesLaidOut (done.typesFound before) (fun k mod i type here atIndex => (done.linked before k mod here).type here atIndex)
      fun k path => (done.loaded_iff before k).mpr (.inr path)

end Load

theorem derived_read : ClosureRead plainLibrary derivedVM ['a'] := fun k path _ => by
  rcases derived_closure path with rfl | rfl
  · exact ⟨_, derived_entered⟩
  · exact ⟨_, base_entered⟩

theorem derived_resolves : TypesResolve plainLibrary derivedVM ['a'] := by
  have primitive (info : FieldInfo) (listed : info ∈ derivedType.fieldInfos ∨ info ∈ baseType.fieldInfos) :
      info.primitiveType ≠ none := by
    rcases listed with listed | listed <;> (obtain rfl := List.mem_singleton.mp listed; decide)
  intro k source path _ read type member
  rcases derived_closure path with rfl | rfl
  · obtain rfl := Option.some.inj (derived_entered.source.symm.trans read)
    obtain rfl := List.mem_singleton.mp member
    exact ⟨fun _ => Option.isSome_iff_exists.mpr ⟨_, derived_parent⟩, fun info listed userDefined =>
      absurd userDefined (primitive info (.inl listed))⟩
  · obtain rfl := Option.some.inj (base_entered.source.symm.trans read)
    obtain rfl := List.mem_singleton.mp member
    exact ⟨fun named => absurd rfl named, fun info listed userDefined => absurd userDefined (primitive info (.inr listed))⟩

theorem derived_declaration {k : Text} {i : Nat} {source : VMModule} {type : VMType}
    (path : InClosure plainLibrary derivedVM ['a'] k)
    (declaration : derivedVM.declaration plainLibrary (.defined k i) = some (source, type)) :
    (k = ['a'] ∧ source = derivedParts.module ['a'] ∧ type = derivedType) ∨ (k = ['b'] ∧ type = baseType) := by
  obtain ⟨mod, read, listed⟩ := Option.bind_eq_some_iff.mp declaration
  obtain ⟨_, atIndex, same⟩ := Option.map_eq_some_iff.mp listed
  obtain ⟨rfl, rfl⟩ := Prod.mk.inj same
  have member := List.mem_of_getElem? atIndex
  rcases derived_closure path with rfl | rfl
  · obtain rfl := Option.some.inj (derived_entered.source.symm.trans read)
    exact .inl ⟨rfl, rfl, List.mem_singleton.mp member⟩
  · obtain rfl := Option.some.inj (base_entered.source.symm.trans read)
    exact .inr ⟨rfl, List.mem_singleton.mp member⟩

/-- Nothing is above `T` but `U`, and nothing above `U`. -/
theorem derived_above {k : Text} {i : Nat} {q : TypePointer} (path : InClosure plainLibrary derivedVM ['a'] k)
    (above : TransGen (TakesParent plainLibrary derivedVM) (.defined k i) q) : k = ['a'] ∧ q = .defined ['b'] 0 := by
  have step {k : Text} {i : Nat} {q : TypePointer} (path : InClosure plainLibrary derivedVM ['a'] k)
      (takes : TakesParent plainLibrary derivedVM (.defined k i) q) : k = ['a'] ∧ q = .defined ['b'] 0 := by
    obtain ⟨source, type, declaration, named, parent⟩ := takes
    rcases derived_declaration path declaration with ⟨rfl, rfl, rfl⟩ | ⟨_, rfl⟩
    · exact ⟨rfl, Option.some.inj (parent.symm.trans derived_parent)⟩
    · exact absurd rfl named
  induction above with
  | single takes => exact step path takes
  | tail _ takes ih =>
    obtain ⟨rfl, rfl⟩ := ih
    have base : InClosure plainLibrary derivedVM ['a'] ['b'] := .single ⟨_, derived_entered.source, List.mem_singleton_self _⟩
    exact absurd (step base takes).1 (by decide)

theorem derived_chains {p : TypePointer} (new : NewType plainLibrary derivedVM ['a'] p) :
    ¬BadChain plainLibrary derivedVM (TakesParent plainLibrary derivedVM) p := by
  have base : InClosure plainLibrary derivedVM ['a'] ['b'] := .single ⟨_, derived_entered.source, List.mem_singleton_self _⟩
  obtain ⟨k, i, rfl, path, _⟩ := new
  rintro ⟨q, reach, bad⟩
  obtain ⟨k', i', rfl, path'⟩ : ∃ k' i', q = .defined k' i' ∧ InClosure plainLibrary derivedVM ['a'] k' := by
    rcases reflTransGen_iff_eq_or_transGen.mp reach with rfl | above
    · exact ⟨k, i, rfl, path⟩
    · exact ⟨_, _, (derived_above path above).2, base⟩
  rcases bad with cyclic | ⟨source, type, declaration, repeated⟩
  · obtain ⟨rfl, same⟩ := derived_above path' cyclic
    exact absurd (TypePointer.defined.inj same).1 (by decide)
  · rcases repeated with twice | ⟨q, source', type', above, declaration', field, listed, field', listed', same⟩
    · rcases derived_declaration path' declaration with ⟨_, _, rfl⟩ | ⟨_, rfl⟩ <;> exact twice (by decide)
    · obtain ⟨rfl, rfl⟩ := derived_above path' above
      rcases derived_declaration path' declaration with ⟨_, _, rfl⟩ | ⟨other, _⟩
      · rcases derived_declaration base declaration' with ⟨other, _⟩ | ⟨_, rfl⟩
        · exact absurd other (by decide)
        · obtain rfl := List.mem_singleton.mp listed
          obtain rfl := List.mem_singleton.mp listed'
          exact absurd same (by decide)
      · exact absurd other (by decide)

/-- Both types are laid out, and `T` has the fields of `U` before its own. -/
theorem loadModule_layout_derived : ∃ vm definition parent, TypesLaidOut plainLibrary derivedVM ['a'] (TakesParent plainLibrary derivedVM) vm ∧
    vm.typeAt (.defined ['a'] 0) = some definition ∧ vm.typeAt (.defined ['b'] 0) = some parent ∧
      definition.allFields = parent.allFields ++ [⟨['7'], some (.primitive .i64)⟩] := by
  have reached : Reached plainLibrary derivedVM := .start
  obtain ⟨_, _, vm, _, _, laid⟩ := (loadModule_layout firstListed reached derived_read derived_resolves).laid
    fun ⟨p, new, bad⟩ => derived_chains new bad
  have declared : derivedVM.declaration plainLibrary (.defined ['a'] 0) = some (derivedParts.module ['a'], derivedType) := by
    rw [CatVM.declaration, derived_entered.source]
    rfl
  have takes : TakesParent plainLibrary derivedVM (.defined ['a'] 0) (.defined ['b'] 0) :=
    ⟨_, _, declared, by decide, derived_parent⟩
  obtain ⟨definition, here, layout⟩ := laid (.defined ['a'] 0) ⟨['a'], 0, rfl, .refl, rfl, by rw [declared]; rfl⟩
  obtain ⟨parent, above, made⟩ := layout.child _ takes
  refine ⟨vm, definition, parent, laid, here, above, ?_⟩
  rw [made, CatVM.declaredFields, declared]
  rfl

/-- A module `a` with a type that extends a type with an empty name. -/
def unnamedText : Text :=
  [['$', 'c', 'o', 'n', 's', 't'], ['0', ':', '1', ':', 's', '#', 'T'], ['1', ':', '0', ':', 's', '#'], END,
    ['$', 'i', 'm', 'p', 'o', 'r', 't'], ['0', ':', 't', 'h', 'i', 's'], END,
    ['$', 't', 'y', 'p', 'e', 'd', 'e', 'f'], ['0', ':', '(', '7', ':', 'i', '6', '4', ')', ':', '0', ':', '1'],
    ['1', ':', '(', '8', ':', 'i', '6', '4', ')'], END].flatMap (· ++ ['\n'])

def unnamedVM : CatVM := ⟨[(['a'], unnamedText)], []⟩

def unnamedParts : ModuleParts where
  constValues := [⟨1, .string ['T']⟩, ⟨0, .string []⟩]
  importModuleNames := [['a']]
  typeDefines := [.make ['T'] [⟨['7'], some .i64, ⟨0, []⟩⟩] (some ⟨0, []⟩), .make [] [⟨['8'], some .i64, ⟨0, []⟩⟩] none]
  usingTypeInfos := []
  functions := []

theorem unnamed_entered : Entered plainLibrary unnamedVM ['a'] (unnamedParts.module ['a']) where
  absent := rfl
  text := by decide
  parsed := parse_parts (by decide +kernel)

theorem unnamed_parent : DeclaresParent plainLibrary unnamedVM (.defined ['a'] 0) (.defined ['a'] 1) := by
  refine ⟨unnamedParts.module ['a'], .make ['T'] [⟨['7'], some .i64, ⟨0, []⟩⟩] (some ⟨0, []⟩), ⟨0, []⟩, ?_, rfl, ?_⟩
  · rw [CatVM.declaration, unnamed_entered.source]
    rfl
  · show (((unnamedVM.source plainLibrary ['a']).map (·.typeDefineMap.get)).bind (· [])).map (TypePointer.defined ['a']) = _
    rw [unnamed_entered.source]
    rfl

/-- The fields of the two types. -/
def unnamedFields (vm : CatVM) : Option (Option (List Text) × Option (List Text)) :=
  (vm.getModule ['a']).map fun mod =>
    ((mod.typeDefines[0]?).map (·.allFields.map (·.name)), (mod.typeDefines[1]?).map (·.allFields.map (·.name)))

/-- The parent resolves, and the type does not get its fields. -/
theorem loadModule_layout_unnamed : Reached plainLibrary unnamedVM ∧ ClosureRead plainLibrary unnamedVM ['a'] ∧
    TypesResolve plainLibrary unnamedVM ['a'] ∧ DeclaresParent plainLibrary unnamedVM (.defined ['a'] 0) (.defined ['a'] 1) ∧
    (∃ vm, unnamedVM.loadModule plainLibrary firstListed ['a'] = .ok (vm, some ['a']) ∧
      unnamedFields vm = some (some [['7']], some [['8']])) ∧
    ¬LayoutRight plainLibrary unnamedVM ['a'] firstListed (DeclaresParent plainLibrary unnamedVM) := by
  have closure {k : Text} (path : InClosure plainLibrary unnamedVM ['a'] k) : k = ['a'] :=
    closure_alone unnamed_entered.source (by decide) path
  have read : ClosureRead plainLibrary unnamedVM ['a'] := fun k path _ => by
    obtain rfl := closure path
    exact ⟨_, unnamed_entered⟩
  have resolves : TypesResolve plainLibrary unnamedVM ['a'] := by
    intro k source path _ read type member
    obtain rfl := closure path
    obtain rfl := Option.some.inj (unnamed_entered.source.symm.trans read)
    have unnamed : ∀ type ∈ unnamedParts.typeDefines, type.parentInfo.typeName = [] := by decide
    have primitive : ∀ type ∈ unnamedParts.typeDefines, ∀ info ∈ type.fieldInfos, info.primitiveType ≠ none := by decide
    exact ⟨fun named => absurd (unnamed type member) named, fun info listed userDefined =>
      absurd userDefined (primitive type member info listed)⟩
  obtain ⟨vm, run, fields⟩ := @loadModule_parts plainLibrary firstListed unnamedVM ['a'] unnamedParts rfl (by decide)
    (by decide +kernel) (by decide) _ unnamedFields (some (some [['7']], some [['8']])) (by decide +kernel)
  refine ⟨.start, read, resolves, unnamed_parent, ⟨vm, run, fields⟩, fun right => ?_⟩
  obtain ⟨mod, here, same⟩ := Option.map_eq_some_iff.mp fields
  obtain ⟨own, inherited⟩ := Prod.mk.inj same
  obtain ⟨type, atIndex, names⟩ := Option.map_eq_some_iff.mp own
  obtain ⟨above, atParent, namesAbove⟩ := Option.map_eq_some_iff.mp inherited
  have declared : (unnamedVM.declaration plainLibrary (.defined ['a'] 0)).isSome := by
    rw [CatVM.declaration, unnamed_entered.source]
    rfl
  obtain ⟨type', there, laid⟩ := right.returned vm ['a'] run (.defined ['a'] 0) ⟨['a'], 0, rfl, .refl, rfl, declared⟩
  rw [CatVM.typeAt, here, Option.bind_some, atIndex] at there
  obtain rfl := Option.some.inj there
  obtain ⟨above', there, made⟩ := laid.child _ unnamed_parent
  rw [CatVM.typeAt, here, Option.bind_some, atParent] at there
  obtain rfl := Option.some.inj there
  rw [made, List.map_append, namesAbove] at names
  exact absurd (List.cons.inj names).1 (by decide)

end CatLa
