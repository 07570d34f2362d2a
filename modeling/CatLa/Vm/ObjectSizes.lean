import CatLa.Vm.Declarations
import CatLa.Vm.OrderEvaluation

namespace CatLa
open Lineage Relation

/-- `NewClassObject::NewClassObject`. -/
def newClassObject (resultRegister usingTypeIndex : Nat) : Order := .newClassObject resultRegister usingTypeIndex none 0

/-- An object of the type is allocated with room for `n` fields: for the fields
of a module, or by a `new` of a module that is linked and evaluated. -/
inductive Allocates (vm : CatVM) (type : TypePointer) (n : Nat) : Prop
  | moduleFields {k : Text} {mod : VMModule} (here : vm.getModule k = some mod) (fields : mod.moduleFields = some ⟨type, n⟩)
  | newObject {k : Text} {mod : VMModule} {resultRegister usingTypeIndex fieldLength : Nat}
      {labelBlockMap labelBlockMap' : PointerMap Text Nat} {rt : Runtime} {constValues : List ConstValue} {arguments : List Word}
      {thread thread' : VMThread} {data data' : VMData} {object : Address} (here : vm.getModule k = some mod)
      (link : vm.linkOrder mod labelBlockMap (newClassObject resultRegister usingTypeIndex) =
        .ok (labelBlockMap', .newClassObject resultRegister usingTypeIndex (some type) fieldLength))
      (run : (Order.newClassObject resultRegister usingTypeIndex (some type) fieldLength).eval rt constValues arguments thread data =
        some (thread', data'))
      (made : object = rt.malloc data.memory type fieldLength) (there : object ≠ 0)
      (size : n = (data'.memory.heap object).fields.length)

/-- The position that `set_field` is linked to when it is given the name of a
field of the type. -/
def SetsField (vm : CatVM) (type : TypePointer) (i : Nat) : Prop :=
  ∃ k mod definition targetRegister fieldObjectRegisterIndex usingTypeIndex fieldName borrowLock labelBlockMap labelBlockMap',
    vm.getModule k = some mod ∧ mod.usingTypes[usingTypeIndex]? = some (some type) ∧ vm.typeAt type = some definition ∧
      fieldName ≠ [] ∧ fieldName ∈ definition.allFields.map (·.name) ∧
      vm.linkOrder mod labelBlockMap
        (.setObjectFieldOwnership targetRegister fieldObjectRegisterIndex usingTypeIndex fieldName 0 borrowLock) =
        .ok (labelBlockMap',
          .setObjectFieldOwnership targetRegister fieldObjectRegisterIndex usingTypeIndex fieldName i borrowLock)

/-- The objects of a type are as large as the type, and there is one for the fields
of the module that has its name. -/
structure ObjectsFit (vm : CatVM) (type : TypePointer) (definition : VMType) : Prop where
  moduleFields : ∀ k mod index, type = .defined k index → vm.getModule k = some mod → mod.typeDefineMap.get k = some index →
    mod.moduleFields.isSome
  size : ∀ n, Allocates vm type n → n = definition.allFields.length
  fields : ∀ n, Allocates vm type n → ∀ i, SetsField vm type i → i < n

section Declared
variable (library : StandardLibrary) (vm : CatVM)

/-- A module has a type of its own name: this one. -/
def OwnType (k : Text) (index : Nat) : Prop := ∃ source, vm.source library k = some source ∧ source.typeDefineMap.get k = some index

/-- A module that is loaded, or is going to be, uses the type. -/
def UsedIn (name : Text) (type : TypePointer) : Prop :=
  ∃ k source info, ((vm.getModule k).isSome ∨ InClosure library vm name k) ∧ vm.source library k = some source ∧
    info ∈ source.usingTypeInfos ∧ vm.declaredType library source info = some type

def DeclaresNoField (type : TypePointer) : Prop :=
  ∀ source definition, vm.declaration library type = some (source, definition) → definition.fieldInfos = []

/-- The heap has cells for the fields that the type declares. -/
def FitsHeap (type : TypePointer) : Prop :=
  ∀ source definition, vm.declaration library type = some (source, definition) →
    (allocatedFields type definition.fieldInfos.length).isSome

def InheritsNoField (type : TypePointer) : Prop := ∀ q, TransGen (TakesParent library vm) type q → DeclaresNoField library vm q

end Declared

section Sizes
variable {library : StandardLibrary} {vm after : CatVM}

/-- A `new` has no room for fields. -/
theorem newObject_size {mod : VMModule} {type : TypePointer} {resultRegister usingTypeIndex fieldLength : Nat}
    {labelBlockMap labelBlockMap' : PointerMap Text Nat} {rt : Runtime} {constValues : List ConstValue} {arguments : List Word}
    {thread thread' : VMThread} {data data' : VMData} {object : Address}
    (link : after.linkOrder mod labelBlockMap (newClassObject resultRegister usingTypeIndex) =
      .ok (labelBlockMap', .newClassObject resultRegister usingTypeIndex (some type) fieldLength))
    (run : (Order.newClassObject resultRegister usingTypeIndex (some type) fieldLength).eval rt constValues arguments thread data =
      some (thread', data')) (made : object = rt.malloc data.memory type fieldLength) (there : object ≠ 0) :
    (data'.memory.heap object).fields.length = 0 := by
  have none : fieldLength = 0 := by
    rw [newClassObject, CatVM.linkOrder] at link
    split at link
    · exact absurd link (by simp)
    · have same := Except.ok.inj link
      simp at same
      exact same.2.2.symm
  subst none
  rw [Order.eval, Option.bind_some] at run
  dsimp only at run
  rw [← made, if_neg there] at run
  obtain ⟨data'', stored, same⟩ := Option.map_eq_some_iff.mp run
  obtain ⟨_, rfl⟩ := Prod.mk.inj same
  unfold VMData.setRegister at stored
  split at stored
  · rw [← Option.some.inj stored]
    simp [GcState.malloc, HeapObject.allocate]
  · exact absurd stored (by simp)

theorem TypesFound.declaresNoField_iff (found : TypesFound library vm after) {k : Text} {i : Nat} {mod : VMModule} {type : VMType}
    (here : after.getModule k = some mod) (atIndex : mod.typeDefines[i]? = some type) :
    DeclaresNoField library vm (.defined k i) ↔ type.addFields = [] := by
  obtain ⟨source, type', declared, fields⟩ := found.declared here atIndex
  rw [(found.types k mod here type (List.mem_of_getElem? atIndex)).addFields, List.map_eq_nil_iff, ← fields]
  constructor
  · exact fun all => all source type' declared
  · intro none source' definition declared'
    obtain ⟨_, rfl⟩ := Prod.mk.inj (Option.some.inj (declared.symm.trans declared'))
    exact none

theorem TypesFound.fitsHeap_iff (found : TypesFound library vm after) {k : Text} {i : Nat} {mod : VMModule} {type : VMType}
    (here : after.getModule k = some mod) (atIndex : mod.typeDefines[i]? = some type) :
    FitsHeap library vm (.defined k i) ↔ (allocatedFields (.defined k i) type.fieldInfos.length).isSome := by
  obtain ⟨source, type', declared, fields⟩ := found.declared here atIndex
  rw [← fields]
  constructor
  · exact fun all => all source type' declared
  · intro there source' definition declared'
    obtain ⟨_, rfl⟩ := Prod.mk.inj (Option.some.inj (declared.symm.trans declared'))
    exact there

theorem TypesFound.inheritsNoField_iff (found : TypesFound library vm after) {k : Text} {i : Nat} (loaded : (after.getModule k).isSome)
    {own : List Field} {labels : List (List Field)}
    (line : Lineage (parentOf after.typeParents) (some (.defined k i)) (own :: labels)) :
    InheritsNoField library vm (.defined k i) ↔ ∀ label ∈ labels, label = [] := by
  have shown {target : Text} {index : Nat} {mod : VMModule} {type : VMType} (here : after.getModule target = some mod)
      (atIndex : mod.typeDefines[index]? = some type) :
      parentOf after.typeParents (.defined target index) = some (type.parent, type.addFields) := by
    rw [CatVM.parentOf_eq, CatVM.typeAt, here, Option.bind_some, atIndex, Option.map_some]
  constructor
  · intro inherits label member
    obtain ⟨up, next, above, atUp⟩ := line.mem_ancestors.mp member
    obtain ⟨target, index, rfl, there⟩ := found.above_loaded loaded above
    obtain ⟨mod, here⟩ := Option.isSome_iff_exists.mp there
    rw [CatVM.parentOf_eq, CatVM.typeAt, here, Option.bind_some] at atUp
    obtain ⟨type, atIndex, same⟩ := Option.map_eq_some_iff.mp atUp
    obtain ⟨_, rfl⟩ := Prod.mk.inj same
    exact (found.declaresNoField_iff here atIndex).mp (inherits _ ((found.above_iff loaded i _).mpr above))
  · intro empty q path
    have above := (found.above_iff loaded i q).mp path
    obtain ⟨target, index, rfl, there⟩ := found.above_loaded loaded above
    intro source definition declared
    obtain ⟨mod, type, here, atIndex, _⟩ := found.fieldInfos there declared
    have none := empty _ (line.mem_ancestors.mpr ⟨_, _, above, shown here atIndex⟩)
    exact (found.declaresNoField_iff here atIndex).mpr none source definition declared

theorem setsField_inside {type : TypePointer} {definition : VMType} {i : Nat} (here : vm.typeAt type = some definition)
    (sets : SetsField vm type i) : i < definition.allFields.length := by
  obtain ⟨k, mod, definition', targetRegister, fieldObjectRegisterIndex, usingTypeIndex, fieldName, borrowLock, labelBlockMap,
    labelBlockMap', loaded, used, here', named, member, link⟩ := sets
  obtain rfl := Option.some.inj (here.symm.trans here')
  have linked := (Prod.mk.inj (CatVM.linkOrder_run link)).2
  have position : i = fieldPosition vm.typeAt mod.usingTypes usingTypeIndex fieldName 0 := by
    simpa [Order.linked] using linked
  obtain ⟨field, listed, same⟩ := List.mem_map.mp member
  have known : definition.allFields.any (fun field => field.name = fieldName) = true :=
    List.any_eq_true.mpr ⟨field, listed, decide_eq_true same⟩
  obtain ⟨j, found⟩ := Option.isSome_iff_exists.mp (List.findIdx?_isSome.trans known)
  have bind : (mod.usingTypes[usingTypeIndex]?.join.bind vm.typeAt).bind
      (fun type => type.allFields.findIdx? fun field => field.name = fieldName) = some j := by
    rw [used]
    show (vm.typeAt type).bind _ = _
    rw [here, Option.bind_some, found]
  rw [position, fieldPosition, if_neg named, bind, Option.getD_some]
  exact (List.findIdx?_eq_some_iff_getElem.mp found).1

/-- A runtime whose allocator always has the same object. -/
def servedRuntime : Runtime :=
  { typeAddress := fun _ => 0, isCyclingType := fun _ => false, malloc := fun _ _ _ => 8, stackAbove := fun _ => 0
    operatorNew := fun _ _ => true }

def servedData : VMData := ⟨[0], { heap := fun _ => .zeroed, suspectedObjectList := [] }⟩

def servedThread : VMThread := ⟨.make [] 0 0 [] ⟨none, 0⟩ [], none, 0, false⟩

theorem newObject_served (type : TypePointer) (usingTypeIndex : Nat) :
    ∃ data, (Order.newClassObject 0 usingTypeIndex (some type) 0).eval servedRuntime [] [] servedThread servedData =
      some (servedThread, data) := ⟨_, rfl⟩

/-- What is allocated for a type, and how large. -/
theorem allocates_iff (linked : vm.Linked library) {k : Text} {index n : Nat} {mod : VMModule} {definition : VMType}
    (here : vm.getModule k = some mod) (atIndex : mod.typeDefines[index]? = some definition) :
    Allocates vm (.defined k index) n ↔
      mod.typeDefineMap.get k = some index ∧ (allocatedFields (.defined k index) n).isSome ∧ n = definition.fieldInfos.length ∨
        (∃ k' mod', vm.getModule k' = some mod' ∧ some (.defined k index) ∈ mod'.usingTypes) ∧ n = 0 := by
  have fields := (linked k mod here).moduleFields
  constructor
  · intro allocates
    cases allocates with
    | @moduleFields k' mod' here' fields' =>
      left
      rw [(linked k' mod' here').moduleFields] at fields'
      obtain ⟨index', named, rest⟩ := Option.bind_eq_some_iff.mp fields'
      obtain ⟨type, atIndex', given⟩ := Option.bind_eq_some_iff.mp rest
      obtain ⟨_, room, same⟩ := Option.map_eq_some_iff.mp given
      obtain ⟨sameType, rfl⟩ := ModuleFields.mk.inj same
      obtain ⟨rfl, rfl⟩ := TypePointer.defined.inj sameType
      obtain rfl := Option.some.inj (here.symm.trans here')
      obtain rfl := Option.some.inj (atIndex.symm.trans atIndex')
      exact ⟨named, by rw [given]; rfl, rfl⟩
    | @newObject k' mod' _ usingTypeIndex _ _ _ _ _ _ _ _ _ _ _ here' link run made there size =>
      refine .inr ⟨⟨k', mod', here', ?_⟩, size.trans (newObject_size link run made there)⟩
      rw [newClassObject, CatVM.linkOrder] at link
      split at link
      · exact absurd link (by simp)
      · rename_i used
        have same := Except.ok.inj link
        simp at same
        exact same.2.1 ▸ List.mem_of_getElem? used
  · rintro (⟨named, room, rfl⟩ | ⟨⟨k', mod', here', used⟩, rfl⟩)
    · refine .moduleFields here ?_
      rw [allocatedFields, Option.isSome_map] at room
      obtain ⟨block, chosen⟩ := Option.isSome_iff_exists.mp room
      rw [fields, named, Option.bind_some, atIndex, Option.bind_some, allocatedFields, chosen, Option.map_some]
    · obtain ⟨u, inside, at_u⟩ := List.getElem_of_mem used
      have atUsed : mod'.usingTypes[u]? = some (some (.defined k index)) := by rw [List.getElem?_eq_getElem inside, at_u]
      have link : vm.linkOrder mod' .empty (newClassObject 0 u) = .ok (.empty, .newClassObject 0 u (some (.defined k index)) 0) := by
        rw [newClassObject, CatVM.linkOrder, atUsed]
      obtain ⟨data, run⟩ := newObject_served (.defined k index) u
      have there : servedRuntime.malloc servedData.memory (.defined k index) 0 ≠ 0 := Nat.succ_ne_zero 7
      exact .newObject here' link run rfl there (newObject_size link run rfl there).symm

theorem TypesFound.ownType_iff (found : TypesFound library vm after) {k : Text} {index : Nat} {mod : VMModule}
    (here : after.getModule k = some mod) : OwnType library vm k index ↔ mod.typeDefineMap.get k = some index := by
  obtain ⟨source, read, same⟩ := found.sources k mod here
  rw [same.typeDefineMap]
  constructor
  · rintro ⟨source', read', named⟩
    exact Option.some.inj (read.symm.trans read') ▸ named
  · exact fun named => ⟨source, read, named⟩

theorem LoadDone.usedIn_iff {name : Text} {loaded : List Text} (done : LoadDone library vm after name loaded)
    (before : vm.Linked library) (type : TypePointer) :
    UsedIn library vm name type ↔ ∃ k mod, after.getModule k = some mod ∧ some type ∈ mod.usingTypes := by
  have found := done.typesFound before
  have linked := done.linked before
  constructor
  · rintro ⟨k, source, info, known, read, member, resolved⟩
    obtain ⟨mod, here⟩ := Option.isSome_iff_exists.mp ((done.loaded_iff before k).mpr known)
    obtain ⟨source', read', same⟩ := found.sources k mod here
    obtain rfl := Option.some.inj (read.symm.trans read')
    refine ⟨k, mod, here, ?_⟩
    rw [(linked k mod here).usingTypes, same.usingTypeInfos]
    exact List.mem_map.mpr ⟨info, member, (found.declaredType here read info).symm.trans resolved⟩
  · rintro ⟨k, mod, here, member⟩
    obtain ⟨source, read, same⟩ := found.sources k mod here
    rw [(linked k mod here).usingTypes, same.usingTypeInfos] at member
    obtain ⟨info, member, resolved⟩ := List.mem_map.mp member
    exact ⟨k, source, info, (done.loaded_iff before k).mp (by rw [here]; rfl), read, member,
      (found.declaredType here read info).trans resolved⟩

/-- An object is as large as all the fields of its type, when nothing is missing. -/
theorem allocates_size_iff (linked : vm.Linked library) {k : Text} {index declared inherited : Nat} {mod : VMModule}
    {definition : VMType} (here : vm.getModule k = some mod) (atIndex : mod.typeDefines[index]? = some definition)
    (own : definition.fieldInfos.length = declared) (all : definition.allFields.length = declared + inherited)
    (room : mod.typeDefineMap.get k = some index → (allocatedFields (.defined k index) definition.fieldInfos.length).isSome) :
    (∀ n, Allocates vm (.defined k index) n → n = definition.allFields.length) ↔
      (mod.typeDefineMap.get k = some index → inherited = 0) ∧
        ((∃ k' mod', vm.getModule k' = some mod' ∧ some (.defined k index) ∈ mod'.usingTypes) → declared = 0 ∧ inherited = 0) := by
  simp only [allocates_iff linked here atIndex]
  constructor
  · intro sizes
    refine ⟨fun named => ?_, fun used => ?_⟩
    · have := sizes _ (.inl ⟨named, room named, rfl⟩)
      omega
    · have := sizes 0 (.inr ⟨used, rfl⟩)
      omega
  · rintro ⟨module, other⟩ n (⟨named, _, rfl⟩ | ⟨user, rfl⟩)
    · have := module named
      omega
    · have := other user
      omega

/-- A module has its object exactly if the heap has cells for it. -/
theorem TypesFound.moduleFields_iff {before : CatVM} (found : TypesFound library before vm) (linked : vm.Linked library) {k : Text}
    {index : Nat} {mod : VMModule} {definition : VMType} (here : vm.getModule k = some mod)
    (atIndex : mod.typeDefines[index]? = some definition) :
    (∀ k' mod' index', TypePointer.defined k index = .defined k' index' → vm.getModule k' = some mod' →
      mod'.typeDefineMap.get k' = some index' → mod'.moduleFields.isSome) ↔
    (mod.typeDefineMap.get k = some index → FitsHeap library before (.defined k index)) := by
  rw [found.fitsHeap_iff here atIndex]
  have made (named : mod.typeDefineMap.get k = some index) :
      mod.moduleFields = allocatedFields (.defined k index) definition.fieldInfos.length := by
    rw [(linked k mod here).moduleFields, named, Option.bind_some, atIndex, Option.bind_some]
  constructor
  · intro all named
    exact made named ▸ all k mod index rfl here named
  · intro room k' mod' index' same here' named
    obtain ⟨rfl, rfl⟩ := TypePointer.defined.inj same
    obtain rfl := Option.some.inj (here.symm.trans here')
    exact made named ▸ room named

/-- The objects of a type fit exactly if none is allocated where its size is
taken from the wrong list. -/
theorem loadModule_objectSizes {order : LoadOrder} {vm' : CatVM} {name m : Text} (reached : Reached library vm)
    (run : vm.loadModule library order name = .ok (vm', some m)) {k : Text} {index : Nat} {definition : VMType}
    (here : vm'.typeAt (.defined k index) = some definition) :
    ObjectsFit vm' (.defined k index) definition ↔
      (OwnType library vm k index → FitsHeap library vm (.defined k index) ∧ InheritsNoField library vm (.defined k index)) ∧
        (UsedIn library vm name (.defined k index) →
          DeclaresNoField library vm (.defined k index) ∧ InheritsNoField library vm (.defined k index)) := by
  obtain ⟨_, loaded, done⟩ := loadModule_done run
  have linked := (reached.load run).linked
  have found := done.typesFound reached.linked
  obtain ⟨mod, loadedHere, atIndex⟩ := Option.bind_eq_some_iff.mp here
  have isType := (linked k mod loadedHere).type loadedHere atIndex
  obtain ⟨chain, layout, laid⟩ := isType.layout
  obtain ⟨above, rfl, _⟩ := layout.own (by rw [CatVM.parentOf_eq, here, Option.map_some])
  -- the fields of the type itself and those of its ancestors
  have length : definition.allFields.length = definition.addFields.length + above.flatten.length := by
    rw [laid, List.reverse_cons, List.flatten_append, List.length_append, List.flatten_singleton, Nat.add_comm,
      (List.reverse_perm above).flatten.length_eq]
  have declares : DeclaresNoField library vm (.defined k index) ↔ definition.addFields.length = 0 :=
    (found.declaresNoField_iff loadedHere atIndex).trans List.length_eq_zero_iff.symm
  have inherits : InheritsNoField library vm (.defined k index) ↔ above.flatten.length = 0 := by
    rw [found.inheritsNoField_iff (by rw [loadedHere]; rfl) layout.line, List.length_eq_zero_iff, List.flatten_eq_nil_iff]
  have declared : definition.fieldInfos.length = definition.addFields.length := by rw [isType.addFields, List.length_map]
  rw [found.ownType_iff loadedHere, done.usedIn_iff reached.linked, declares, inherits]
  have given := found.moduleFields_iff linked loadedHere atIndex
  have size (room : mod.typeDefineMap.get k = some index → FitsHeap library vm (.defined k index)) :=
    allocates_size_iff linked loadedHere atIndex declared length fun named => (found.fitsHeap_iff loadedHere atIndex).mp (room named)
  constructor
  · intro fit
    have room := given.mp fit.moduleFields
    obtain ⟨own, used⟩ := (size room).mp fit.size
    exact ⟨fun named => ⟨room named, own named⟩, used⟩
  · rintro ⟨own, used⟩
    have room : mod.typeDefineMap.get k = some index → FitsHeap library vm (.defined k index) := fun named => (own named).1
    have all := (size room).mpr ⟨fun named => (own named).2, used⟩
    exact ⟨given.mpr room, all, fun n allocates i sets => all n allocates ▸ setsField_inside here sets⟩

end Sizes

/-- A module `a` with a type of its own name, which inherits a field from
another type. -/
def inheritingText : Text :=
  [['$', 'c', 'o', 'n', 's', 't'], ['0', ':', '1', ':', 's', '#', 'a'], ['1', ':', '1', ':', 's', '#', 'b'], END,
    ['$', 'i', 'm', 'p', 'o', 'r', 't'], ['0', ':', 't', 'h', 'i', 's'], END,
    ['$', 't', 'y', 'p', 'e', 'd', 'e', 'f'], ['0', ':', '(', '7', ':', 'i', '6', '4', ')', ':', '0', ':', '1'],
    ['1', ':', '(', '8', ':', 'i', '6', '4', ')'], END].flatMap (· ++ ['\n'])

def inheritingVM : CatVM := ⟨[(['a'], inheritingText)], []⟩

def inheritingParts : ModuleParts where
  constValues := [⟨1, .string ['a']⟩, ⟨1, .string ['b']⟩]
  importModuleNames := [['a']]
  typeDefines := [.make ['a'] [⟨['7'], some .i64, ⟨0, []⟩⟩] (some ⟨0, ['b']⟩), .make ['b'] [⟨['8'], some .i64, ⟨0, []⟩⟩] none]
  usingTypeInfos := []
  functions := []

/-- The fields of the module, and how many fields its type has. -/
def ownSizes (vm : CatVM) : Option (Option ModuleFields × Option Nat) :=
  (vm.getModule ['a']).map fun mod => (mod.moduleFields, (mod.typeDefines[0]?).map (·.allFields.length))

theorem inheritingVM_loads : ∃ vm mod definition, inheritingVM.loadModule plainLibrary firstListed ['a'] = .ok (vm, some ['a']) ∧
    vm.getModule ['a'] = some mod ∧ vm.typeAt (.defined ['a'] 0) = some definition ∧
      mod.moduleFields = some ⟨.defined ['a'] 0, 1⟩ ∧ definition.allFields.length = 2 := by
  obtain ⟨vm, run, sizes⟩ := @loadModule_parts plainLibrary firstListed inheritingVM ['a'] inheritingParts rfl (by decide)
    (by decide +kernel) (by decide) _ ownSizes (some (some ⟨.defined ['a'] 0, 1⟩, some 2)) (by decide +kernel)
  obtain ⟨mod, here, same⟩ := Option.map_eq_some_iff.mp sizes
  obtain ⟨fields, types⟩ := Prod.mk.inj same
  obtain ⟨definition, atIndex, length⟩ := Option.map_eq_some_iff.mp types
  exact ⟨vm, mod, definition, run, here, by rw [CatVM.typeAt, here, Option.bind_some, atIndex], fields, length⟩

theorem loadModule_objectSizes_inheriting : ∃ vm definition,
    inheritingVM.loadModule plainLibrary firstListed ['a'] = .ok (vm, some ['a']) ∧
      vm.typeAt (.defined ['a'] 0) = some definition ∧
      (ObjectsFit vm (.defined ['a'] 0) definition ↔
        (OwnType plainLibrary inheritingVM ['a'] 0 → FitsHeap plainLibrary inheritingVM (.defined ['a'] 0) ∧
          InheritsNoField plainLibrary inheritingVM (.defined ['a'] 0)) ∧
          (UsedIn plainLibrary inheritingVM ['a'] (.defined ['a'] 0) → DeclaresNoField plainLibrary inheritingVM (.defined ['a'] 0) ∧
            InheritsNoField plainLibrary inheritingVM (.defined ['a'] 0))) := by
  obtain ⟨vm, mod, definition, run, _, here, _⟩ := inheritingVM_loads
  exact ⟨vm, definition, run, here, loadModule_objectSizes .start run here⟩

/-- The fields of the module have room for one of two fields. -/
theorem loadModule_objectSizes_small : ∃ vm definition,
    inheritingVM.loadModule plainLibrary firstListed ['a'] = .ok (vm, some ['a']) ∧
      vm.typeAt (.defined ['a'] 0) = some definition ∧ Allocates vm (.defined ['a'] 0) 1 ∧ definition.allFields.length = 2 ∧
        ¬ObjectsFit vm (.defined ['a'] 0) definition := by
  obtain ⟨vm, mod, definition, run, loaded, here, fields, length⟩ := inheritingVM_loads
  have allocates : Allocates vm (.defined ['a'] 0) 1 := .moduleFields loaded fields
  refine ⟨vm, definition, run, here, allocates, length, fun fit => ?_⟩
  have same := fit.size 1 allocates
  rw [length] at same
  exact absurd same (by decide)

end CatLa
