import CatLa.Foundations.Lineage
import CatLa.Foundations.TablePass
import CatLa.Vm.ImportClosure

namespace CatLa
open Outcome TablePass

namespace PointerMap
variable {κ π : Type} [DecidableEq κ]

/-- The map without the keys that it maps to null. -/
def known (m : PointerMap κ π) : PointerMap κ π := fun k => (m.get k).map some

omit [DecidableEq κ] in
@[simp] theorem get_known (m : PointerMap κ π) : m.known.get = m.get := by
  funext k
  show ((m.get k).map some).join = m.get k
  cases m.get k <;> rfl

@[simp] theorem known_access (m : PointerMap κ π) (k : κ) : (m.access k).known = m.known := by
  funext k'
  simp [known]

theorem access_present {m : PointerMap κ π} {k : κ} (present : (m.get k).isSome) : m.access k = m := by
  unfold access
  cases atK : m k with
  | none => simp [get, atK] at present
  | some p => rfl

end PointerMap

/-- A module but for the null pointers in its `type_define_map`. -/
def VMModule.core (mod : VMModule) : VMModule := { mod with typeDefineMap := mod.typeDefineMap.known }

namespace CatVM

/-- The modules, but for the null pointers that reading their `type_define_map`
has left there. -/
def entries (vm : CatVM) (k : Text) : Option VMModule := (vm.getModule k).map (·.core)

/-- The types by their names, module by module. -/
def typeNames (vm : CatVM) : Text → Option (Text → Option Nat) := viewOf (fun mod => mod.typeDefineMap.get) vm.entries

variable {vm vm' : CatVM} {name : Text}

theorem entries_eq {mod : VMModule} (here : vm.getModule name = some mod) : vm.entries name = some mod.core := by
  rw [entries, here, Option.map_some]

theorem entries_modify {f g : VMModule → VMModule} (same : ∀ mod, vm.getModule name = some mod → (f mod).core = g mod.core) :
    (vm.modify name f).entries = replaced (fun _ => g) (· = name) vm.entries := by
  funext k
  simp only [entries, replaced, getModule_modify, Option.map_map]
  by_cases here : k = name
  · subst here
    cases found : vm.getModule k with
    | none => rfl
    | some mod => simp [same mod found]
  · cases vm.getModule k <;> simp [here]

theorem entries_access (vm : CatVM) (name typeName : Text) :
    (vm.modify name fun mod => { mod with typeDefineMap := mod.typeDefineMap.access typeName }).entries = vm.entries := by
  rw [entries_modify (g := fun mod => mod) fun mod _ => by simp [VMModule.core], replaced_same]

theorem typeNames_eq (vm : CatVM) : vm.typeNames = fun k => (vm.getModule k).map (·.typeDefineMap.get) := by
  funext k
  simp [typeNames, viewOf, entries, VMModule.core, Function.comp_def]

theorem deref_run {mod : VMModule} (run : vm.deref name = .ok mod) : vm.getModule name = some mod := by
  unfold deref at run
  split at run
  · rename_i here
    rw [here, Except.ok.inj run]
  · exact absurd run (by simp)

theorem deref_some {mod : VMModule} (here : vm.getModule name = some mod) : vm.deref name = .ok mod := by
  rw [deref, here]

theorem lookupType_run {mod : VMModule} {info : TypeInfo} {found : Option TypePointer}
    (run : vm.lookupType mod info = .ok (vm', found)) :
    vm'.entries = vm.entries ∧ found = info.resolve mod.importModules vm.typeNames := by
  unfold lookupType at run
  split at run
  · exact absurd run (by simp)
  · rename_i target imported
    obtain ⟨mod', here, same⟩ := bind_eq_ok.mp run
    obtain ⟨rfl, rfl⟩ := Prod.mk.inj (Except.ok.inj same)
    refine ⟨entries_access _ _ _, ?_⟩
    simp only [TypeInfo.resolve, imported, Option.bind_some, typeNames_eq, deref_run here, Option.map_some]

end CatVM

/-- The first pass. -/
def VMModule.withImports (mod : VMModule) : VMModule :=
  { mod with importModules := mod.importModules ++ mod.importModuleNames }

def FieldInfo.field (resolve : TypeInfo → Option TypePointer) (info : FieldInfo) : Field :=
  ⟨info.fieldName,
    match info.primitiveType with
    | some type => some (.primitive type)
    | none => resolve info.userDefType⟩

def VMType.withParent (resolve : TypeInfo → Option TypePointer) (type : VMType) : VMType :=
  { type with
    parent := if type.parentInfo.typeName = [] then type.parent else resolve type.parentInfo
    addFields := type.addFields ++ type.fieldInfos.map (·.field resolve) }

/-- The second pass, where `typeNames` are the types by their names. -/
def VMModule.withTypes (typeNames : Text → Option (Text → Option Nat)) (_name : Text) (mod : VMModule) : VMModule :=
  { mod with typeDefines := mod.typeDefines.map (·.withParent (·.resolve mod.importModules typeNames)) }

namespace CatVM
variable {vm vm' : CatVM} {name : Text}

theorem linkImports_run (run : vm.linkImports name = .ok vm') :
    vm'.entries = replaced (fun _ => VMModule.withImports) (· = name) vm.entries := by
  obtain ⟨mod, here, run⟩ := bind_eq_ok.mp run
  have loop := foldlM_post (P := fun rest (vm' : CatVM) => ∃ done, mod.importModuleNames = done ++ rest ∧
    vm'.entries = replaced (fun _ mod => { mod with importModules := mod.importModules ++ done }) (· = name) vm.entries)
    ?_ run ⟨[], rfl, ?_⟩
  · obtain ⟨done, same, changed⟩ := loop
    rw [List.append_nil] at same
    subst same
    rw [changed]
    refine replaced_congr fun core found => ?_
    obtain rfl := Option.some.inj (found.symm.trans (entries_eq (deref_run here)))
    rfl
  · rintro it rest vm₁ vm₂ ⟨done, same, changed⟩ step
    refine ⟨done ++ [it], by simp [same], ?_⟩
    unfold linkImport at step
    split at step
    · exact absurd step (by simp)
    · obtain rfl := Except.ok.inj step
      rw [entries_modify (g := fun mod => { mod with importModules := mod.importModules ++ [it] }) fun _ _ => rfl, changed,
        replaced_comp]
      simp only [List.append_assoc]
  · simp only [List.append_nil, replaced_same]

theorem linkField_run {mod : VMModule} {built built' : CatVM × List Field} {info : FieldInfo}
    (run : linkField mod built info = .ok built') :
    built'.1.entries = built.1.entries ∧
      built'.2 = built.2 ++ [info.field (·.resolve mod.importModules built.1.typeNames)] := by
  cases primitive : info.primitiveType with
  | some type =>
    simp only [linkField, primitive] at run
    obtain rfl := Except.ok.inj run
    exact ⟨rfl, by simp only [FieldInfo.field, primitive]⟩
  | none =>
    simp only [linkField, primitive] at run
    obtain ⟨⟨vm', type⟩, found, same⟩ := bind_eq_ok.mp run
    obtain rfl := Except.ok.inj same
    obtain ⟨entries, rfl⟩ := lookupType_run found
    exact ⟨entries, by simp only [FieldInfo.field, primitive]⟩

theorem linkType_run {mod : VMModule} {built built' : CatVM × List VMType} {type : VMType}
    (run : linkType mod built type = .ok built') :
    built'.1.entries = built.1.entries ∧
      built'.2 = built.2 ++ [type.withParent (·.resolve mod.importModules built.1.typeNames)] := by
  obtain ⟨⟨vm₁, parent⟩, found, run⟩ := bind_eq_ok.mp run
  obtain ⟨⟨vm₂, addFields⟩, fields, same⟩ := bind_eq_ok.mp run
  obtain rfl := Except.ok.inj same
  have above : vm₁.entries = built.1.entries ∧
      parent = if type.parentInfo.typeName = [] then type.parent else
        type.parentInfo.resolve mod.importModules built.1.typeNames := by
    unfold lookupParent at found
    split at found
    · rename_i root
      obtain ⟨rfl, rfl⟩ := Prod.mk.inj (Except.ok.inj found)
      simp [root]
    · rename_i declared
      rw [if_neg declared]
      exact lookupType_run found
  have loop := foldlM_post (P := fun rest (built' : CatVM × List Field) => built'.1.entries = built.1.entries ∧
    built'.2 ++ rest.map (·.field (·.resolve mod.importModules built.1.typeNames)) =
      type.addFields ++ type.fieldInfos.map (·.field (·.resolve mod.importModules built.1.typeNames))) ?_ fields
    ⟨above.1, rfl⟩
  · refine ⟨loop.1, ?_⟩
    rw [List.map_nil, List.append_nil] at loop
    rw [VMType.withParent, ← above.2, ← loop.2]
  · rintro info rest ⟨vm₃, before⟩ built₃ ⟨same, laid⟩ step
    obtain ⟨same', added⟩ := linkField_run step
    refine ⟨same'.trans same, ?_⟩
    rw [added, ← laid, typeNames, same]
    simp [typeNames]

theorem linkTypes_run (run : vm.linkTypes name = .ok vm') :
    vm'.entries = replaced (VMModule.withTypes vm.typeNames) (· = name) vm.entries := by
  obtain ⟨mod, here, run⟩ := bind_eq_ok.mp run
  obtain ⟨⟨vm₁, typeDefines⟩, types, same⟩ := bind_eq_ok.mp run
  obtain rfl := Except.ok.inj same
  have loop := foldlM_post (P := fun rest (built' : CatVM × List VMType) => built'.1.entries = vm.entries ∧
    built'.2 ++ rest.map (·.withParent (·.resolve mod.importModules vm.typeNames)) =
      mod.typeDefines.map (·.withParent (·.resolve mod.importModules vm.typeNames))) ?_ types ⟨rfl, rfl⟩
  · obtain ⟨unchanged, built⟩ := loop
    rw [List.map_nil, List.append_nil] at built
    dsimp only at built
    rw [entries_modify (g := fun mod => { mod with typeDefines }) fun _ _ => rfl, unchanged, built]
    refine replaced_congr fun core found => ?_
    obtain rfl := Option.some.inj (found.symm.trans (entries_eq (deref_run here)))
    rfl
  · rintro type rest ⟨vm₂, before⟩ built₂ ⟨same, linked⟩ step
    obtain ⟨same', added⟩ := linkType_run step
    refine ⟨same'.trans same, ?_⟩
    rw [added, ← linked, typeNames, same]
    simp [typeNames]

end CatVM

/-- The parent and the own fields of a type, where `types` has them module by
module. -/
def parentOf (types : Text → Option (List (Option TypePointer × List Field))) :
    TypePointer → Option (Option TypePointer × List Field)
  | .primitive _ => some (none, [])
  | .defined module index => (types module).bind (·[index]?)

/-- `reference_fields` of these fields. -/
def referenceBits (fields : List Field) : List (BitVec 8) :=
  fields.zipIdx.foldl (fun bytes field =>
    match field.1.type with
    | some (.defined _ _) => setFlag bytes field.2 true
    | _ => bytes) (createBitset fields.length)

def VMType.laidOut (type : VMType) (chain : List (List Field)) : VMType :=
  let allFields := type.allFields ++ chain.reverse.flatten
  { type with allFields, referenceFields := some (referenceBits allFields) }

/-- The third pass. -/
noncomputable def VMModule.withLayout (types : Text → Option (List (Option TypePointer × List Field))) (name : Text)
    (mod : VMModule) : VMModule :=
  { mod with
    typeDefines := mod.typeDefines.mapIdx fun i type => type.laidOut (Lineage.of (parentOf types) (.defined name i)) }

theorem layFields_unique {foundFieldNames : List Text} {fields : List Field} :
    (layFields foundFieldNames fields).2 = true → (layFields foundFieldNames fields).1 = fields := by
  induction fields generalizing foundFieldNames with
  | nil => exact fun _ => rfl
  | cons field fields ih =>
    intro unique
    rw [layFields] at unique ⊢
    split at unique
    · exact absurd unique Bool.false_ne_true
    · rename_i fresh
      rw [if_neg fresh]
      exact congrArg (field :: ·) (ih unique)

theorem markField_run {bytes bytes' : List (BitVec 8)} {field : Field × Nat} (run : markField bytes field = .ok bytes') :
    bytes' = match field.1.type with
      | some (.defined _ _) => setFlag bytes field.2 true
      | _ => bytes := by
  unfold markField at run
  split at run
  · exact absurd run (by simp)
  · rename_i here
    rw [here, ← Except.ok.inj run]
  · rename_i here
    rw [here, ← Except.ok.inj run]

theorem referenceBits_run {fields : List Field} {bytes : List (BitVec 8)}
    (run : fields.zipIdx.foldlM markField (createBitset fields.length) = .ok bytes) : bytes = referenceBits fields := by
  have loop := foldlM_post (P := fun rest bytes => rest.foldl (fun bytes field =>
    match field.1.type with
    | some (.defined _ _) => setFlag bytes field.2 true
    | _ => bytes) bytes = referenceBits fields) (fun field rest bytes bytes' kept step => ?_) run rfl
  · exact loop
  · rw [markField_run step]
    exact kept

theorem foldl_modify_range {α : Type} (g : Nat → α → α) (values : List α) :
    (List.range values.length).foldl (fun values i => values.modify i (g i)) values = values.mapIdx g := by
  have upTo (n : Nat) : (List.range n).foldl (fun values i => values.modify i (g i)) values =
      values.mapIdx fun i value => if i < n then g i value else value := by
    induction n with
    | zero => exact (List.ext_getElem (by simp) fun i _ _ => by simp)
    | succ n ih =>
      rw [List.range_succ, List.foldl_append, ih]
      refine List.ext_getElem (by simp) fun i _ _ => ?_
      simp only [List.foldl_cons, List.foldl_nil, List.getElem_modify, List.getElem_mapIdx]
      by_cases here : n = i
      · subst here
        simp
      · by_cases before : i < n
        · simp [here, before, Nat.lt_succ_of_lt before]
        · simp [here, before, show ¬i < n + 1 by omega]
  rw [upTo]
  refine List.ext_getElem (by simp) fun i bound _ => ?_
  have inside : i < values.length := by simpa using bound
  simp [inside]

theorem map_foldl_modify {α β : Type} {f : α → β} {g : Nat → α → α} (same : ∀ i a, f (g i a) = f a) (indices : List Nat)
    (values : List α) : (indices.foldl (fun values i => values.modify i (g i)) values).map f = values.map f := by
  induction indices generalizing values with
  | nil => rfl
  | cons index indices ih =>
    rw [List.foldl_cons, ih]
    refine List.ext_getElem (by simp) fun i _ _ => ?_
    rw [List.getElem_map, List.getElem_map, List.getElem_modify]
    split
    · exact same _ _
    · rfl

namespace CatVM
variable {vm vm' : CatVM} {name : Text}

/-- The parents and the own fields of the types, module by module. -/
def typeParents (vm : CatVM) : Text → Option (List (Option TypePointer × List Field)) :=
  viewOf (fun mod => mod.typeDefines.map fun type => (type.parent, type.addFields)) vm.entries

theorem parentOf_eq (vm : CatVM) (pointer : TypePointer) :
    parentOf vm.typeParents pointer = (vm.typeAt pointer).map fun type => (type.parent, type.addFields) := by
  cases pointer with
  | primitive type => rfl
  | defined module index =>
    cases found : vm.getModule module <;> simp [parentOf, typeAt, typeParents, viewOf, entries, found, VMModule.core]

theorem parentChain_run {foundTypes : List TypePointer} {current : Option TypePointer} {parents : List VMType}
    (run : vm.parentChain foundTypes current = .ok parents) :
    Lineage (parentOf vm.typeParents) current (parents.map (·.addFields)) := by
  induction foundTypes, current using parentChain.induct vm generalizing parents with
  | case1 foundTypes =>
    rw [parentChain] at run
    obtain rfl := Except.ok.inj run
    exact .root
  | case2 foundTypes pointer twice =>
    rw [parentChain, if_pos twice] at run
    exact absurd run (by simp)
  | case3 foundTypes pointer fresh nowhere =>
    rw [parentChain_some fresh, nowhere] at run
    exact absurd run (by simp)
  | case4 foundTypes pointer fresh type here ih =>
    rw [parentChain_some fresh, here] at run
    obtain ⟨rest, above, same⟩ := bind_eq_ok.mp run
    obtain rfl := Except.ok.inj same
    exact .child (by rw [parentOf_eq, here, Option.map_some]) (ih above)

theorem layType_run {index : Nat} (run : layType name vm index = .ok vm') :
    vm'.entries = replaced (fun _ mod => { mod with
      typeDefines := mod.typeDefines.modify index
        (·.laidOut (Lineage.of (parentOf vm.typeParents) (.defined name index))) }) (· = name) vm.entries := by
  obtain ⟨mod, here, run⟩ := bind_eq_ok.mp run
  split at run
  · exact absurd run (by simp)
  · rename_i type atIndex
    obtain ⟨parents, above, run⟩ := bind_eq_ok.mp run
    have line := Lineage.of_eq (parentChain_run above)
    dsimp only at run
    split at run
    · exact absurd run (by simp)
    · rename_i unique
      rw [Bool.not_eq_false] at unique
      obtain ⟨bytes, bits, same⟩ := bind_eq_ok.mp run
      obtain rfl := Except.ok.inj same
      have laid : (layFields [] (parents.reverse.flatMap (·.addFields))).1 =
          (Lineage.of (parentOf vm.typeParents) (.defined name index)).reverse.flatten := by
        rw [layFields_unique unique, line, ← List.map_reverse, List.flatMap_def]
      rw [laid] at bits ⊢
      rw [referenceBits_run bits, modifyType, modifyType,
        entries_modify (g := fun mod => { mod with typeDefines := mod.typeDefines.modify index _ }) fun _ _ => rfl,
        entries_modify (g := fun mod => { mod with typeDefines := mod.typeDefines.modify index _ }) fun _ _ => rfl]
      funext k
      by_cases here' : k = name
      · subst here'
        simp only [replaced, entries_eq (deref_run here), Option.map_some, if_true]
        refine congrArg some (congrArg (fun types => { mod.core with typeDefines := types }) ?_)
        refine List.ext_getElem? fun i => ?_
        have found : mod.core.typeDefines[index]? = some type := atIndex
        by_cases at_i : index = i
        · subst at_i
          simp only [List.getElem?_modify, if_true, found]
          rfl
        · simp [at_i]
      · simp [replaced, here']

theorem layTypes_run (run : vm.layTypes name = .ok vm') :
    vm'.entries = replaced (VMModule.withLayout vm.typeParents) (· = name) vm.entries := by
  obtain ⟨mod, here, run⟩ := bind_eq_ok.mp run
  let lay (i : Nat) (type : VMType) := type.laidOut (Lineage.of (parentOf vm.typeParents) (.defined name i))
  have loop := foldlM_post (P := fun rest (vm' : CatVM) => ∃ done, List.range mod.typeDefines.length = done ++ rest ∧
    vm'.entries = replaced (fun _ mod => { mod with
      typeDefines := done.foldl (fun types i => types.modify i (lay i)) mod.typeDefines }) (· = name) vm.entries)
    ?_ run ⟨[], rfl, ?_⟩
  · obtain ⟨done, same, changed⟩ := loop
    rw [List.append_nil] at same
    subst same
    rw [changed]
    refine replaced_congr fun core found => ?_
    obtain rfl := Option.some.inj (found.symm.trans (entries_eq (deref_run here)))
    exact congrArg (fun types => { mod.core with typeDefines := types }) (foldl_modify_range lay mod.typeDefines)
  · rintro i rest vm₁ vm₂ ⟨done, same, changed⟩ step
    refine ⟨done ++ [i], by simp [same], ?_⟩
    have steady : vm₁.typeParents = vm.typeParents := by
      rw [typeParents, changed, typeParents]
      have same (i : Nat) (type : VMType) : ((lay i type).parent, (lay i type).addFields) = (type.parent, type.addFields) := rfl
      exact viewOf_replaced (fun _ mod => map_foldl_modify same done mod.typeDefines) _ _
    rw [layType_run step, changed, steady, replaced_comp]
    simp only [List.foldl_append, List.foldl_cons, List.foldl_nil, lay]
  · simp only [List.foldl_nil, replaced_same]

end CatVM

/-- The fourth pass. -/
def VMModule.withUsingTypes (typeNames : Text → Option (Text → Option Nat)) (_name : Text) (mod : VMModule) : VMModule :=
  { mod with usingTypes := mod.usingTypes ++ mod.usingTypeInfos.map (·.resolve mod.importModules typeNames) }

def argumentType (usingTypes : List (Option TypePointer)) (info : ArgumentInfo) : Option TypePointer :=
  match info.primitiveType with
  | some type => some (.primitive type)
  | none => usingTypes[info.typeIndex]?.join

def VMFunction.withSignature (usingTypes : List (Option TypePointer)) (function : VMFunction) : VMFunction :=
  { function with
    returnType := argumentType usingTypes function.returnTypeInfo
    argumentTypes := function.argumentTypes ++ function.argumentTypeInfos.map (argumentType usingTypes) }

/-- The fifth pass. -/
def VMModule.withSignatures (mod : VMModule) : VMModule :=
  { mod with functions := mod.functions.map (·.withSignature mod.usingTypes) }

/-- The sixth pass. -/
def VMModule.withFields (name : Text) (mod : VMModule) : VMModule :=
  { mod with
    moduleFields :=
      match (mod.typeDefineMap.get mod.name).bind fun index => (mod.typeDefines[index]?).map fun type => (index, type) with
      | none => mod.moduleFields
      | some (index, type) => allocatedFields (.defined name index) type.addFields.length }

theorem linkArgument_run {usingTypes : List (Option TypePointer)} {info : ArgumentInfo} {type : Option TypePointer}
    (run : linkArgument usingTypes info = .ok type) : type = argumentType usingTypes info := by
  unfold linkArgument at run
  unfold argumentType
  cases here : info.primitiveType with
  | some primitive =>
    rw [here] at run
    exact (Except.ok.inj run).symm
  | none =>
    rw [here] at run
    dsimp only at run ⊢
    cases found : usingTypes[info.typeIndex]? with
    | some pointer =>
      rw [found] at run
      exact (Except.ok.inj run).symm
    | none =>
      rw [found] at run
      exact absurd run (by simp)

theorem linkSignature_run {usingTypes : List (Option TypePointer)} {function function' : VMFunction}
    (run : linkSignature usingTypes function = .ok function') : function' = function.withSignature usingTypes := by
  obtain ⟨returnType, result, run⟩ := bind_eq_ok.mp run
  obtain ⟨argumentTypes, arguments, same⟩ := bind_eq_ok.mp run
  rw [← Except.ok.inj same, linkArgument_run result, mapM_run (fun _ _ => linkArgument_run) arguments]
  rfl

namespace CatVM
variable {vm vm' : CatVM} {name : Text}

theorem linkUsingTypes_run (run : vm.linkUsingTypes name = .ok vm') :
    vm'.entries = replaced (VMModule.withUsingTypes vm.typeNames) (· = name) vm.entries := by
  obtain ⟨mod, here, run⟩ := bind_eq_ok.mp run
  obtain ⟨⟨vm₁, usingTypes⟩, types, same⟩ := bind_eq_ok.mp run
  obtain rfl := Except.ok.inj same
  have loop := foldlM_post (P := fun rest (built : CatVM × List (Option TypePointer)) => built.1.entries = vm.entries ∧
    built.2 ++ rest.map (·.resolve mod.importModules vm.typeNames) =
      mod.usingTypes ++ mod.usingTypeInfos.map (·.resolve mod.importModules vm.typeNames)) ?_ types ⟨rfl, rfl⟩
  · obtain ⟨unchanged, built⟩ := loop
    rw [List.map_nil, List.append_nil] at built
    dsimp only at built
    rw [entries_modify (g := fun mod => { mod with usingTypes }) fun _ _ => rfl, unchanged, built]
    refine replaced_congr fun core found => ?_
    obtain rfl := Option.some.inj (found.symm.trans (entries_eq (deref_run here)))
    rfl
  · rintro info rest ⟨vm₂, before⟩ built₂ ⟨same, linked⟩ step
    obtain ⟨⟨vm₃, type⟩, found, step⟩ := bind_eq_ok.mp step
    obtain rfl := Except.ok.inj step
    obtain ⟨same', rfl⟩ := lookupType_run found
    refine ⟨same'.trans same, ?_⟩
    rw [← linked, typeNames, same]
    simp [typeNames]

theorem linkSignatures_run (run : vm.linkSignatures name = .ok vm') :
    vm'.entries = replaced (fun _ => VMModule.withSignatures) (· = name) vm.entries := by
  obtain ⟨mod, here, run⟩ := bind_eq_ok.mp run
  obtain ⟨functions, linked, same⟩ := bind_eq_ok.mp run
  obtain rfl := Except.ok.inj same
  rw [entries_modify (g := fun mod => { mod with functions }) fun _ _ => rfl,
    mapM_run (fun _ _ => linkSignature_run) linked]
  refine replaced_congr fun core found => ?_
  obtain rfl := Option.some.inj (found.symm.trans (entries_eq (deref_run here)))
  rfl

theorem allocateFields_run (run : vm.allocateFields name = .ok vm') :
    vm'.entries = replaced VMModule.withFields (· = name) vm.entries := by
  obtain ⟨mod, here, run⟩ := bind_eq_ok.mp run
  dsimp only at run
  have found : mod.core.typeDefineMap.get mod.core.name = mod.typeDefineMap.get mod.name := by simp [VMModule.core]
  split at run
  · rename_i unnamed
    obtain rfl := Except.ok.inj run
    rw [entries_modify (g := fun mod => mod) fun mod _ => by simp [VMModule.core]]
    refine replaced_congr fun core found' => ?_
    obtain rfl := Option.some.inj (found'.symm.trans (entries_eq (deref_run here)))
    rw [VMModule.withFields, found, unnamed]
    rfl
  · rename_i index named
    split at run
    · exact absurd run (by simp)
    · rename_i type atIndex
      obtain rfl := Except.ok.inj run
      rw [entries_modify (g := fun mod => { mod with moduleFields := allocatedFields (.defined name index) type.addFields.length })
        fun _ _ => rfl, entries_modify (g := fun mod => mod) fun mod _ => by simp [VMModule.core], replaced_same]
      have atIndex : mod.core.typeDefines[index]? = some type := atIndex
      refine replaced_congr fun core found' => ?_
      obtain rfl := Option.some.inj (found'.symm.trans (entries_eq (deref_run here)))
      rw [VMModule.withFields, found, named, Option.bind_some, atIndex]
      rfl

end CatVM

/-- The type behind a pointer, where `types` has those that are defined. -/
def typeIn (types : Text → Option (List VMType)) : TypePointer → Option VMType
  | .primitive _ => some (.make [] [] none)
  | .defined module index => (types module).bind (·[index]?)

/-- What `link` makes of a field index. -/
def fieldPosition (typeOf : TypePointer → Option VMType) (usingTypes : List (Option TypePointer)) (usingTypeIndex : Nat)
    (fieldName : Text) (fieldIndex : Nat) : Nat :=
  if fieldName = [] then fieldIndex
  else
    ((usingTypes[usingTypeIndex]?.join.bind typeOf).bind fun type => type.allFields.findIdx? (·.name = fieldName)).getD
      fieldIndex

def Order.linked (typeOf : TypePointer → Option VMType) (usingTypes : List (Option TypePointer)) (label : Text → Option Nat) :
    Order → Order
  | .jumpToLabel labelName _ => .jumpToLabel labelName (label labelName)
  | .setObjectFieldOwnership targetRegister fieldObjectRegisterIndex usingTypeIndex fieldName fieldIndex borrowLock =>
    .setObjectFieldOwnership targetRegister fieldObjectRegisterIndex usingTypeIndex fieldName
      (fieldPosition typeOf usingTypes usingTypeIndex fieldName fieldIndex) borrowLock
  | .getObjectFieldOwnership targetRegister resultRegister usingTypeIndex fieldName fieldIndex ownershipOrder =>
    .getObjectFieldOwnership targetRegister resultRegister usingTypeIndex fieldName
      (fieldPosition typeOf usingTypes usingTypeIndex fieldName fieldIndex) ownershipOrder
  | .newClassObject resultRegister usingTypeIndex _ fieldLength =>
    .newClassObject resultRegister usingTypeIndex usingTypes[usingTypeIndex]?.join fieldLength
  | order => order

/-- The label block map after an order has been linked. -/
def Order.accessLabel (labelBlockMap : PointerMap Text Nat) : Order → PointerMap Text Nat
  | .jumpToLabel labelName _ => labelBlockMap.access labelName
  | _ => labelBlockMap

def VMFunction.linked (typeOf : TypePointer → Option VMType) (usingTypes : List (Option TypePointer))
    (function : VMFunction) : VMFunction :=
  { function with
    labelBlocks := function.labelBlocks.map fun block =>
      { block with orders := block.orders.map (·.linked typeOf usingTypes function.labelBlockMap.get) }
    labelBlockMap := (function.labelBlocks.flatMap (·.orders)).foldl Order.accessLabel function.labelBlockMap }

/-- The last pass. -/
def VMModule.withOrders (types : Text → Option (List VMType)) (_name : Text) (mod : VMModule) : VMModule :=
  { mod with functions := mod.functions.map (·.linked (typeIn types) mod.usingTypes) }

@[simp] theorem get_accessLabel (labelBlockMap : PointerMap Text Nat) (order : Order) :
    (order.accessLabel labelBlockMap).get = labelBlockMap.get := by
  funext k
  cases order <;> simp [Order.accessLabel]

namespace CatVM
variable {vm vm' : CatVM} {name : Text}

/-- The types, module by module. -/
def typesDefined (vm : CatVM) : Text → Option (List VMType) := viewOf (·.typeDefines) vm.entries

theorem typeIn_eq (vm : CatVM) : typeIn vm.typesDefined = vm.typeAt := by
  funext pointer
  cases pointer with
  | primitive type => rfl
  | defined module index =>
    cases found : vm.getModule module <;> simp [typeIn, typeAt, typesDefined, viewOf, entries, found, VMModule.core]

theorem linkFieldIndex_run {mod : VMModule} {usingTypeIndex fieldIndex i : Nat} {fieldName : Text}
    (run : vm.linkFieldIndex mod usingTypeIndex fieldName fieldIndex = .ok i) :
    i = fieldPosition vm.typeAt mod.usingTypes usingTypeIndex fieldName fieldIndex := by
  unfold linkFieldIndex at run
  unfold fieldPosition
  split at run
  · rename_i unnamed
    rw [if_pos unnamed, ← Except.ok.inj run]
  · rename_i named
    rw [if_neg named]
    split at run
    · exact absurd run (by simp)
    · rename_i type here
      rw [here, Option.bind_some]
      split at run
      · rename_i missing
        rw [missing, ← Except.ok.inj run, Option.getD_none]
      · rename_i position found
        split at run
        · exact absurd run (by simp)
        · rw [found, ← Except.ok.inj run, Option.getD_some]

theorem linkOrder_run {mod : VMModule} {labelBlockMap : PointerMap Text Nat} {order : Order}
    {linked : PointerMap Text Nat × Order} (run : vm.linkOrder mod labelBlockMap order = .ok linked) :
    linked = (order.accessLabel labelBlockMap, order.linked vm.typeAt mod.usingTypes labelBlockMap.get) := by
  cases order with
  | setObjectFieldOwnership =>
    obtain ⟨position, found, same⟩ := bind_eq_ok.mp run
    rw [← Except.ok.inj same, linkFieldIndex_run found]
    rfl
  | getObjectFieldOwnership =>
    obtain ⟨position, found, same⟩ := bind_eq_ok.mp run
    rw [← Except.ok.inj same, linkFieldIndex_run found]
    rfl
  | newClassObject =>
    rw [linkOrder] at run
    split at run
    · exact absurd run (by simp)
    · rename_i usingType here
      rw [← Except.ok.inj run, Order.linked, here]
      rfl
  | jumpToLabel | returnFunction | getConstInteger | getArgument | addInteger =>
    rw [← Except.ok.inj run]
    rfl

theorem linkBlock_run {mod : VMModule} {built built' : PointerMap Text Nat × List LabelBlock} {block : LabelBlock}
    (run : vm.linkBlock mod built block = .ok built') :
    built' = (block.orders.foldl Order.accessLabel built.1,
      built.2 ++ [{ block with orders := block.orders.map (·.linked vm.typeAt mod.usingTypes built.1.get) }]) ∧
      built'.1.get = built.1.get := by
  obtain ⟨⟨labelBlockMap, orders⟩, linked, same⟩ := bind_eq_ok.mp run
  obtain rfl := Except.ok.inj same
  have loop := foldlM_post (P := fun rest (done : PointerMap Text Nat × List Order) => done.1.get = built.1.get ∧
    rest.foldl Order.accessLabel done.1 = block.orders.foldl Order.accessLabel built.1 ∧
    done.2 ++ rest.map (·.linked vm.typeAt mod.usingTypes built.1.get) =
      block.orders.map (·.linked vm.typeAt mod.usingTypes built.1.get)) ?_ linked ⟨rfl, rfl, rfl⟩
  · obtain ⟨get, map, orders⟩ := loop
    rw [List.map_nil, List.append_nil] at orders
    dsimp only [List.foldl_nil] at map orders
    exact ⟨by rw [map, orders], get⟩
  · rintro order rest ⟨labelBlockMap, before⟩ done ⟨get, map, orders⟩ step
    obtain ⟨⟨labelBlockMap', order'⟩, found, same⟩ := bind_eq_ok.mp step
    obtain rfl := Except.ok.inj same
    obtain ⟨rfl, rfl⟩ := Prod.mk.inj (linkOrder_run found)
    dsimp only at get map orders ⊢
    refine ⟨by rw [get_accessLabel, get], map, ?_⟩
    rw [← orders, get, List.map_cons, List.append_assoc, List.singleton_append]

theorem linkFunction_run {mod : VMModule} {function function' : VMFunction} (run : vm.linkFunction mod function = .ok function') :
    function' = function.linked vm.typeAt mod.usingTypes := by
  obtain ⟨⟨labelBlockMap, labelBlocks⟩, linked, same⟩ := bind_eq_ok.mp run
  obtain rfl := Except.ok.inj same
  let label := function.labelBlockMap.get
  have loop := foldlM_post (P := fun rest (done : PointerMap Text Nat × List LabelBlock) => done.1.get = label ∧
    (rest.flatMap (·.orders)).foldl Order.accessLabel done.1 =
      (function.labelBlocks.flatMap (·.orders)).foldl Order.accessLabel function.labelBlockMap ∧
    done.2 ++ rest.map (fun block => { block with orders := block.orders.map (·.linked vm.typeAt mod.usingTypes label) }) =
      function.labelBlocks.map fun block => { block with orders := block.orders.map (·.linked vm.typeAt mod.usingTypes label) })
    ?_ linked ⟨rfl, rfl, rfl⟩
  · obtain ⟨_, map, blocks⟩ := loop
    rw [List.map_nil, List.append_nil] at blocks
    dsimp only at map blocks
    rw [VMFunction.linked, ← map, blocks]
    rfl
  · rintro block rest done done' ⟨get, map, blocks⟩ step
    obtain ⟨rfl, get'⟩ := linkBlock_run step
    refine ⟨get'.trans get, ?_, ?_⟩
    · rw [← map, List.flatMap_cons, List.foldl_append]
    · rw [← blocks, get, List.map_cons, List.append_assoc, List.singleton_append]

theorem linkOrders_run (run : vm.linkOrders name = .ok vm') :
    vm'.entries = replaced (VMModule.withOrders vm.typesDefined) (· = name) vm.entries := by
  obtain ⟨mod, here, run⟩ := bind_eq_ok.mp run
  obtain ⟨functions, linked, same⟩ := bind_eq_ok.mp run
  obtain rfl := Except.ok.inj same
  rw [entries_modify (g := fun mod => { mod with functions }) fun _ _ => rfl,
    mapM_run (fun _ _ => linkFunction_run) linked, ← typeIn_eq]
  refine replaced_congr fun core found => ?_
  obtain rfl := Option.some.inj (found.symm.trans (entries_eq (deref_run here)))
  rfl

end CatVM
end CatLa
