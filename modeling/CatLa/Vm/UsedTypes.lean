import CatLa.Vm.LoadedModules

namespace CatLa

/-- The text of a string constant. -/
def stringConstant (constValues : List ConstValue) (index : Nat) : Option Text :=
  (constValues[index]?).bind fun constValue =>
    match constValue.payload with
    | .string bytes => some bytes
    | _ => none

/-- The name that an entry of `$type` means: its last number is the number of a
constant with that name. -/
def VMModule.meantName (mod : VMModule) (info : TypeInfo) : Option Text :=
  match stoull info.typeName with
  | .ok index => stringConstant mod.constValues index
  | .error _ => none

/-- The type that an entry of `$type` means. -/
def CatVM.meantType (vm : CatVM) (mod : VMModule) (info : TypeInfo) : Option TypePointer :=
  (mod.meantName info).bind fun typeName => TypeInfo.resolve mod.importModuleNames vm.typeNames { info with typeName }

/-- A module has the types that its entries mean, and its functions have those
that their signatures ask for. -/
structure UsesMeantTypes (vm : CatVM) (mod : VMModule) : Prop where
  length : mod.usingTypes.length = mod.usingTypeInfos.length
  types : ∀ (i : Nat) info, mod.usingTypeInfos[i]? = some info → mod.usingTypes[i]? = some (vm.meantType mod info)
  returns : ∀ function ∈ mod.functions, ∀ i, function.returnTypeInfo = ⟨none, i⟩ →
    ∃ info type, mod.usingTypeInfos[i]? = some info ∧ vm.meantType mod info = some type ∧ function.returnType = some type
  arguments : ∀ function ∈ mod.functions, function.argumentTypes.length = function.argumentTypeInfos.length ∧
    ∀ (j i : Nat), function.argumentTypeInfos[j]? = some ⟨none, i⟩ →
      ∃ info type, mod.usingTypeInfos[i]? = some info ∧ vm.meantType mod info = some type ∧
        function.argumentTypes[j]? = some (some type)

section Linked
variable {library : StandardLibrary} {vm : CatVM} {name : Text} {mod : VMModule}

/-- Whether a module uses the types that are meant depends on what is written
in the constants alone. -/
theorem LinkedModule.usesMeantTypes_iff (all : vm.Linked library) (linked : LinkedModule library vm name mod)
    (meant : ∀ info ∈ mod.usingTypeInfos, (vm.meantType mod info).isSome) :
    UsesMeantTypes vm mod ↔ ∀ info ∈ mod.usingTypeInfos, mod.meantName info = some info.typeName := by
  constructor
  · intro uses info member
    obtain ⟨i, inside, here⟩ := List.getElem_of_mem member
    have atIndex : mod.usingTypeInfos[i]? = some info := by rw [List.getElem?_eq_getElem inside, here]
    obtain ⟨type, means⟩ := Option.isSome_iff_exists.mp (meant info member)
    have resolved : info.resolve mod.importModuleNames vm.typeNames = some type := by
      have listed := uses.types i info atIndex
      rw [linked.usingTypes, List.getElem?_map, atIndex, Option.map_some, means] at listed
      exact Option.some.inj listed
    obtain ⟨typeName, named, found⟩ := Option.bind_eq_some_iff.mp means
    obtain ⟨target, index, rfl, _, type, there, own⟩ := all.resolve_named resolved
    obtain ⟨target', index', same, _, type', there', own'⟩ := all.resolve_named found
    obtain ⟨rfl, rfl⟩ := TypePointer.defined.inj same
    rw [there, Option.some.injEq] at there'
    rw [named, ← own, there', own']
  · intro named
    have means (info : TypeInfo) (member : info ∈ mod.usingTypeInfos) :
        vm.meantType mod info = info.resolve mod.importModuleNames vm.typeNames := by
      rw [CatVM.meantType, named info member, Option.bind_some]
    have types (i : Nat) (info : TypeInfo) (atIndex : mod.usingTypeInfos[i]? = some info) :
        mod.usingTypes[i]? = some (vm.meantType mod info) := by
      rw [linked.usingTypes, List.getElem?_map, atIndex, Option.map_some, means info (List.mem_of_getElem? atIndex)]
    have length : mod.usingTypes.length = mod.usingTypeInfos.length := by rw [linked.usingTypes, List.length_map]
    -- what a signature asks for is there
    have asked {function : VMFunction} (member : function ∈ mod.functions) {i : Nat}
        (listed : ⟨none, i⟩ ∈ function.returnTypeInfo :: function.argumentTypeInfos) :
        ∃ info type, mod.usingTypeInfos[i]? = some info ∧ vm.meantType mod info = some type ∧
          argumentType mod.usingTypes ⟨none, i⟩ = some type := by
      have inside : i < mod.usingTypes.length := linked.signatures _ (List.mem_map_of_mem member) _ listed rfl
      have atIndex := List.getElem?_eq_getElem (length ▸ inside)
      obtain ⟨type, means⟩ := Option.isSome_iff_exists.mp (meant _ (List.getElem_mem (length ▸ inside)))
      refine ⟨_, type, atIndex, means, ?_⟩
      rw [argumentType, types i _ atIndex, means]
      rfl
    refine ⟨length, types, fun function member i result => ?_, fun function member => ?_⟩
    · obtain ⟨info, type, atIndex, means, asks⟩ := asked (i := i) member (result ▸ List.mem_cons_self)
      obtain ⟨read, _, rfl⟩ := linked.function member
      have result : read.returnTypeInfo = ⟨none, i⟩ := result
      refine ⟨info, type, atIndex, means, ?_⟩
      rw [← asks, ← result]
      rfl
    · obtain ⟨read, unlinked, same⟩ := linked.function member
      have arguments : function.argumentTypes = function.argumentTypeInfos.map (argumentType mod.usingTypes) := by
        have blank : read.argumentTypes = [] := by rw [unlinked.made]; rfl
        rw [same]
        simp only [VMFunction.linked, VMFunction.withSignature, blank, List.nil_append]
      refine ⟨by rw [arguments, List.length_map], fun j i argument => ?_⟩
      obtain ⟨info, type, atIndex, means, asks⟩ :=
        asked (i := i) member (List.mem_cons_of_mem _ (List.mem_of_getElem? argument))
      exact ⟨info, type, atIndex, means, by rw [arguments, List.getElem?_map, argument, Option.map_some, asks]⟩

/-- After a load the modules use the types that are meant exactly if the name
of each is the number of its constant as it is written. -/
theorem loadModule_usedTypes {order : LoadOrder} {vm vm' : CatVM} {m : Text} (reached : Reached library vm)
    (run : vm.loadModule library order name = .ok (vm', some m)) {k : Text} {mod : VMModule} (here : vm'.getModule k = some mod)
    (meant : ∀ info ∈ mod.usingTypeInfos, (vm'.meantType mod info).isSome) :
    UsesMeantTypes vm' mod ↔ ∀ info ∈ mod.usingTypeInfos, mod.meantName info = some info.typeName :=
  have linked := (reached.load run).linked
  (linked k mod here).usesMeantTypes_iff linked meant

end Linked

/-- A module `a` that defines a type `name` and uses it, with a function on it. -/
def usingText (name : Text) : Text :=
  [['$', 'c', 'o', 'n', 's', 't'], '0' :: ':' :: '1' :: ':' :: 's' :: '#' :: name, END,
    ['$', 'i', 'm', 'p', 'o', 'r', 't'], ['0', ':', 't', 'h', 'i', 's'], END,
    ['$', 't', 'y', 'p', 'e', 'd', 'e', 'f'], ['0', ':', '(', '0', ':', 'i', '6', '4', ')'], END,
    ['$', 't', 'y', 'p', 'e'], ['0', ':', '0', ':', '0'], END, "$function".toList,
    "0:0:var:0:reg:1(0:type#0)->type#0\x7b".toList, "label:e".toList, "ret,reg#0".toList, labelEnd, ['\x7d'], END].flatMap
    (· ++ ['\n'])

def usingVM (name : Text) : CatVM := ⟨[(['a'], usingText name)], []⟩

def usingParts (name : Text) : ModuleParts where
  constValues := [⟨1, .string name⟩]
  importModuleNames := [['a']]
  typeDefines := [.make name [⟨['0'], some .i64, ⟨0, []⟩⟩] none]
  usingTypeInfos := [⟨0, ['0']⟩]
  functions := [⟨name, 0, 1, [⟨['e'], [.returnFunction 0]⟩], ⟨none, 0⟩, [⟨none, 0⟩]⟩]

/-- The entries of a module, what they mean, what has been made of them, and the
types of its functions. -/
structure UsedTypes where
  infos : List TypeInfo
  names : List (Option Text)
  meant : List (Option TypePointer)
  types : List (Option TypePointer)
  signatures : List (Option TypePointer × List (Option TypePointer))
  deriving DecidableEq

def usedTypes (vm : CatVM) : Option UsedTypes :=
  (vm.getModule ['a']).map fun mod =>
    ⟨mod.usingTypeInfos, mod.usingTypeInfos.map mod.meantName, mod.usingTypeInfos.map (vm.meantType mod), mod.usingTypes,
      mod.functions.map fun function => (function.returnType, function.argumentTypes)⟩

theorem loadModule_usedTypes_digit : ∃ vm mod, (usingVM ['0']).loadModule plainLibrary firstListed ['a'] = .ok (vm, some ['a']) ∧
    vm.getModule ['a'] = some mod ∧
      (mod.functions.map fun function => (function.returnType, function.argumentTypes)) =
        [(some (.defined ['a'] 0), [some (.defined ['a'] 0)])] ∧ UsesMeantTypes vm mod := by
  obtain ⟨vm, run, types⟩ := @loadModule_parts plainLibrary firstListed (usingVM ['0']) ['a'] (usingParts ['0']) rfl (by decide)
    (by decide +kernel) (by decide) _ usedTypes
    (some ⟨[⟨0, ['0']⟩], [some ['0']], [some (.defined ['a'] 0)], [some (.defined ['a'] 0)],
      [(some (.defined ['a'] 0), [some (.defined ['a'] 0)])]⟩) (by decide +kernel)
  obtain ⟨mod, here, same⟩ := Option.map_eq_some_iff.mp types
  obtain ⟨infos, names, means, _, signatures⟩ := UsedTypes.mk.inj same
  rw [infos] at names means
  have name : mod.meantName ⟨0, ['0']⟩ = some ['0'] := (List.cons.inj names).1
  have means : vm.meantType mod ⟨0, ['0']⟩ = some (.defined ['a'] 0) := (List.cons.inj means).1
  exact ⟨vm, mod, run, here, signatures,
    (loadModule_usedTypes .start run here (by simp [infos, means])).mpr (by simp [infos, name])⟩

/-- The number of a constant is taken for its text. -/
theorem loadModule_usedTypes_missed : ∃ vm mod,
    (usingVM ['T']).loadModule plainLibrary firstListed ['a'] = .ok (vm, some ['a']) ∧ vm.getModule ['a'] = some mod ∧
      (∀ info ∈ mod.usingTypeInfos, (vm.meantType mod info).isSome) ∧ mod.usingTypes = [none] ∧ ¬UsesMeantTypes vm mod := by
  obtain ⟨vm, run, types⟩ := @loadModule_parts plainLibrary firstListed (usingVM ['T']) ['a'] (usingParts ['T']) rfl (by decide)
    (by decide +kernel) (by decide) _ usedTypes (some ⟨[⟨0, ['0']⟩], [some ['T']], [some (.defined ['a'] 0)], [none], [(none, [none])]⟩)
    (by decide +kernel)
  obtain ⟨mod, here, same⟩ := Option.map_eq_some_iff.mp types
  obtain ⟨infos, _, means, known, _⟩ := UsedTypes.mk.inj same
  rw [infos] at means
  have means : vm.meantType mod ⟨0, ['0']⟩ = some (.defined ['a'] 0) := (List.cons.inj means).1
  refine ⟨vm, mod, run, here, by simp [infos, means], known, fun uses => ?_⟩
  have first := uses.types 0 ⟨0, ['0']⟩ (by rw [infos]; rfl)
  rw [known, means] at first
  exact absurd first (by simp)

end CatLa
