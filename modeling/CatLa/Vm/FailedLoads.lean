import CatLa.Vm.ImportClosure

namespace CatLa
open Outcome

/-- What no pass of the loader changes in a module. -/
def VMModule.declared (mod : VMModule) : Text × (Text → Option Nat) × List Text :=
  (mod.name, mod.typeDefineMap.get, mod.typeDefines.map (·.typeName))

namespace CatVM

/-- Every module is still there, and declares what it did. -/
def Extends (vm vm' : CatVM) : Prop :=
  ∀ k mod, vm.getModule k = some mod → ∃ mod', vm'.getModule k = some mod' ∧ mod'.declared = mod.declared

theorem Extends.refl (vm : CatVM) : vm.Extends vm := fun _ mod here => ⟨mod, here, rfl⟩

theorem Extends.trans {a b c : CatVM} (first : a.Extends b) (second : b.Extends c) : a.Extends c := fun k mod here => by
  obtain ⟨mod', here', same⟩ := first k mod here
  obtain ⟨mod'', here'', same'⟩ := second k mod' here'
  exact ⟨mod'', here'', same'.trans same⟩

theorem extends_modify (vm : CatVM) (name : Text) {f : VMModule → VMModule}
    (steady : ∀ mod, vm.getModule name = some mod → (f mod).declared = mod.declared) : vm.Extends (vm.modify name f) :=
  fun k mod here => by
    refine ⟨if k = name then f mod else mod, ?_, ?_⟩
    · rw [getModule_modify, here, Option.map_some]
      split <;> rfl
    · split
      · rename_i same
        exact steady mod (same ▸ here)
      · rfl

theorem extends_register {vm : CatVM} {name : Text} (module : VMModule) (absent : vm.getModule name = none) :
    vm.Extends (vm.register name module) := fun k mod here => by
  have other : k ≠ name := fun same => by simp [same, absent] at here
  exact ⟨mod, by rw [getModule_register, if_neg other, here], rfl⟩

end CatVM

/-- An early exit after which the modules of `vm` are still there. -/
def ExitExtends (vm : CatVM) : LoadExit → Prop
  | .failed _ => True
  | .returnedNull vm' => vm.Extends vm'

namespace CatVM
variable {vm₀ vm : CatVM}

theorem Extends.ends (kept : vm₀.Extends vm) {x : Except LoadExit CatVM} (run : Ends (ExitExtends vm) vm.Extends x) :
    Ends (ExitExtends vm₀) vm₀.Extends x := by
  refine run.mono (fun e known => ?_) fun _ => kept.trans
  cases e with
  | failed failure => trivial
  | returnedNull vm' => exact kept.trans known

theorem ends_deref (vm : CatVM) (name : Text) :
    Ends (ExitExtends vm₀) (fun mod => vm.getModule name = some mod) (vm.deref name) := by
  unfold deref
  split
  · assumption
  · trivial

theorem ends_linkImports (vm : CatVM) (name : Text) : Ends (ExitExtends vm) vm.Extends (vm.linkImports name) := by
  refine (ends_deref vm name).bind fun mod _ => Ends.foldlM (Q := fun _ => vm.Extends) (fun it _ vm' kept => ?_) (.refl vm)
  unfold linkImport
  split
  · exact kept
  · exact kept.trans (extends_modify _ _ fun _ _ => rfl)

theorem extends_access (vm : CatVM) (name typeName : Text) :
    vm.Extends (vm.modify name fun mod => { mod with typeDefineMap := mod.typeDefineMap.access typeName }) :=
  extends_modify _ _ fun mod _ => by
    have same : (mod.typeDefineMap.access typeName).get = mod.typeDefineMap.get := funext fun t => PointerMap.get_access ..
    rw [VMModule.declared, VMModule.declared, same]

theorem ends_lookupType (kept : vm₀.Extends vm) (mod : VMModule) (info : TypeInfo) :
    Ends (ExitExtends vm₀) (fun result => vm₀.Extends result.1) (vm.lookupType mod info) := by
  unfold lookupType
  split
  · trivial
  · exact (ends_deref vm _).bind fun imported _ => kept.trans (extends_access vm _ _)

theorem ends_linkType (mod : VMModule) {built : CatVM × List VMType} {type : VMType} {before : List Text}
    (kept : vm₀.Extends built.1) (names : built.2.map (·.typeName) = before) :
    Ends (ExitExtends vm₀) (fun result => vm₀.Extends result.1 ∧ result.2.map (·.typeName) = before ++ [type.typeName])
      (linkType mod built type) := by
  refine Ends.bind (Q := fun result : CatVM × Option TypePointer => vm₀.Extends result.1) ?_ fun result kept => ?_
  · unfold lookupParent
    split
    · exact kept
    · exact ends_lookupType kept mod _
  · refine Ends.bind (Q := fun result : CatVM × List Field => vm₀.Extends result.1) ?_ fun result kept => ⟨kept, by simp [names]⟩
    refine Ends.foldlM (Q := fun _ (built : CatVM × List Field) => vm₀.Extends built.1) (fun info _ built kept => ?_) kept
    unfold linkField
    split
    · exact kept
    · exact (ends_lookupType kept mod _).bind fun result kept => kept

theorem ends_linkTypes (vm : CatVM) (name : Text) : Ends (ExitExtends vm) vm.Extends (vm.linkTypes name) := by
  refine (ends_deref vm name).bind fun mod here => ?_
  refine Ends.bind (Q := fun result : CatVM × List VMType => vm.Extends result.1 ∧ result.2.map (·.typeName) = mod.typeDefines.map (·.typeName)) ?_
    fun result kept => ?_
  · refine Ends.mono (Ends.foldlM (E := ExitExtends vm) (Q := fun rest (built : CatVM × List VMType) => vm.Extends built.1 ∧
      built.2.map (·.typeName) ++ rest.map (·.typeName) = mod.typeDefines.map (·.typeName)) ?_ ⟨.refl vm, rfl⟩)
      (fun _ => id) fun result kept => ⟨kept.1, by simpa using kept.2⟩
    exact fun type rest built kept => (ends_linkType mod kept.1 rfl).mono (fun _ => id) fun result kept' =>
      ⟨kept'.1, by rw [kept'.2, ← kept.2]; simp⟩
  · refine kept.1.trans (extends_modify _ _ fun mod' here' => ?_)
    obtain ⟨mod'', found, same⟩ := kept.1 name mod here
    obtain rfl := Option.some.inj (here'.symm.trans found)
    have names : mod'.typeDefines.map (·.typeName) = mod.typeDefines.map (·.typeName) := congrArg (·.2.2) same
    simp only [VMModule.declared, kept.2, names]

theorem ends_parentChain (vm : CatVM) (foundTypes : List TypePointer) (current : Option TypePointer) :
    Ends (ExitExtends vm) (fun _ => True) (vm.parentChain foundTypes current) := by
  induction foundTypes, current using parentChain.induct vm with
  | case1 foundTypes => rw [parentChain]; trivial
  | case2 foundTypes pointer twice => rw [parentChain, if_pos twice]; exact .refl vm
  | case3 foundTypes pointer fresh nowhere =>
    rw [parentChain_some fresh, nowhere]
    trivial
  | case4 foundTypes pointer fresh type here ih =>
    rw [parentChain_some fresh, here]
    exact ih.bind fun _ _ => trivial

theorem extends_modifyType (vm : CatVM) (name : Text) (index : Nat) {f : VMType → VMType}
    (steady : ∀ type, (f type).typeName = type.typeName) : vm.Extends (vm.modifyType name index f) := by
  refine extends_modify vm name fun mod _ => ?_
  have names : (mod.typeDefines.modify index f).map (·.typeName) = mod.typeDefines.map (·.typeName) := by
    refine List.ext_getElem (by simp) fun i _ _ => ?_
    rw [List.getElem_map, List.getElem_map, List.getElem_modify]
    split
    · exact steady _
    · rfl
  simp only [VMModule.declared, names]

theorem ends_layType (vm : CatVM) (name : Text) (index : Nat) : Ends (ExitExtends vm) vm.Extends (layType name vm index) := by
  refine (ends_deref vm name).bind fun mod _ => ?_
  split
  · trivial
  · refine (ends_parentChain vm _ _).bind fun parents _ => ?_
    dsimp only
    have laid (fields : List Field) := extends_modifyType vm name index (f := fun type => { type with allFields := fields })
      fun _ => rfl
    split
    · exact laid _
    · refine Ends.bind (Q := fun _ => True) ?_ fun _ _ => (laid _).trans (extends_modifyType _ _ _ fun _ => rfl)
      refine Ends.foldlM (Q := fun _ _ => True) (fun field _ bytes _ => ?_) trivial
      unfold markField
      split <;> trivial

theorem ends_layTypes (vm : CatVM) (name : Text) : Ends (ExitExtends vm) vm.Extends (vm.layTypes name) :=
  (ends_deref vm name).bind fun _ _ =>
    Ends.foldlM (Q := fun _ => vm.Extends) (fun index _ vm' kept => kept.ends (ends_layType vm' name index)) (.refl vm)

theorem ends_linkUsingTypes (vm : CatVM) (name : Text) : Ends (ExitExtends vm) vm.Extends (vm.linkUsingTypes name) := by
  refine (ends_deref vm name).bind fun mod _ => ?_
  refine Ends.bind (Q := fun result : CatVM × List (Option TypePointer) => vm.Extends result.1) ?_ fun result kept =>
    kept.trans (extends_modify _ _ fun _ _ => rfl)
  refine Ends.foldlM (Q := fun _ (built : CatVM × List (Option TypePointer)) => vm.Extends built.1) (fun info _ built kept => ?_)
    (.refl vm)
  exact (ends_lookupType kept mod info).bind fun result kept => kept

theorem ends_linkArgument (usingTypes : List (Option TypePointer)) (info : ArgumentInfo) :
    Ends (ExitExtends vm) (fun _ => True) (linkArgument usingTypes info) := by
  unfold linkArgument
  split
  · trivial
  · split <;> trivial

theorem ends_linkSignatures (vm : CatVM) (name : Text) : Ends (ExitExtends vm) vm.Extends (vm.linkSignatures name) := by
  refine (ends_deref vm name).bind fun mod _ => Ends.bind (Q := fun _ => True) ?_ fun functions _ =>
    extends_modify _ _ fun _ _ => rfl
  exact Ends.mapM fun function _ => (ends_linkArgument _ _).bind fun _ _ =>
    (Ends.mapM fun info _ => ends_linkArgument _ info).bind fun _ _ => trivial

theorem ends_allocateFields (vm : CatVM) (name : Text) : Ends (ExitExtends vm) vm.Extends (vm.allocateFields name) := by
  refine (ends_deref vm name).bind fun mod _ => ?_
  have accessed : vm.Extends (vm.modify name fun mod => { mod with typeDefineMap := mod.typeDefineMap.access mod.name }) :=
    extends_modify _ _ fun mod _ => by
      have same : (mod.typeDefineMap.access mod.name).get = mod.typeDefineMap.get := funext fun t => PointerMap.get_access ..
      simp only [VMModule.declared, same]
  dsimp only
  split
  · exact accessed
  · split
    · trivial
    · exact accessed.trans (extends_modify _ _ fun _ _ => rfl)

theorem ends_linkFieldIndex (vm : CatVM) (mod : VMModule) (usingTypeIndex : Nat) (fieldName : Text) (fieldIndex : Nat) :
    Ends (ExitExtends vm) (fun _ => True) (vm.linkFieldIndex mod usingTypeIndex fieldName fieldIndex) := by
  unfold linkFieldIndex
  split
  · trivial
  · split
    · trivial
    · split
      · trivial
      · split <;> trivial

theorem ends_linkOrder (vm : CatVM) (mod : VMModule) (labelBlockMap : PointerMap Text Nat) (order : Order) :
    Ends (ExitExtends vm) (fun _ => True) (vm.linkOrder mod labelBlockMap order) := by
  cases order with
  | setObjectFieldOwnership => exact (ends_linkFieldIndex vm mod _ _ _).bind fun _ _ => trivial
  | getObjectFieldOwnership => exact (ends_linkFieldIndex vm mod _ _ _).bind fun _ _ => trivial
  | newClassObject => rw [linkOrder]; split <;> trivial
  | jumpToLabel | returnFunction | getConstInteger | getArgument | addInteger => trivial

theorem ends_linkOrders (vm : CatVM) (name : Text) : Ends (ExitExtends vm) vm.Extends (vm.linkOrders name) := by
  refine (ends_deref vm name).bind fun mod _ => Ends.bind (Q := fun _ => True) ?_ fun functions _ =>
    extends_modify _ _ fun _ _ => rfl
  refine Ends.mapM fun function _ => Ends.bind (Q := fun _ => True) ?_ fun _ _ => trivial
  refine Ends.foldlM (Q := fun _ _ => True) (fun block _ _ _ => ?_) trivial
  refine Ends.bind (Q := fun _ => True) ?_ fun _ _ => trivial
  refine Ends.foldlM (Q := fun _ _ => True) (fun order _ built _ => ?_) trivial
  exact (ends_linkOrder vm mod built.1 order).bind fun _ _ => trivial

/-- Whichever way they end, the loops over the modules leave the table as
large as it was, and the declarations alone. -/
theorem ends_linkModules (vm : CatVM) (loaded : List Text) : Ends (ExitExtends vm) vm.Extends (vm.linkModules loaded) := by
  have pass {body : CatVM → Text → Except LoadExit CatVM} (each : ∀ vm name, Ends (ExitExtends vm) vm.Extends (body vm name))
      {vm' : CatVM} (kept : vm.Extends vm') : Ends (ExitExtends vm) vm.Extends (loaded.foldlM body vm') :=
    Ends.foldlM (Q := fun _ => vm.Extends) (fun name _ vm' kept => kept.ends (each vm' name)) kept
  refine (pass ends_linkImports (.refl vm)).bind fun vm₁ kept => ?_
  refine (pass ends_linkTypes kept).bind fun vm₂ kept => ?_
  refine (pass ends_layTypes kept).bind fun vm₃ kept => ?_
  refine (pass ends_linkUsingTypes kept).bind fun vm₄ kept => ?_
  refine (pass ends_linkSignatures kept).bind fun vm₅ kept => ?_
  refine (pass ends_allocateFields kept).bind fun vm₆ kept => ?_
  exact pass ends_linkOrders kept

end CatVM

section Names
variable {library : StandardLibrary} {order : LoadOrder}

theorem ends_loadNames (pass : Nat) (s : LoadState) :
    Ends (ExitExtends s.vm) (fun s' => s.vm.Extends s'.vm) (loadNames library order pass s) := by
  induction pass, s using loadNames.induct library order with
  | case1 pass s none => rw [loadNames, dif_pos none]; exact .refl _
  | case2 pass s more _ _ found ih => rw [loadNames_pass more rfl, if_pos found]; exact ih
  | case3 pass s more _ _ absent empty => rw [loadNames_pass more rfl, if_neg absent, if_pos empty]; exact .refl _
  | case4 pass s more _ _ absent text failure failed =>
    rw [loadNames_pass more rfl, if_neg absent, if_neg text, failed]
    trivial
  | case5 pass s more _ _ absent text failed =>
    rw [loadNames_pass more rfl, if_neg absent, if_neg text, failed]
    trivial
  | case6 pass s more currentName _ absent text module parsed ih =>
    rw [loadNames_pass more rfl, if_neg absent, if_neg text, parsed]
    have entered : s.vm.Extends (s.enter currentName module).vm := CatVM.extends_register module (by simpa using absent)
    refine ih.mono (fun e known => ?_) fun _ => entered.trans
    cases e with
    | failed failure => trivial
    | returnedNull vm' => exact entered.trans known

/-- The first pass of the loop is at the name itself. -/
theorem first_name (order : LoadOrder) (pass : Nat) (name : Text) : order.first pass [name] = name :=
  List.mem_singleton.mp (order.first_mem pass [name] (by simp))

theorem loadNames_done {s : LoadState} (pass : Nat) (done : s.preLoadModules = []) :
    loadNames library order pass s = .ok s := by
  rw [loadNames, dif_pos done]

/-- A module whose text is read stays in the table, however the call ends. -/
theorem loadModule_entered {vm vm' : CatVM} {name : Text} {target : Option Text} (absent : vm.getModule name = none)
    (text : vm.getPreLoadedModule name ≠ []) (run : vm.loadModule library order name = .ok (vm', target)) :
    (vm'.getModule name).isSome := by
  have names := @loadNames_pass library order 0 ⟨vm, [name], [], none, true⟩ (by simp) name (first_name order 0 name)
  rw [if_neg (by simp [absent]), if_neg text] at names
  unfold CatVM.loadModule at run
  rw [names] at run
  cases parsed : parse library name (vm.getPreLoadedModule name) with
  | error failure => simp [parsed] at run
  | ok result =>
    cases result with
    | none => simp [parsed] at run
    | some module =>
      simp only [parsed] at run
      have entered : (LoadState.enter ⟨vm, [name], [], none, true⟩ name module).vm.getModule name = some module := by
        rw [LoadState.enter, CatVM.getModule_register, if_pos rfl]
      have loop := @ends_loadNames library order 1 (LoadState.enter ⟨vm, [name], [], none, true⟩ name module)
      have remains {later : CatVM} (kept : CatVM.Extends (LoadState.enter ⟨vm, [name], [], none, true⟩ name module).vm later) :
          (later.getModule name).isSome := by
        obtain ⟨mod', here, _⟩ := kept name module entered
        rw [here]
        rfl
      split at run
      · exact absurd run (by simp)
      · rename_i vm'' exit
        rw [exit] at loop
        obtain ⟨rfl, _⟩ := Prod.mk.inj (Except.ok.inj run)
        exact remains loop
      · rename_i s exit
        rw [exit] at loop
        have links := (CatVM.ends_linkModules s.vm (order.traverse s.loaded))
        split at run
        · exact absurd run (by simp)
        · rename_i vm'' exit
          rw [exit] at links
          obtain ⟨rfl, _⟩ := Prod.mk.inj (Except.ok.inj run)
          exact remains (loop.trans links)
        · rename_i vm'' exit
          rw [exit] at links
          obtain ⟨rfl, _⟩ := Prod.mk.inj (Except.ok.inj run)
          exact remains (loop.trans links)

theorem loadModule_loaded {vm : CatVM} {name : Text} (loaded : (vm.getModule name).isSome) :
    vm.loadModule library order name = .ok (vm, none) := by
  have names := @loadNames_pass library order 0 ⟨vm, [name], [], none, true⟩ (by simp) name (first_name order 0 name)
  rw [if_pos loaded, loadNames_done 1 (s := ⟨vm, [name].erase name, [], none, true⟩) (List.erase_cons_head ..)] at names
  have nothing : order.traverse [] = [] := List.perm_nil.mp (order.traverse_perm [])
  unfold CatVM.loadModule
  rw [names]
  simp only [nothing]
  rfl

theorem loadModule_empty {vm : CatVM} {name : Text} (absent : vm.getModule name = none)
    (text : vm.getPreLoadedModule name = []) : vm.loadModule library order name = .ok (vm, none) := by
  have names := @loadNames_pass library order 0 ⟨vm, [name], [], none, true⟩ (by simp) name (first_name order 0 name)
  rw [if_neg (by simp [absent]), if_pos text] at names
  unfold CatVM.loadModule
  rw [names]

end Names

/-- A load returns null and changes nothing exactly when it does not get to a
text, whatever it would have met. -/
theorem loadModule_fails (library : StandardLibrary) (order : LoadOrder) (vm : CatVM) (name : Text) :
    vm.loadModule library order name = .ok (vm, none) ↔
      (vm.getModule name).isSome ∨ vm.getPreLoadedModule name = [] := by
  constructor
  · intro run
    by_contra reached
    obtain ⟨absent, text⟩ := not_or.mp reached
    exact absent (loadModule_entered (by simpa using absent) text run)
  · rintro (loaded | text)
    · exact loadModule_loaded loaded
    · cases here : vm.getModule name with
      | none => exact loadModule_empty here text
      | some mod => exact loadModule_loaded (by simp [here])

/-- A module `a` that imports `b`, which nobody has pre-loaded. -/
def importingText : Text :=
  ['$', 'c', 'o', 'n', 's', 't', '\n', '0', ':', '1', ':', 's', '#', 'b', '\n', '$', 'e', 'n', 'd', '\n',
    '$', 'i', 'm', 'p', 'o', 'r', 't', '\n', '0', ':', 'c', 'o', 'n', 's', 't', '#', '0', '\n', '$', 'e', 'n', 'd', '\n']

def importingVM : CatVM := ⟨[(['a'], importingText)], []⟩

def firstListed : LoadOrder where
  first _ names := names.headD []
  first_mem _ names more := by
    cases names with
    | nil => exact absurd rfl more
    | cons name names => exact List.mem_cons_self
  traverse := id
  traverse_perm _ := .refl _

/-- The imports that a text asks for. -/
def parsedImports (library : StandardLibrary) (name code : Text) : List Text :=
  match parse library name code with
  | .ok (some mod) => mod.importModuleNames
  | _ => []

theorem importingText_parsed :
    ∃ mod, parse plainLibrary ['a'] importingText = .ok (some mod) ∧ mod.importModuleNames = [['b']] := by
  have read : parsedImports plainLibrary ['a'] importingText = [['b']] := by decide +kernel
  unfold parsedImports at read
  split at read
  · rename_i mod here
    exact ⟨mod, here, read⟩
  · exact absurd read (by simp)

theorem importingVM_fails : LoadFails plainLibrary importingVM ['a'] := by
  obtain ⟨mod, parsed, names⟩ := importingText_parsed
  have source : importingVM.source plainLibrary ['a'] = some mod := CatVM.source_parsed rfl rfl parsed
  exact .notPreLoaded (k := ['b']) (.single ⟨mod, source, names ▸ List.mem_singleton_self _⟩) rfl rfl

/-- A load of `a` returns null, and a module `a` is loaded then. -/
theorem loadModule_fails_entered : LoadFails plainLibrary importingVM ['a'] ∧
    ∃ vm, importingVM.loadModule plainLibrary firstListed ['a'] = .ok (vm, none) ∧ (vm.getModule ['a']).isSome ∧
      importingVM.getModule ['a'] = none := by
  refine ⟨importingVM_fails, ?_⟩
  obtain ⟨mod, parsed, names⟩ := importingText_parsed
  let start : LoadState := ⟨importingVM, [['a']], [], none, true⟩
  have first : loadNames plainLibrary firstListed 0 start = loadNames plainLibrary firstListed 1 (start.enter ['a'] mod) := by
    have pass := @loadNames_pass plainLibrary firstListed 0 start (by simp [start]) ['a']
      (show firstListed.first 0 start.preLoadModules = ['a'] from rfl)
    rw [if_neg (by decide), if_neg (by decide)] at pass
    exact pass.trans (by rw [show start.vm.getPreLoadedModule ['a'] = importingText from rfl, parsed])
  have left : (start.enter ['a'] mod).preLoadModules = [['b']] := by
    show mod.importModuleNames.foldl _ _ = _
    rw [names]
    rfl
  have second : loadNames plainLibrary firstListed 1 (start.enter ['a'] mod) =
      .error (.returnedNull (importingVM.register ['a'] mod)) := by
    have pass := @loadNames_pass plainLibrary firstListed 1 (start.enter ['a'] mod)
      (by simp [left]) ['b'] (by rw [left]; rfl)
    rwa [if_neg, if_pos] at pass
    · rfl
    · exact Bool.false_ne_true
  refine ⟨importingVM.register ['a'] mod, ?_, rfl, rfl⟩
  rw [CatVM.loadModule, first, second]

end CatLa
