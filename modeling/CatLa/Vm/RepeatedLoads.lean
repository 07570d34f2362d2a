import CatLa.Parser.ParsedModule
import CatLa.Vm.FailedLoads

namespace CatLa
open Outcome Relation

section Later
variable {library : StandardLibrary} {order : LoadOrder}

/-- However a call ends that returns, the modules are still there after it. -/
theorem loadModule_extends {vm vm' : CatVM} {name : Text} {target : Option Text}
    (run : vm.loadModule library order name = .ok (vm', target)) : vm.Extends vm' := by
  have names := @ends_loadNames library order 0 ⟨vm, [name], [], none, true⟩
  unfold CatVM.loadModule at run
  split at run
  · exact absurd run (by simp)
  · rename_i vm'' exit
    rw [exit] at names
    obtain ⟨rfl, _⟩ := Prod.mk.inj (Except.ok.inj run)
    exact names
  · rename_i s exit
    rw [exit] at names
    have links := CatVM.ends_linkModules s.vm (order.traverse s.loaded)
    split at run
    · exact absurd run (by simp)
    · rename_i vm'' exit
      rw [exit] at links
      obtain ⟨rfl, _⟩ := Prod.mk.inj (Except.ok.inj run)
      exact names.trans links
    · rename_i vm'' exit
      rw [exit] at links
      obtain ⟨rfl, _⟩ := Prod.mk.inj (Except.ok.inj run)
      exact names.trans links

/-- A module that has been returned is loaded. -/
theorem loadModule_some {vm vm' : CatVM} {name m : Text} (run : vm.loadModule library order name = .ok (vm', some m)) :
    (vm'.getModule name).isSome := by
  cases here : vm.getModule name with
  | some mod =>
    rw [loadModule_loaded (by simp [here])] at run
    exact absurd run (by simp)
  | none =>
    by_cases text : vm.getPreLoadedModule name = []
    · rw [loadModule_empty here text] at run
      exact absurd run (by simp)
    · exact loadModule_entered here text run

theorem insert_same {name : Text} (names : List Text) (only : ∀ it ∈ names, it = name) {before : List Text}
    (start : before = [] ∨ before = [name]) :
    names.foldl (fun before it => before.insert it) before = [] ∨
      names.foldl (fun before it => before.insert it) before = [name] := by
  induction names generalizing before with
  | nil => exact start
  | cons it names ih =>
    obtain rfl := only it List.mem_cons_self
    refine ih (fun other member => only other (List.mem_cons_of_mem it member)) (.inr ?_)
    rcases start with rfl | rfl <;> simp

/-- A module that imports nothing but itself is all that is read. -/
theorem loadModule_alone {vm : CatVM} {name : Text} {module : VMModule} (absent : vm.getModule name = none)
    (text : vm.getPreLoadedModule name ≠ []) (parsed : parse library name (vm.getPreLoadedModule name) = .ok (some module))
    (only : ∀ it ∈ module.importModuleNames, it = name) :
    vm.loadModule library order name =
      match (vm.register name module).linkModules [name] with
      | .error (.failed failure) => .error failure
      | .error (.returnedNull vm) => .ok (vm, none)
      | .ok vm => .ok (vm, some name) := by
  let start : LoadState := ⟨vm, [name], [], none, true⟩
  have first := @loadNames_pass library order 0 start (by simp [start]) name (first_name order 0 name)
  rw [if_neg (by simp [start, absent]), if_neg text, parsed] at first
  have names : (start.enter name module).preLoadModules = [] ∨ (start.enter name module).preLoadModules = [name] :=
    insert_same module.importModuleNames only (.inl (List.erase_cons_head ..))
  have rest : loadNames library order 1 (start.enter name module) = .ok ⟨vm.register name module, [], [name], some name, false⟩ := by
    have entered (names : List Text) (same : (start.enter name module).preLoadModules = names) :
        start.enter name module = ⟨vm.register name module, names, [name], some name, false⟩ := by
      rw [← same]
      rfl
    rcases names with none | again
    · rw [entered [] none, loadNames_done 1 rfl]
    · rw [entered [name] again, loadNames_pass (by simp) (first_name order 1 name),
        if_pos (by simp [CatVM.getModule_register]), loadNames_done 2 (List.erase_cons_head ..)]
      simp
  have walk : order.traverse [name] = [name] := List.perm_singleton.mp (order.traverse_perm [name])
  rw [CatVM.loadModule, first]
  dsimp only
  rw [rest]
  dsimp only
  generalize order.traverse [name] = loaded at walk ⊢
  subst walk
  rfl

end Later

section Again
variable (library : StandardLibrary)

/-- One more call of `load_module`, or of `pre_load_module`. -/
inductive LaterCall : CatVM → CatVM → Prop
  | load {vm vm' order name target} : CatVM.loadModule library order vm name = .ok (vm', target) → LaterCall vm vm'
  | preLoad {vm name code} : LaterCall vm (vm.preLoadModule name code)

/-- A load of the name returns the module and changes nothing. -/
def ReturnsAgain (vm : CatVM) (name m : Text) : Prop :=
  ∀ order, vm.loadModule library order name = .ok (vm, some m)

variable {library}

theorem LaterCall.extends {vm vm' : CatVM} (call : LaterCall library vm vm') : vm.Extends vm' := by
  cases call with
  | load run => exact loadModule_extends run
  | preLoad => exact fun k mod here => ⟨mod, here, rfl⟩

theorem later_extends {vm vm' : CatVM} (calls : ReflTransGen (LaterCall library) vm vm') : vm.Extends vm' := by
  induction calls with
  | refl => exact .refl vm
  | tail _ call ih => exact ih.trans call.extends

/-- No load returns a module that is loaded: it returns null, in every later
state, and for the modules that were loaded as imports as well. -/
theorem loadModule_again (library : StandardLibrary) (order : LoadOrder) {vm vm₁ vm₂ : CatVM}
    {name m : Text} (first : vm.loadModule library order name = .ok (vm₁, some m)) (later : ReflTransGen (LaterCall library) vm₁ vm₂) :
    ¬ReturnsAgain library vm₂ name m ∧
      ∀ k, (vm₁.getModule k).isSome → ∀ order, vm₂.loadModule library order k = .ok (vm₂, none) := by
  have nothing (k : Text) (loaded : (vm₁.getModule k).isSome) (order : LoadOrder) :
      vm₂.loadModule library order k = .ok (vm₂, none) := by
    obtain ⟨mod, here⟩ := Option.isSome_iff_exists.mp loaded
    obtain ⟨mod', here', _⟩ := later_extends later k mod here
    exact loadModule_loaded (by simp [here'])
  refine ⟨fun again => ?_, nothing⟩
  have returned := (again order).symm.trans (nothing name (loadModule_some first) order)
  exact absurd returned (by simp)

end Again

/-- A module with a text that says nothing. -/
def blankVM : CatVM := ⟨[(['a'], ['\n'])], []⟩

def blankModule : VMModule := .make ['a'] [] [] [] [] []

theorem blank_parsed : parse plainLibrary ['a'] ['\n'] = .ok (some blankModule) := by
  have read : readSections plainLibrary ['a'] ⟨[], [], [], [], []⟩ ['\n'] = .ok ⟨[], [], [], [], []⟩ := by
    rw [readSections]
    simp [moveUntilNextLine, readSection, readSections, constName]
  rw [parse, read]
  rfl

theorem blankVM_loads : ∃ vm, blankVM.loadModule plainLibrary firstListed ['a'] = .ok (vm, some ['a']) := by
  have links : ∃ vm, (blankVM.register ['a'] blankModule).linkModules [['a']] = .ok vm := ⟨_, rfl⟩
  obtain ⟨vm, links⟩ := links
  refine ⟨vm, ?_⟩
  rw [loadModule_alone rfl (by decide) blank_parsed (by simp [blankModule, VMModule.make]), links]

/-- The module `a` that imports `b`, with a text for `b` as well. -/
def importedVM : CatVM := ⟨[(['a'], importingText), (['b'], ['\n'])], []⟩

def importingParts : ModuleParts := ⟨[⟨1, .string ['b']⟩], [['b']], [], [], []⟩

theorem importedVM_loads : ∃ vm, importedVM.loadModule plainLibrary firstListed ['a'] = .ok (vm, some ['a']) ∧
    (vm.getModule ['b']).isSome := by
  have parsed : parse plainLibrary ['a'] importingText = .ok (some (importingParts.module ['a'])) := parse_parts (by decide +kernel)
  have blank : parse plainLibrary ['b'] ['\n'] = .ok (some (ModuleParts.module ['b'] ⟨[], [], [], [], []⟩)) :=
    parse_parts (by decide +kernel)
  let start : LoadState := ⟨importedVM, [['a']], [], none, true⟩
  let entered : LoadState := start.enter ['a'] (importingParts.module ['a'])
  have first := @loadNames_pass plainLibrary firstListed 0 start (by simp [start]) ['a'] rfl
  rw [if_neg (by decide), if_neg (by decide), show start.vm.getPreLoadedModule ['a'] = importingText from rfl, parsed] at first
  have second := @loadNames_pass plainLibrary firstListed 1 entered (by decide) ['b'] rfl
  rw [if_neg (by decide), if_neg (by decide), show entered.vm.getPreLoadedModule ['b'] = ['\n'] from rfl, blank] at second
  let done : LoadState := entered.enter ['b'] (ModuleParts.module ['b'] ⟨[], [], [], [], []⟩)
  have names : loadNames plainLibrary firstListed 0 start = .ok done := by
    rw [first]
    show loadNames plainLibrary firstListed 1 entered = _
    rw [second]
    exact loadNames_done 2 rfl
  have links : ∃ vm, done.vm.linkModules [['b'], ['a']] = .ok vm ∧ (vm.getModule ['b']).isSome := ⟨_, rfl, rfl⟩
  obtain ⟨vm, links, imported⟩ := links
  refine ⟨vm, ?_, imported⟩
  have walk : firstListed.traverse done.loaded = [['b'], ['a']] := rfl
  rw [CatVM.loadModule, names]
  dsimp only
  rw [walk, links]
  rfl

/-- Two more calls are made: a text is pre-loaded for the import, and the import
is loaded. -/
theorem loadModule_again_imported : ∃ vm vm', importedVM.loadModule plainLibrary firstListed ['a'] = .ok (vm, some ['a']) ∧
    vm' = vm.preLoadModule ['b'] importingText ∧ vm'.loadModule plainLibrary firstListed ['b'] = .ok (vm', none) ∧
    ¬ReturnsAgain plainLibrary vm' ['a'] ['a'] := by
  obtain ⟨vm, first, imported⟩ := importedVM_loads
  have again : (vm.preLoadModule ['b'] importingText).loadModule plainLibrary firstListed ['b'] =
      .ok (vm.preLoadModule ['b'] importingText, none) := loadModule_loaded imported
  have later : ReflTransGen (LaterCall plainLibrary) vm (vm.preLoadModule ['b'] importingText) :=
    (ReflTransGen.single .preLoad).tail (.load again)
  exact ⟨vm, _, first, rfl, again, (loadModule_again plainLibrary firstListed first later).1⟩

/-- The second of two loads of a module returns null. -/
theorem loadModule_twice : ∃ vm, blankVM.loadModule plainLibrary firstListed ['a'] = .ok (vm, some ['a']) ∧
    vm.loadModule plainLibrary firstListed ['a'] = .ok (vm, none) := by
  obtain ⟨vm, first⟩ := blankVM_loads
  exact ⟨vm, first, loadModule_loaded (loadModule_some first)⟩

end CatLa
