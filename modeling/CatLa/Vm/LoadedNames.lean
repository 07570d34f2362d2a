import Mathlib.Data.List.Nodup
import CatLa.Foundations.GraphSearch
import CatLa.Vm.RepeatedLoads

namespace CatLa
open GraphSearch Outcome Relation

section Loading
variable (library : StandardLibrary) (vm : CatVM)

/-- A module that is read from its text. -/
structure Entered (k : Text) (mod : VMModule) : Prop where
  absent : vm.getModule k = none
  text : vm.getPreLoadedModule k ≠ []
  parsed : parse library k (vm.getPreLoadedModule k) = .ok (some mod)

/-- The state between two passes of the first loop of a load of `name`. -/
structure Loading (name : Text) (s : LoadState) : Prop where
  distinct : s.loaded.Nodup
  entered : ∀ k ∈ s.loaded, ∃ mod, Entered library vm k mod ∧ s.vm.getModule k = some mod
  kept : ∀ k, k ∉ s.loaded → s.vm.getModule k = vm.getModule k
  texts : s.vm.preLoadedModuleMap = vm.preLoadedModuleMap
  imports : ∀ k ∈ s.loaded, ∀ mod, s.vm.getModule k = some mod → ∀ it ∈ mod.importModuleNames,
    (s.vm.getModule it).isSome ∨ it ∈ s.preLoadModules
  start : (s.vm.getModule name).isSome ∨ name ∈ s.preLoadModules
  pending : s.preLoadModules.Nodup
  reached : ∀ k, k ∈ s.loaded ∨ k ∈ s.preLoadModules → InClosure library vm name k
  target : s.first = true ∧ s.targetModule = none ∧ s.loaded = [] ∧ (∀ k ∈ s.preLoadModules, k = name) ∨
    s.first = false ∧ s.targetModule = some name ∧ name ∈ s.loaded

variable {library vm} {name k : Text} {mod : VMModule} {s : LoadState}

theorem Entered.source (entered : Entered library vm k mod) : vm.source library k = some mod := by
  obtain ⟨absent, text, parsed⟩ := entered
  unfold CatVM.getPreLoadedModule at text parsed
  cases found : vm.preLoadedModuleMap.lookup k with
  | none => exact absurd (by rw [found]; rfl) text
  | some code =>
    rw [found, Option.getD_some] at parsed
    exact CatVM.source_parsed absent found parsed

theorem source_of_loaded (here : vm.getModule k = some mod) : vm.source library k = some mod := by
  rw [CatVM.source, here, Option.some_or]

/-- A name of a module that is loaded is dropped. -/
theorem Loading.skip (loading : Loading library vm name s) (found : (s.vm.getModule k).isSome) :
    Loading library vm name { s with preLoadModules := s.preLoadModules.erase k } := by
  refine ⟨loading.distinct, loading.entered, loading.kept, loading.texts, fun k' loaded mod here it member => ?_, ?_,
    loading.pending.erase k, fun k' known => ?_, ?_⟩
  · rcases loading.imports k' loaded mod here it member with there | waiting
    · exact .inl there
    · by_cases same : it = k
      · exact .inl (same ▸ found)
      · exact .inr ((List.mem_erase_of_ne same).mpr waiting)
  · rcases loading.start with there | waiting
    · exact .inl there
    · by_cases same : name = k
      · exact .inl (same ▸ found)
      · exact .inr ((List.mem_erase_of_ne same).mpr waiting)
  · exact loading.reached k' (known.imp id List.mem_of_mem_erase)
  · refine loading.target.imp_left ?_
    rintro ⟨first, target, nothing, only⟩
    exact ⟨first, target, nothing, fun k' member => only k' (List.mem_of_mem_erase member)⟩

/-- A module that is parsed is entered, and its imports are to be loaded. -/
theorem Loading.enter (loading : Loading library vm name s) (member : k ∈ s.preLoadModules) (absent : s.vm.getModule k = none)
    (text : s.vm.getPreLoadedModule k ≠ []) (parsed : parse library k (s.vm.getPreLoadedModule k) = .ok (some mod)) :
    Loading library vm name (s.enter k mod) := by
  have fresh : k ∉ s.loaded := fun known => by
    obtain ⟨_, _, here⟩ := loading.entered k known
    exact absurd (here.symm.trans absent) (by simp)
  have texts : s.vm.getPreLoadedModule k = vm.getPreLoadedModule k := by
    rw [CatVM.getPreLoadedModule, loading.texts, CatVM.getPreLoadedModule]
  rw [texts] at text parsed
  have entered : Entered library vm k mod := ⟨(loading.kept k fresh).symm.trans absent, text, parsed⟩
  have get (k' : Text) : (s.enter k mod).vm.getModule k' = if k' = k then some mod else s.vm.getModule k' :=
    CatVM.getModule_register ..
  have waits (it : Text) (before : (s.vm.getModule it).isSome ∨ it ∈ s.preLoadModules) :
      ((s.enter k mod).vm.getModule it).isSome ∨ it ∈ (s.enter k mod).preLoadModules := by
    by_cases same : it = k
    · exact .inl (by rw [get, if_pos same]; rfl)
    · rw [get, if_neg same]
      exact before.imp id fun waiting => mem_foldl_insert.mpr (.inl ((List.mem_erase_of_ne same).mpr waiting))
  refine ⟨List.nodup_cons.mpr ⟨fresh, loading.distinct⟩, fun k' loaded => ?_, fun k' other => ?_, loading.texts,
    fun k' loaded mod' here it imported => ?_, waits name loading.start, nodup_foldl_insert _ (loading.pending.erase k),
    fun k' known => ?_, ?_⟩
  · rcases List.mem_cons.mp loaded with rfl | before
    · exact ⟨mod, entered, by rw [get, if_pos rfl]⟩
    · obtain ⟨mod', entered', here⟩ := loading.entered k' before
      exact ⟨mod', entered', by rw [get, if_neg fun same : k' = k => fresh (same ▸ before), here]⟩
  · obtain ⟨different, before⟩ := List.ne_and_not_mem_of_not_mem_cons other
    rw [get, if_neg different, loading.kept k' before]
  · rcases List.mem_cons.mp loaded with rfl | before
    · rw [get, if_pos rfl] at here
      obtain rfl := Option.some.inj here
      exact .inr (mem_foldl_insert.mpr (.inr imported))
    · rw [get, if_neg fun same : k' = k => fresh (same ▸ before)] at here
      exact waits it (loading.imports k' before mod' here it imported)
  · rcases known with loaded | waiting
    · rcases List.mem_cons.mp loaded with rfl | before
      · exact loading.reached k' (.inr member)
      · exact loading.reached k' (.inl before)
    · rcases mem_foldl_insert.mp waiting with before | imported
      · exact loading.reached k' (.inr (List.mem_of_mem_erase before))
      · exact (loading.reached k (.inr member)).tail ⟨mod, entered.source, imported⟩
  · right
    rcases loading.target with ⟨first, _, _, only⟩ | ⟨first, target, known⟩
    · obtain rfl := only k member
      exact ⟨rfl, if_pos first, List.mem_cons_self⟩
    · refine ⟨rfl, ?_, List.mem_cons_of_mem k known⟩
      rw [LoadState.enter, if_neg (by simp [first])]
      exact target

theorem loading_start (library : StandardLibrary) (vm : CatVM) (name : Text) :
    Loading library vm name ⟨vm, [name], [], none, true⟩ where
  distinct := List.nodup_nil
  entered _ loaded := absurd loaded List.not_mem_nil
  kept _ _ := rfl
  texts := rfl
  imports _ loaded := absurd loaded List.not_mem_nil
  start := .inr List.mem_cons_self
  pending := List.nodup_singleton name
  reached k known := by
    rcases known with loaded | waiting
    · exact absurd loaded List.not_mem_nil
    · rw [List.mem_singleton.mp waiting]
      exact .refl
  target := .inl ⟨rfl, rfl, rfl, fun k member => List.mem_singleton.mp member⟩

variable {order : LoadOrder}

theorem loadNames_run (pass : Nat) {s s' : LoadState} (loading : Loading library vm name s)
    (run : loadNames library order pass s = .ok s') : Loading library vm name s' ∧ s'.preLoadModules = [] := by
  induction pass, s using loadNames.induct library order with
  | case1 pass s done =>
    rw [loadNames, dif_pos done] at run
    obtain rfl := Except.ok.inj run
    exact ⟨loading, done⟩
  | case2 pass s more _ _ found ih =>
    rw [loadNames_pass more rfl, if_pos found] at run
    exact ih (loading.skip found) run
  | case3 pass s more _ _ absent empty =>
    rw [loadNames_pass more rfl, if_neg absent, if_pos empty] at run
    exact absurd run (by simp)
  | case4 pass s more _ _ absent text failure failed =>
    rw [loadNames_pass more rfl, if_neg absent, if_neg text, failed] at run
    exact absurd run (by simp)
  | case5 pass s more _ _ absent text failed =>
    rw [loadNames_pass more rfl, if_neg absent, if_neg text, failed] at run
    exact absurd run (by simp)
  | case6 pass s more currentName member absent text module parsed ih =>
    rw [loadNames_pass more rfl, if_neg absent, if_neg text, parsed] at run
    exact ih (loading.enter member (by simpa using absent) text parsed) run

end Loading
end CatLa
