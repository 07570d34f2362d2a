import CatLa.Vm.LinkPasses

namespace CatLa
open Lineage Outcome Relation TablePass

/-- A layout of a type: the fields of the types from it up to the root, which
have one name each, and their types are there. -/
structure FieldLayout (parents : Text → Option (List (Option TypePointer × List Field))) (pointer : TypePointer)
    (chain : List (List Field)) : Prop where
  line : Lineage (parentOf parents) (some pointer) chain
  distinct : (chain.reverse.flatten.map (·.name)).Nodup
  typed : ∀ field ∈ chain.reverse.flatten, field.type.isSome

theorem FieldLayout.own {parents : Text → Option (List (Option TypePointer × List Field))} {pointer : TypePointer}
    {chain : List (List Field)} (layout : FieldLayout parents pointer chain) {up : Option TypePointer} {own : List Field}
    (here : parentOf parents pointer = some (up, own)) : ∃ above, chain = own :: above ∧ Lineage (parentOf parents) up above := by
  obtain ⟨line, _, _⟩ := layout
  cases line with
  | child here' later =>
    obtain ⟨rfl, rfl⟩ := Prod.mk.inj (Option.some.inj (here.symm.trans here'))
    exact ⟨_, rfl, later⟩

theorem fieldNames_flatten (chain : List (List Field)) :
    chain.reverse.flatten.map (·.name) = chain.reverse.flatMap (·.map (·.name)) := by
  rw [List.map_flatten, List.flatMap_def]

/-- A layout has no cycle above it, and no field name twice. -/
theorem FieldLayout.sound {parents : Text → Option (List (Option TypePointer × List Field))} {pointer : TypePointer}
    {chain : List (List Field)} (layout : FieldLayout parents pointer chain) (q : TypePointer)
    (path : ReflTransGen (IsParent (parentOf parents)) pointer q) :
    ¬TransGen (IsParent (parentOf parents)) q q ∧ ¬Repeats (parentOf parents) (·.map (·.name)) q := by
  refine ⟨fun cycle => ?_, layout.line.nodup_iff.mp (fieldNames_flatten chain ▸ layout.distinct) q path⟩
  rcases reflTransGen_iff_eq_or_transGen.mp path with rfl | above
  · exact layout.line.acyclic cycle
  · obtain ⟨labels, line, _⟩ := layout.line.ancestor above
    exact line.acyclic cycle

/-- Every type from here up to the root is there, with the types of its fields. -/
def Resolved (parents : Text → Option (List (Option TypePointer × List Field))) (pointer : TypePointer) : Prop :=
  ∀ q, ReflTransGen (IsParent (parentOf parents)) pointer q →
    ∃ up fields, parentOf parents q = some (up, fields) ∧ ∀ field ∈ fields, field.type.isSome

/-- Whether the types of a module can be laid out. -/
def LaysOut (parents : Text → Option (List (Option TypePointer × List Field))) (name : Text) : Prop :=
  ∀ types, parents name = some types → ∀ index < types.length, ∃ chain, FieldLayout parents (.defined name index) chain

/-- A module that is ready for the third pass. -/
structure AwaitsLayout (parents : Text → Option (List (Option TypePointer × List Field))) (name : Text) (mod : VMModule) :
    Prop where
  blank : ∀ type ∈ mod.typeDefines, type.allFields = []
  resolved : ∀ index < mod.typeDefines.length, Resolved parents (.defined name index)

theorem layFields_iff {foundFieldNames : List Text} {fields : List Field} :
    (layFields foundFieldNames fields).2 = true ↔
      (fields.map (·.name)).Nodup ∧ ∀ field ∈ fields, field.name ∉ foundFieldNames := by
  induction fields generalizing foundFieldNames with
  | nil => simp [layFields]
  | cons field fields ih =>
    rw [layFields]
    split
    · rename_i twice
      exact iff_of_false Bool.false_ne_true fun both => both.2 field List.mem_cons_self twice
    · rename_i fresh
      simp only [ih, List.map_cons, List.nodup_cons, List.forall_mem_cons]
      simp only [List.mem_cons, not_or, List.mem_map, not_exists, not_and]
      constructor
      · rintro ⟨distinct, apart⟩
        exact ⟨⟨fun other member same => (apart other member).1 same, distinct⟩, fresh, fun other member =>
          (apart other member).2⟩
      · rintro ⟨⟨own, distinct⟩, _, apart⟩
        exact ⟨distinct, fun other member => ⟨own other member, apart other member⟩⟩

theorem markField_returns {field : Field × Nat} (typed : field.1.type.isSome) (bytes : List (BitVec 8)) :
    ∃ bytes', markField bytes field = .ok bytes' := by
  obtain ⟨type, here⟩ := Option.isSome_iff_exists.mp typed
  cases type with
  | primitive => exact ⟨_, by rw [markField, here]⟩
  | defined => exact ⟨_, by rw [markField, here]⟩

theorem markFields_return {fields : List Field} (typed : ∀ field ∈ fields, field.type.isSome) (bytes : List (BitVec 8)) :
    ∃ bytes', fields.zipIdx.foldlM markField bytes = .ok bytes' := by
  let Left (rest : List (Field × Nat)) (_ : List (BitVec 8)) : Prop := ∀ field ∈ rest, field.1.type.isSome
  have each (field : Field × Nat) (rest : List (Field × Nat)) (bytes : List (BitVec 8)) (all : Left (field :: rest) bytes) :
      ∃ bytes', markField bytes field = .ok bytes' ∧ Left rest bytes' := by
    obtain ⟨bytes', mark⟩ := markField_returns (all field List.mem_cons_self) bytes
    exact ⟨bytes', mark, fun other member => all other (List.mem_cons_of_mem field member)⟩
  have start : Left fields.zipIdx bytes := fun field member => typed field.1 (List.fst_mem_of_mem_zipIdx member)
  obtain ⟨bytes', run, _⟩ := foldlM_returns each start
  exact ⟨bytes', run⟩

theorem markField_typed {bytes bytes' : List (BitVec 8)} {field : Field × Nat} (run : markField bytes field = .ok bytes') :
    field.1.type.isSome := by
  unfold markField at run
  split at run
  · exact absurd run (by simp)
  · rename_i here
    simp [here]
  · rename_i here
    simp [here]

theorem Resolved.typed {parents : Text → Option (List (Option TypePointer × List Field))} {pointer : TypePointer}
    (resolved : Resolved parents pointer) {chain : List (List Field)} (line : Lineage (parentOf parents) (some pointer) chain) :
    ∀ field ∈ chain.reverse.flatten, field.type.isSome := fun field member => by
  obtain ⟨fields, listed, member⟩ := List.mem_flatten.mp member
  obtain ⟨up, next, path, atUp⟩ := line.mem_iff.mp (List.mem_reverse.mp listed)
  obtain ⟨_, _, there, typed⟩ := resolved up path
  obtain ⟨_, rfl⟩ := Prod.mk.inj (Option.some.inj (atUp.symm.trans there))
  exact typed field member

theorem chain_fields (parents : List VMType) :
    parents.reverse.flatMap (·.addFields) = (parents.map (·.addFields)).reverse.flatten := by
  rw [← List.map_reverse, List.flatMap_def]

theorem withLayout_parents (parents : Text → Option (List (Option TypePointer × List Field))) (name : Text) (mod : VMModule) :
    ((mod.withLayout parents name).typeDefines.map fun type => (type.parent, type.addFields)) =
      mod.typeDefines.map fun type => (type.parent, type.addFields) := by
  refine List.ext_getElem (by simp [VMModule.withLayout]) fun i _ _ => ?_
  simp [VMModule.withLayout, VMType.laidOut]

namespace CatVM
variable {vm vm' : CatVM} {name : Text} {index : Nat}

/-- The walk to the root ends there, or meets a type twice. -/
theorem parentChain_cases (foundTypes : List TypePointer) (current : Option TypePointer)
    (known : ∀ p, current = some p → ∀ q, ReflTransGen (IsParent (parentOf vm.typeParents)) p q → (vm.typeAt q).isSome)
    (found : ∀ p, current = some p → ∀ q ∈ foundTypes, TransGen (IsParent (parentOf vm.typeParents)) q p) :
    (∃ parents, vm.parentChain foundTypes current = .ok parents) ∨
      vm.parentChain foundTypes current = .error (.returnedNull vm) ∧
        ∃ p q, current = some p ∧ ReflTransGen (IsParent (parentOf vm.typeParents)) p q ∧
          TransGen (IsParent (parentOf vm.typeParents)) q q := by
  induction foundTypes, current using parentChain.induct vm with
  | case1 foundTypes => exact .inl ⟨[], by rw [parentChain]⟩
  | case2 foundTypes pointer twice =>
    exact .inr ⟨by rw [parentChain, if_pos twice], pointer, pointer, rfl, .refl, found pointer rfl pointer twice⟩
  | case3 foundTypes pointer fresh nowhere =>
    have there := known pointer rfl pointer .refl
    rw [nowhere] at there
    exact absurd there Bool.false_ne_true
  | case4 foundTypes pointer fresh type here ih =>
    have isParent (up : TypePointer) (above : type.parent = some up) : IsParent (parentOf vm.typeParents) pointer up :=
      ⟨type.addFields, by rw [parentOf_eq, here, Option.map_some, above]⟩
    rw [parentChain_some fresh, here]
    dsimp only
    have below (up : TypePointer) (above : type.parent = some up) (q : TypePointer) (member : q ∈ pointer :: foundTypes) :
        TransGen (IsParent (parentOf vm.typeParents)) q up := by
      rcases List.mem_cons.mp member with rfl | before
      · exact .single (isParent up above)
      · exact (found pointer rfl q before).tail (isParent up above)
    rcases ih (fun up above q path => known pointer rfl q (.head (isParent up above) path)) below with
      ⟨parents, run⟩ | ⟨exit, up, q, above, path, cycle⟩
    · exact .inl ⟨type :: parents, by rw [run, ok_bind]⟩
    · exact .inr ⟨by rw [exit, error_bind], pointer, q, rfl, .head (isParent up above) path, cycle⟩

theorem known_of_resolved {pointer q : TypePointer} (resolved : Resolved vm.typeParents pointer)
    (path : ReflTransGen (IsParent (parentOf vm.typeParents)) pointer q) : (vm.typeAt q).isSome := by
  obtain ⟨up, fields, there, _⟩ := resolved q path
  rw [parentOf_eq] at there
  obtain ⟨type, at_q, _⟩ := Option.map_eq_some_iff.mp there
  rw [at_q]
  rfl

/-- A type has a layout if no type above it is its own ancestor, or has a field
name twice. -/
theorem fieldLayout_iff {pointer : TypePointer} (resolved : Resolved vm.typeParents pointer) :
    (∃ chain, FieldLayout vm.typeParents pointer chain) ↔
      ∀ q, ReflTransGen (IsParent (parentOf vm.typeParents)) pointer q →
        ¬TransGen (IsParent (parentOf vm.typeParents)) q q ∧ ¬Repeats (parentOf vm.typeParents) (·.map (·.name)) q := by
  constructor
  · rintro ⟨chain, layout⟩
    exact layout.sound
  · intro all
    rcases parentChain_cases [] (some pointer)
      (fun p same q path => by obtain rfl := Option.some.inj same; exact known_of_resolved resolved path)
      (fun _ _ _ member => absurd member List.not_mem_nil) with ⟨parents, run⟩ | ⟨_, p, q, same, path, cycle⟩
    · have line := parentChain_run run
      refine ⟨_, line, ?_, resolved.typed line⟩
      rw [fieldNames_flatten]
      exact line.nodup_iff.mpr fun up path => (all up path).2
    · obtain rfl := Option.some.inj same
      exact absurd cycle (all q path).1

theorem layType_layout (run : layType name vm index = .ok vm') :
    ∃ chain, FieldLayout vm.typeParents (.defined name index) chain := by
  obtain ⟨mod, here, run⟩ := bind_eq_ok.mp run
  split at run
  · exact absurd run (by simp)
  · rename_i type atIndex
    obtain ⟨parents, above, run⟩ := bind_eq_ok.mp run
    dsimp only at run
    split at run
    · exact absurd run (by simp)
    · rename_i unique
      rw [Bool.not_eq_false] at unique
      obtain ⟨bytes, bits, _⟩ := bind_eq_ok.mp run
      refine ⟨_, parentChain_run above, ?_, fun field member => ?_⟩
      · rw [← chain_fields]
        exact (layFields_iff.mp unique).1
      · rw [← chain_fields, ← layFields_unique unique] at member
        obtain ⟨i, inside, at_i⟩ := List.getElem_of_mem (List.mem_append_right type.allFields member)
        have listed : (field, i) ∈ (type.allFields ++ _).zipIdx :=
          List.mk_mem_zipIdx_iff_getElem?.mpr (by rw [List.getElem?_eq_getElem inside, at_i])
        obtain ⟨_, _, _, mark⟩ := foldlM_visits (P := fun _ => True) (fun _ _ _ _ _ => trivial) bits trivial listed
        exact markField_typed mark

/-- A type whose parents and fields are there is laid out, or the whole call
returns null. -/
theorem layType_decides {mod : VMModule} {type : VMType} (here : vm.getModule name = some mod)
    (atIndex : mod.typeDefines[index]? = some type) (blank : type.allFields = [])
    (resolved : Resolved vm.typeParents (.defined name index)) :
    (∃ vm', layType name vm index = .ok vm' ∧ ∃ chain, FieldLayout vm.typeParents (.defined name index) chain) ∨
      ∃ vm', layType name vm index = .error (.returnedNull vm') ∧
        ¬∃ chain, FieldLayout vm.typeParents (.defined name index) chain := by
  rw [layType, deref_some here, ok_bind]
  dsimp only
  rw [atIndex]
  dsimp only
  rcases parentChain_cases [] (some (.defined name index)) (fun p same q path => by
      obtain rfl := Option.some.inj same; exact known_of_resolved resolved path)
    (fun _ _ _ member => absurd member List.not_mem_nil) with ⟨parents, run⟩ | ⟨exit, p, q, same, path, cycle⟩
  · rw [run, ok_bind]
    have line := parentChain_run run
    have typed := resolved.typed line
    rw [← chain_fields] at typed
    split
    · rename_i twice
      refine .inr ⟨_, rfl, ?_⟩
      rintro ⟨chain, layout⟩
      obtain rfl := layout.line.unique line
      have unique : (layFields [] (parents.reverse.flatMap (·.addFields))).2 = true :=
        layFields_iff.mpr ⟨chain_fields parents ▸ layout.distinct, fun _ _ => List.not_mem_nil⟩
      rw [unique] at twice
      exact absurd twice (by simp)
    · rename_i unique
      rw [Bool.not_eq_false] at unique
      rw [layFields_unique unique, blank, List.nil_append]
      obtain ⟨bytes, bits⟩ := markFields_return typed (createBitset (parents.reverse.flatMap (·.addFields)).length)
      rw [bits, ok_bind]
      refine .inl ⟨_, rfl, _, line, ?_, chain_fields parents ▸ typed⟩
      rw [← chain_fields]
      exact (layFields_iff.mp unique).1
  · rw [exit, error_bind]
    refine .inr ⟨_, rfl, ?_⟩
    rintro ⟨chain, layout⟩
    obtain ⟨labels, line⟩ : ∃ labels, Lineage (parentOf vm.typeParents) (some q) labels := by
      obtain rfl := Option.some.inj same
      rcases reflTransGen_iff_eq_or_transGen.mp path with rfl | above
      · exact ⟨chain, layout.line⟩
      · obtain ⟨labels, line, _⟩ := layout.line.ancestor above
        exact ⟨labels, line⟩
    exact line.acyclic cycle

theorem entries_some {core : VMModule} (found : vm.entries name = some core) :
    ∃ mod, vm.getModule name = some mod ∧ mod.core = core :=
  Option.map_eq_some_iff.mp found

@[simp] theorem isSome_entries (vm : CatVM) (k : Text) : (vm.entries k).isSome = (vm.getModule k).isSome := by
  rw [entries, Option.isSome_map]

theorem typeParents_entry {core : VMModule} (found : vm.entries name = some core) :
    vm.typeParents name = some (core.typeDefines.map fun type => (type.parent, type.addFields)) := by
  rw [typeParents, viewOf, found, Option.map_some]

theorem layType_parents (run : layType name vm index = .ok vm') : vm'.typeParents = vm.typeParents := by
  rw [typeParents, layType_run run]
  refine viewOf_replaced (fun _ mod => ?_) _ _
  let lay (_ : Nat) (type : VMType) := type.laidOut (Lineage.of (parentOf vm.typeParents) (.defined name index))
  have same (i : Nat) (type : VMType) : ((lay i type).parent, (lay i type).addFields) = (type.parent, type.addFields) := rfl
  exact @map_foldl_modify _ _ (fun type : VMType => (type.parent, type.addFields)) lay same [index] mod.typeDefines

theorem layTypes_parents (run : vm.layTypes name = .ok vm') : vm'.typeParents = vm.typeParents := by
  rw [typeParents, layTypes_run run]
  exact viewOf_replaced (fun _ mod => withLayout_parents _ _ mod) _ _

theorem layTypes_layout (run : vm.layTypes name = .ok vm') : LaysOut vm.typeParents name := by
  intro types here index inside
  obtain ⟨mod, found, run⟩ := bind_eq_ok.mp run
  rw [typeParents_entry (entries_eq (deref_run found))] at here
  obtain rfl := Option.some.inj here
  rw [List.length_map] at inside
  obtain ⟨vm₁, vm₂, same, step⟩ := foldlM_visits (P := fun vm₁ : CatVM => vm₁.typeParents = vm.typeParents)
    (fun _ _ _ same step => (layType_parents step).trans same) run rfl (List.mem_range.mpr inside)
  rw [← same]
  exact layType_layout step

theorem layTypes_layouts {names : List Text} (run : names.foldlM layTypes vm = .ok vm') {k : Text} (member : k ∈ names) :
    LaysOut vm.typeParents k := by
  obtain ⟨vm₁, vm₂, same, step⟩ := foldlM_visits (P := fun vm₁ : CatVM => vm₁.typeParents = vm.typeParents)
    (fun _ _ _ same step => (layTypes_parents step).trans same) run rfl member
  rw [← same]
  exact layTypes_layout step

theorem layTypes_decides {mod : VMModule} (here : vm.getModule name = some mod) (ready : AwaitsLayout vm.typeParents name mod) :
    (∃ vm', vm.layTypes name = .ok vm' ∧ LaysOut vm.typeParents name) ∨
      ∃ vm', vm.layTypes name = .error (.returnedNull vm') ∧ ¬LaysOut vm.typeParents name := by
  let Left (rest : List Nat) (vm₁ : CatVM) : Prop := rest.Nodup ∧ vm₁.typeParents = vm.typeParents ∧
    ∃ core, vm₁.entries name = some core ∧ ∀ i ∈ rest, i < mod.typeDefines.length ∧ core.typeDefines[i]? = mod.typeDefines[i]?
  let Good (i : Nat) : Prop := ∃ chain, FieldLayout vm.typeParents (.defined name i) chain
  have laysOut : LaysOut vm.typeParents name ↔ ∀ i ∈ List.range mod.typeDefines.length, Good i := by
    simp only [LaysOut, typeParents_entry (entries_eq here), Option.some.injEq, forall_eq', List.length_map, List.mem_range,
      VMModule.core, Good]
  have step (i : Nat) (rest : List Nat) (vm₁ : CatVM) (left : Left (i :: rest) vm₁) :
      (∃ vm₂, layType name vm₁ i = .ok vm₂ ∧ Left rest vm₂ ∧ Good i) ∨
        ∃ e, layType name vm₁ i = .error e ∧ (∃ vm', e = .returnedNull vm') ∧ ¬Good i := by
    obtain ⟨distinct, parents, core, found, awaits⟩ := left
    obtain ⟨fresh, distinct⟩ := List.nodup_cons.mp distinct
    obtain ⟨mod₁, here₁, rfl⟩ := entries_some found
    obtain ⟨inside, atIndex⟩ := awaits i List.mem_cons_self
    rw [List.getElem?_eq_getElem inside] at atIndex
    rcases layType_decides here₁ atIndex (ready.blank _ (List.getElem_mem inside)) (parents ▸ ready.resolved i inside) with
      ⟨vm₂, run, layout⟩ | ⟨vm₂, exit, stuck⟩
    · rw [parents] at layout
      have found₂ := congrFun (layType_run run) name
      rw [replaced, found, Option.map_some, if_pos rfl] at found₂
      refine .inl ⟨vm₂, run, ⟨distinct, (layType_parents run).trans parents, _, found₂, fun j member => ?_⟩, layout⟩
      obtain ⟨inside', same⟩ := awaits j (List.mem_cons_of_mem i member)
      have other : i ≠ j := fun same => fresh (same ▸ member)
      exact ⟨inside', by rw [← same]; simp [other]⟩
    · rw [parents] at stuck
      exact .inr ⟨_, exit, ⟨vm₂, rfl⟩, stuck⟩
  have start : Left (List.range mod.typeDefines.length) vm :=
    ⟨List.nodup_range, rfl, mod.core, entries_eq here, fun i member => ⟨List.mem_range.mp member, rfl⟩⟩
  rw [layTypes, deref_some here, ok_bind, laysOut]
  rcases foldlM_decides step start with ⟨vm', run, all⟩ | ⟨_, exit, ⟨vm', rfl⟩, i, member, bad⟩
  · exact .inl ⟨vm', run, all⟩
  · exact .inr ⟨vm', exit, fun all => bad (all i member)⟩

theorem layTypes_decide {names : List Text} (distinct : names.Nodup)
    (ready : ∀ k ∈ names, ∃ mod, vm.getModule k = some mod ∧ AwaitsLayout vm.typeParents k mod) :
    (∃ vm', names.foldlM layTypes vm = .ok vm' ∧ ∀ k ∈ names, LaysOut vm.typeParents k) ∨
      ∃ vm', names.foldlM layTypes vm = .error (.returnedNull vm') ∧ ∃ k ∈ names, ¬LaysOut vm.typeParents k := by
  let Left (rest : List Text) (vm₁ : CatVM) : Prop := rest.Nodup ∧ vm₁.typeParents = vm.typeParents ∧
    ∀ k ∈ rest, vm₁.entries k = vm.entries k ∧ ∃ mod, vm.getModule k = some mod ∧ AwaitsLayout vm.typeParents k mod
  have step (k : Text) (rest : List Text) (vm₁ : CatVM) (left : Left (k :: rest) vm₁) :
      (∃ vm₂, layTypes vm₁ k = .ok vm₂ ∧ Left rest vm₂ ∧ LaysOut vm.typeParents k) ∨
        ∃ e, layTypes vm₁ k = .error e ∧ (∃ vm', e = .returnedNull vm') ∧ ¬LaysOut vm.typeParents k := by
    obtain ⟨distinct, parents, awaits⟩ := left
    obtain ⟨fresh, distinct⟩ := List.nodup_cons.mp distinct
    obtain ⟨same, mod, here, ready⟩ := awaits k List.mem_cons_self
    obtain ⟨mod₁, here₁, core⟩ := entries_some (same.trans (entries_eq here))
    have types : mod₁.typeDefines = mod.typeDefines := (VMModule.mk.inj core).2.2.2.2.2.1
    have ready₁ : AwaitsLayout vm₁.typeParents k mod₁ := ⟨types ▸ ready.blank, by rw [types, parents]; exact ready.resolved⟩
    rcases layTypes_decides here₁ ready₁ with ⟨vm₂, run, laid⟩ | ⟨vm₂, exit, stuck⟩
    · refine .inl ⟨vm₂, run, ⟨distinct, (layTypes_parents run).trans parents, fun k' member => ?_⟩, parents ▸ laid⟩
      obtain ⟨same, awaits⟩ := awaits k' (List.mem_cons_of_mem k member)
      have other : k' ≠ k := fun same => fresh (same ▸ member)
      refine ⟨?_, awaits⟩
      rw [layTypes_run run, replaced, same]
      simp [other]
    · exact .inr ⟨_, exit, ⟨vm₂, rfl⟩, parents ▸ stuck⟩
  rcases foldlM_decides step (show Left names vm from ⟨distinct, rfl, fun k member => ⟨rfl, ready k member⟩⟩) with
    ⟨vm', run, all⟩ | ⟨_, exit, ⟨vm', rfl⟩, bad⟩
  · exact .inl ⟨vm', run, all⟩
  · exact .inr ⟨vm', exit, bad⟩

end CatVM
end CatLa
