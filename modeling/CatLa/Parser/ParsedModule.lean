import CatLa.Parser.ModuleText

namespace CatLa
open Outcome Pattern

/-- An order as the parser makes it: nothing in it has been looked up. -/
def Order.Unlinked : Order → Prop
  | .jumpToLabel _ label => label = none
  | .setObjectFieldOwnership _ _ _ _ fieldIndex _ => fieldIndex = 0
  | .getObjectFieldOwnership _ _ _ _ _ _ => False
  | .newClassObject _ _ _ _ => False
  | _ => True

/-- A function as the parser makes it, with the lines of its orders. -/
structure VMFunction.Unlinked (function : VMFunction) : Prop where
  made : function = .make function.name function.variablesSize function.registersSize function.labelBlocks
    function.returnTypeInfo function.argumentTypeInfos
  lines : ∃ constValues lines, ReadFrom constValues lines function.labelBlocks

theorem VMFunction.Unlinked.labelBlockMap {function : VMFunction} (unlinked : function.Unlinked) :
    function.labelBlockMap = buildLabelBlockMap function.labelBlocks := by
  rw [unlinked.made]
  rfl

def VMType.Unlinked (type : VMType) : Prop := type = .make type.typeName type.fieldInfos type.declaredParent

/-- A module as the parser makes it. -/
structure VMModule.Unlinked (name : Text) (mod : VMModule) : Prop where
  made : mod = .make name mod.constValues mod.importModuleNames mod.typeDefines mod.usingTypeInfos mod.functions
  types : ∀ type ∈ mod.typeDefines, type.Unlinked
  functions : ∀ function ∈ mod.functions, function.Unlinked

section Parser
variable {library : StandardLibrary} {name : Text} {constValues : List ConstValue}

theorem forall₂_right {α β : Type} {R : α → β → Prop} {xs : List α} {ys : List β} (related : List.Forall₂ R xs ys) {y : β}
    (member : y ∈ ys) : ∃ x, x ∈ xs ∧ R x y := by
  induction related with
  | nil => exact absurd member List.not_mem_nil
  | @cons x y' xs ys here _ ih =>
    rcases List.mem_cons.mp member with rfl | later
    · exact ⟨x, List.mem_cons_self, here⟩
    · obtain ⟨x', known, there⟩ := ih later
      exact ⟨x', List.mem_cons_of_mem x known, there⟩

theorem parseOrder_unlinked {assignmentRegister : Nat} {orderName : Text} {args : List Text} {order : Order}
    (run : parseOrder constValues assignmentRegister orderName args = .ok order) : order.Unlinked := by
  rcases parseOrder_cases run with ⟨_, outcome⟩ | ⟨_, outcome⟩
  · rcases outcome with ⟨_, rfl⟩ | ⟨_, rfl⟩ | ⟨_, _, _, _, _, rfl⟩
    · rfl
    · trivial
    · rfl
  · rcases outcome with ⟨_, _, rfl⟩ | ⟨_, rfl⟩ | ⟨_, _, _, rfl⟩ <;> trivial

theorem parseOrderLine_unlinked {line : Text} {order : Order} (run : parseOrderLine constValues line = .ok order) :
    order.Unlinked := by
  unfold parseOrderLine at run
  split at run
  · obtain ⟨_, _, run⟩ := bind_eq_ok.mp run
    exact parseOrder_unlinked run
  · exact parseOrder_unlinked run

theorem VMFunction.Unlinked.orders {function : VMFunction} (unlinked : function.Unlinked) {block : LabelBlock}
    (member : block ∈ function.labelBlocks) {order : Order} (inside : order ∈ block.orders) : order.Unlinked := by
  obtain ⟨constValues, lines, read⟩ := unlinked.lines
  obtain ⟨blockLines, _, shown⟩ := forall₂_right read member
  obtain ⟨line, _, parsed⟩ := forall₂_right shown inside
  exact parseOrderLine_unlinked parsed

theorem readType_unlinked {nameIndex fields : Text} {parentInfo : Except ParseFailure (Option TypeInfo)} {type : VMType}
    (run : readType constValues nameIndex fields parentInfo = .ok type) : type.Unlinked := by
  obtain ⟨_, _, run⟩ := bind_eq_ok.mp run
  obtain ⟨_, _, run⟩ := bind_eq_ok.mp run
  obtain ⟨_, _, same⟩ := bind_eq_ok.mp run
  rw [← Except.ok.inj same]
  rfl

theorem parseTypeDefine_unlinked {code left : Text} {types : List VMType}
    (run : parseTypeDefine constValues code = .ok (types, left)) : ∀ type ∈ types, type.Unlinked := by
  refine forLines_kept (fun types : List VMType => ∀ type ∈ types, type.Unlinked) ?_ run (by simp)
  rintro types line code types' left kept pass
  obtain ⟨_, step, same⟩ := map_eq_ok.mp pass
  obtain ⟨rfl, -⟩ := Prod.mk.inj same
  unfold readTypeDefine at step
  dsimp only at step
  split at step
  · obtain ⟨type, read, same⟩ := bind_eq_ok.mp step
    rw [← Except.ok.inj same]
    exact List.forall_mem_append.mpr ⟨kept, by simpa using readType_unlinked read⟩
  · split at step
    · obtain ⟨type, read, same⟩ := bind_eq_ok.mp step
      rw [← Except.ok.inj same]
      exact List.forall_mem_append.mpr ⟨kept, by simpa using readType_unlinked read⟩
    · exact absurd step (by simp)

/-- The loop of `parse` keeps what its sections keep. -/
theorem readSections_kept (Inv : Sections → Prop)
    (reads : ∀ sections line code sections' left, Inv sections → readSection library name sections line code = .ok (sections', left) →
      Inv sections') {sections sections' : Sections} {code : Text}
    (run : readSections library name sections code = .ok sections') (start : Inv sections) : Inv sections' := by
  induction length : code.length using Nat.strongRecOn generalizing sections code with
  | _ n ih =>
    rw [readSections] at run
    split at run
    · rw [← Except.ok.inj run]
      exact start
    · rename_i more
      have shorter := moveUntilNextLine_length more
      dsimp only at run
      split at run
      · exact absurd run (by simp)
      · rename_i sections₁ left pass
        have advanced := readSection_length pass
        exact ih left.length (by omega) run (reads _ _ _ _ _ start pass) rfl

/-- What `parse` returns has not been linked. -/
theorem parse_unlinked {code : Text} {mod : VMModule} (run : parse library name code = .ok (some mod)) : mod.Unlinked name := by
  unfold parse at run
  split at run
  · rename_i sections read
    have kept := readSections_kept (fun sections => (∀ type ∈ sections.typeDefines, type.Unlinked) ∧
      ∀ function ∈ sections.functions, function.Unlinked) ?_ read ⟨by simp, by simp⟩
    · rw [← Option.some.inj (Except.ok.inj run)]
      exact ⟨rfl, kept.1, kept.2⟩
    · rintro sections line code sections' left ⟨types, functions⟩ pass
      unfold readSection at pass
      split at pass
      · obtain ⟨_, _, same⟩ := bind_eq_ok.mp pass
        rw [← (Prod.mk.inj (Except.ok.inj same)).1]
        exact ⟨types, functions⟩
      · split at pass
        · obtain ⟨_, _, same⟩ := bind_eq_ok.mp pass
          rw [← (Prod.mk.inj (Except.ok.inj same)).1]
          exact ⟨types, functions⟩
        · split at pass
          · obtain ⟨_, read, same⟩ := bind_eq_ok.mp pass
            rw [← (Prod.mk.inj (Except.ok.inj same)).1]
            exact ⟨parseTypeDefine_unlinked read, functions⟩
          · split at pass
            · obtain ⟨_, _, same⟩ := bind_eq_ok.mp pass
              rw [← (Prod.mk.inj (Except.ok.inj same)).1]
              exact ⟨types, functions⟩
            · split at pass
              · obtain ⟨_, read, same⟩ := bind_eq_ok.mp pass
                rw [← (Prod.mk.inj (Except.ok.inj same)).1]
                refine ⟨types, fun function member => ?_⟩
                obtain ⟨lines, made⟩ := parseFunction_lines read member
                exact ⟨made, _, lines⟩
              · rw [← (Prod.mk.inj (Except.ok.inj pass)).1]
                exact ⟨types, functions⟩
  · exact absurd run (by simp)
  · exact absurd run (by simp)

/-- What the parser says of a function. -/
structure FunctionParts where
  name : Text
  variablesSize : Nat
  registersSize : Nat
  labelBlocks : List LabelBlock
  returnTypeInfo : ArgumentInfo
  argumentTypeInfos : List ArgumentInfo
  deriving DecidableEq

/-- What the parser says of a module. -/
structure ModuleParts where
  constValues : List ConstValue
  importModuleNames : List Text
  typeDefines : List VMType
  usingTypeInfos : List TypeInfo
  functions : List FunctionParts
  deriving DecidableEq

def VMFunction.parts (function : VMFunction) : FunctionParts :=
  ⟨function.name, function.variablesSize, function.registersSize, function.labelBlocks, function.returnTypeInfo,
    function.argumentTypeInfos⟩

def VMModule.parts (mod : VMModule) : ModuleParts :=
  ⟨mod.constValues, mod.importModuleNames, mod.typeDefines, mod.usingTypeInfos, mod.functions.map (·.parts)⟩

def FunctionParts.function (parts : FunctionParts) : VMFunction :=
  .make parts.name parts.variablesSize parts.registersSize parts.labelBlocks parts.returnTypeInfo parts.argumentTypeInfos

def ModuleParts.module (name : Text) (parts : ModuleParts) : VMModule :=
  .make name parts.constValues parts.importModuleNames parts.typeDefines parts.usingTypeInfos
    (parts.functions.map (·.function))

/-- A module as the parser makes it is made of its parts. -/
theorem VMModule.Unlinked.module_parts {mod : VMModule} (unlinked : mod.Unlinked name) : mod.parts.module name = mod := by
  have functions : (mod.functions.map (·.parts)).map (·.function) = mod.functions := by
    rw [List.map_map]
    exact (List.map_congr_left fun function member => (unlinked.functions function member).made.symm).trans
      (List.map_id _)
  rw [ModuleParts.module, VMModule.parts, functions]
  exact unlinked.made.symm

/-- The parts of what `parse` returns. -/
def parsedParts (library : StandardLibrary) (name code : Text) : Option ModuleParts :=
  match parse library name code with
  | .ok (some mod) => some mod.parts
  | _ => none

theorem parse_parts {code : Text} {parts : ModuleParts} (run : parsedParts library name code = some parts) :
    parse library name code = .ok (some (parts.module name)) := by
  unfold parsedParts at run
  split at run
  · rename_i mod parsed
    rw [parsed, ← Option.some.inj run, (parse_unlinked parsed).module_parts]
  · exact absurd run (by simp)

end Parser
end CatLa
