import CatLa.Parser.ConstCursor
import CatLa.Parser.ModuleText

namespace CatLa
open Outcome Pattern

/-- What the parser asks of a part of a line. -/
inductive Check
  /-- The text is given to `stoull`. -/
  | number (text : Text)
  /-- The constant with this index is read as a string. -/
  | constant (text : Text)
  /-- The part is known, or a `ParseException` is thrown. -/
  | word (known : Bool)
  /-- `args[k]` is read without a look at the size of `args`. -/
  | operand (given : Bool)
  /-- A vector is constructed, for as many elements as the largest index says. -/
  | vector (provided : Bool)

def Check.run (constValues : List ConstValue) : Check → Except ParseFailure Unit
  | number text => (stoull text).map fun _ => ()
  | constant text => (stoull text >>= getConstValueAsString constValues).map fun _ => ()
  | word known => if known then .ok () else .error .parseException
  | operand given => if given then .ok () else .error .undefined
  | vector provided => if provided then .ok () else .error .badAlloc

/-- The checks of a line, up to the first one that fails. -/
def checked (constValues : List ConstValue) : List Check → Except ParseFailure Unit
  | [] => .ok ()
  | check :: checks => check.run constValues >>= fun _ => checked constValues checks

/-- The computation ends as its checks do. -/
def Makes {α : Type} (constValues : List ConstValue) (checks : List Check) (m : Except ParseFailure α) : Prop :=
  Agree (fun _ _ => True) m (checked constValues checks)

section Checks
variable {α β : Type} {constValues : List ConstValue} {checks checks' : List Check} {m : Except ParseFailure α}

theorem checked_append (checks checks' : List Check) :
    checked constValues (checks ++ checks') = checked constValues checks >>= fun _ => checked constValues checks' := by
  induction checks with
  | nil => rfl
  | cons check checks ih =>
    rw [List.cons_append, checked, checked, ih]
    cases check.run constValues <;> rfl

theorem checked_single (check : Check) : checked constValues [check] = check.run constValues := by
  rw [checked]
  cases check.run constValues <;> rfl

theorem Makes.done (a : α) : Makes constValues [] (.ok a) := trivial

theorem Makes.bind {f : α → Except ParseFailure β} (first : Makes constValues checks m)
    (rest : ∀ a, m = .ok a → Makes constValues checks' (f a)) : Makes constValues (checks ++ checks') (m >>= f) := by
  rw [Makes, checked_append]
  exact Agree.bind first fun a _ run _ => rest a run

theorem Makes.last (made : Makes constValues checks m) (g : α → β) : Makes constValues checks (m >>= fun a => .ok (g a)) := by
  rw [← List.append_nil checks]
  exact made.bind fun a _ => .done (g a)

theorem Makes.map (made : Makes constValues checks m) (g : α → β) : Makes constValues checks (m.map g) := by
  have same : m.map g = m >>= fun a => .ok (g a) := by cases m <;> rfl
  exact same ▸ made.last g

theorem Makes.mapM {ι : Type} {f : ι → Except ParseFailure α} {xs : List ι} {each : ι → List Check}
    (made : ∀ x ∈ xs, Makes constValues (each x) (f x)) : Makes constValues (xs.flatMap each) (xs.mapM f) := by
  induction xs with
  | nil => trivial
  | cons x xs ih =>
    rw [List.flatMap_cons, List.mapM_cons]
    exact (made x List.mem_cons_self).bind fun y _ =>
      (ih fun z member => made z (List.mem_cons_of_mem x member)).last fun ys => y :: ys

theorem makes_number (text : Text) : Makes constValues [.number text] (stoull text) := by
  rw [Makes, checked_single, Check.run]
  cases stoull text <;> trivial

theorem makes_constant {text : Text} {k : Nat} (read : stoull text = .ok k) :
    Makes constValues [.constant text] (getConstValueAsString constValues k) := by
  rw [Makes, checked_single, Check.run, read, ok_bind]
  cases getConstValueAsString constValues k <;> trivial

/-- An index, and the constant under it. -/
theorem makes_named (text : Text) :
    Makes constValues [.number text, .constant text] (stoull text >>= getConstValueAsString constValues) :=
  (makes_number text).bind fun _ read => makes_constant read

theorem Makes.number {text : Text} {f : Nat → Except ParseFailure α} (rest : ∀ n, Makes constValues checks (f n)) :
    Makes constValues (.number text :: checks) (stoull text >>= f) :=
  (makes_number text).bind fun n _ => rest n

theorem Makes.named {text : Text} {f : Text → Except ParseFailure α} (rest : ∀ name, Makes constValues checks (f name)) :
    Makes constValues (.number text :: .constant text :: checks) (stoull text >>= getConstValueAsString constValues >>= f) :=
  (makes_named text).bind fun name _ => rest name

theorem makes_word {known : Bool} (accepted : known = true → ∃ a, m = .ok a) (refused : known = false → m = .error .parseException) :
    Makes constValues [.word known] m := by
  rw [Makes, checked_single, Check.run]
  cases known with
  | true =>
    obtain ⟨a, rfl⟩ := accepted rfl
    trivial
  | false => exact refused rfl ▸ rfl

theorem makes_exception : Makes constValues [.word false] (.error .parseException : Except ParseFailure α) := rfl

end Checks

/-- `type` is the name of a primitive type. -/
def isPrimitiveType (type : Text) : Bool := (allTypes.find? (·.name = cString type)).isSome

def argumentTypeChecks (type : Text) : List Check :=
  match fullMatch [.literal ['t', 'y', 'p', 'e', '#'], digits] type with
  | some [number] => [.number number]
  | _ => [.word (isPrimitiveType type)]

def registerChecks (str : Text) : List Check :=
  match fullMatch [.group (.either [['r', 'e', 'g'], ['v', 'a', 'r']]), .literal ['#'], digits] str with
  | some [_, number] => [.number number]
  | _ => [.word (str = ['@', 'v', 'o', 'i', 'd'])]

/-- The number of an index that may have a word before it. -/
def indexNumber (word str : Text) : Option Text :=
  match fullMatch [.literal (word ++ ['#']), digits] str, fullMatch [digits] str with
  | some [number], _ => some number
  | none, some [number] => some number
  | _, _ => none

def indexChecks (word str : Text) : List Check :=
  match indexNumber word str with
  | some number => [.number number]
  | none => [.word false]

/-- A constant that is named by such an index. -/
def namedChecks (word str : Text) : List Check :=
  match indexNumber word str with
  | some number => [.number number, .constant number]
  | none => [.word false]

/-- The checks of `parse_order`. The third operand of `iadd` is read without one. -/
def orderChecks (assignmentRegister : Nat) (orderName : Text) (args : List Text) : List Check :=
  if assignmentRegister = SIZE_MAX then
    if orderName = jumpToName then [.word (args ≠ [])]
    else if orderName = retName then
      match args with
      | register :: _ => registerChecks register
      | [] => [.word false]
    else if orderName = setFieldName then
      match args with
      | parent :: fieldObject :: lock :: type :: const :: _ =>
        registerChecks parent ++ (registerChecks fieldObject ++ ([.word (lock = boolText true ∨ lock = boolText false)] ++
          (indexChecks ['t', 'y', 'p', 'e'] type ++ namedChecks ['c', 'o', 'n', 's', 't'] const)))
      | _ => [.word false]
    else [.word false]
  else if orderName = constName then
    match args with
    | type :: index :: _ => [.word (isPrimitiveType type), .number index]
    | _ => [.word false]
  else if orderName = argName then
    match args with
    | index :: _ => [.number index]
    | [] => [.word false]
  else if orderName = iaddName then
    match args with
    | type :: leftRegister :: more =>
      [.word (isPrimitiveType type)] ++ (registerChecks leftRegister ++
        match more with
        | rightRegister :: _ => registerChecks rightRegister
        | [] => [.operand false])
    | _ => [.word false]
  else [.word false]

section Orders
variable {constValues : List ConstValue}

theorem makes_primitiveType (type : Text) : Makes constValues [.word (isPrimitiveType type)] (parsePrimitiveType type) := by
  rw [parsePrimitiveType, isPrimitiveType]
  cases allTypes.find? (·.name = cString type) with
  | none => exact makes_exception
  | some known => exact makes_word (fun _ => ⟨known, rfl⟩) (by simp)

theorem makes_argumentType (type : Text) : Makes constValues (argumentTypeChecks type) (parseArgumentType type) := by
  unfold argumentTypeChecks parseArgumentType
  generalize fullMatch _ type = matched
  rcases matched with _ | _ | ⟨number, _ | _⟩
  case some.cons.nil => exact (makes_number number).last _
  all_goals exact (makes_primitiveType type).last _

theorem makes_register (str : Text) : Makes constValues (registerChecks str) (parseRegisterOrVariableNumber str) := by
  have void : Makes constValues [.word (str = ['@', 'v', 'o', 'i', 'd'])]
      (if str = ['@', 'v', 'o', 'i', 'd'] then .ok SIZE_MAX else .error .parseException) := by
    split
    · rename_i same
      exact makes_word (fun _ => ⟨SIZE_MAX, rfl⟩) (by simp [same])
    · rename_i other
      exact makes_word (by simp [other]) fun _ => rfl
  unfold registerChecks parseRegisterOrVariableNumber
  generalize fullMatch _ str = matched
  rcases matched with _ | _ | ⟨_, _ | ⟨number, _ | _⟩⟩
  case some.cons.cons.nil => exact makes_number number
  all_goals exact void

theorem parseIndex_eq (word str : Text) :
    parseIndex word str = match indexNumber word str with
      | some number => stoull number
      | none => .error .parseException := by
  unfold parseIndex indexNumber
  generalize fullMatch [.literal (word ++ ['#']), digits] str = first
  generalize fullMatch [digits] str = second
  rcases first with _ | _ | ⟨_, _ | _⟩ <;> rcases second with _ | _ | ⟨_, _ | _⟩ <;> rfl

theorem makes_index (word str : Text) : Makes constValues (indexChecks word str) (parseIndex word str) := by
  rw [parseIndex_eq, indexChecks]
  cases indexNumber word str with
  | some number => exact makes_number number
  | none => exact makes_exception

theorem makes_namedIndex (word str : Text) :
    Makes constValues (namedChecks word str) (parseIndex word str >>= getConstValueAsString constValues) := by
  rw [parseIndex_eq, namedChecks]
  cases indexNumber word str with
  | some number => exact makes_named number
  | none => exact makes_exception

theorem makes_bool (str : Text) : Makes constValues [.word (str = boolText true ∨ str = boolText false)] (parseBool str) := by
  by_cases yes : str = ['t', 'r', 'u', 'e']
  · exact makes_word (fun _ => ⟨true, if_pos yes⟩) (by simp [boolText, yes])
  · by_cases no : str = ['f', 'a', 'l', 's', 'e']
    · exact makes_word (fun _ => ⟨false, (if_neg yes).trans (if_pos no)⟩) (by simp [boolText, no])
    · exact makes_word (by simp [boolText, yes, no]) fun _ => (if_neg yes).trans (if_neg no)

theorem makes_order (assignmentRegister : Nat) (orderName : Text) (args : List Text) :
    Makes constValues (orderChecks assignmentRegister orderName args)
      (parseOrder constValues assignmentRegister orderName args) := by
  unfold orderChecks parseOrder
  split
  · split
    · cases args with
      | nil => exact makes_exception
      | cons labelName args => exact makes_word (fun _ => ⟨_, rfl⟩) (by simp)
    · split
      · cases args with
        | nil => exact makes_exception
        | cons register args => exact (makes_register register).last _
      · split
        · rcases args with _ | ⟨parent, _ | ⟨fieldObject, _ | ⟨lock, _ | ⟨type, _ | ⟨const, more⟩⟩⟩⟩⟩
          case cons.cons.cons.cons.cons =>
            refine (makes_register parent).bind fun parent _ => (makes_register fieldObject).bind fun fieldObject _ =>
              (makes_bool lock).bind fun lock _ => (makes_index _ type).bind fun type _ => ?_
            have named := (@makes_namedIndex constValues ['c', 'o', 'n', 's', 't'] const).last
              fun fieldName => Order.setObjectFieldOwnership parent fieldObject type fieldName 0 lock
            rw [bind_assoc] at named
            exact named
          all_goals exact makes_exception
        · exact makes_exception
  · split
    · rcases args with _ | ⟨type, _ | ⟨index, more⟩⟩
      case cons.cons => exact (makes_primitiveType type).bind fun type _ => (makes_number index).last _
      all_goals exact makes_exception
    · split
      · cases args with
        | nil => exact makes_exception
        | cons index args => exact (makes_number index).last _
      · split
        · rcases args with _ | ⟨type, _ | ⟨leftRegister, more⟩⟩
          case cons.cons =>
            refine (makes_primitiveType type).bind fun type _ => (makes_register leftRegister).bind fun left _ => ?_
            cases more with
            | nil => rfl
            | cons rightRegister more => exact (makes_register rightRegister).last _
          all_goals exact makes_exception
        · exact makes_exception

end Orders

/-- The lines that are read one by one, and the header of a function. -/
inductive LineKind
  | importLine
  | typeDefine
  | usingType
  | function
  | label
  | order

def importChecks (line : Text) : List Check :=
  match fullMatch [digits, .literal [':'], wordCharacters, .literal ['#'], digits] line with
  | some [indexText, target, targetIndexText] =>
    .number indexText :: .number targetIndexText :: if target = constName then [.constant targetIndexText] else []
  | _ =>
    match fullMatch [digits, .literal [':', 't', 'h', 'i', 's']] line with
    | some [indexText] => [.number indexText]
    | _ => [.word false]

def fieldChecks (field : Text) : List Check :=
  match fullMatch [digits, .literal [':'], wordCharacters] field with
  | some [_, type] => [.word (isPrimitiveType type)]
  | _ =>
    match fullMatch [digits, .literal [':'], digits, .literal [':'], digits] field with
    | some [_, importIndexText, typeNameIndex] => [.number importIndexText, .number typeNameIndex, .constant typeNameIndex]
    | _ => [.word false]

def typeDefineChecks (line : Text) : List Check :=
  let fields : Piece Char := .group (.repeated 0 LineCharacter)
  match fullMatch [digits, .literal [':', '('], fields, .literal [')', ':'], digits, .literal [':'], digits] line with
  | some [nameIndex, fields, importIndexText, parentNameIndex] =>
    .number nameIndex :: .constant nameIndex :: .number importIndexText :: .number parentNameIndex ::
      .constant parentNameIndex :: (commaTokens fields).flatMap fieldChecks
  | _ =>
    match fullMatch [digits, .literal [':', '('], fields, .literal [')']] line with
    | some [nameIndex, fields] => .number nameIndex :: .constant nameIndex :: (commaTokens fields).flatMap fieldChecks
    | _ => [.word false]

def usingTypeChecks (line : Text) : List Check :=
  match fullMatch [digits, .literal [':'], digits, .literal [':'], digits] line with
  | some [indexText, importIndexText, _] => [.number indexText, .number importIndexText]
  | _ => [.word false]

def argumentsChecks : List Text → List Check
  | [] => []
  | arg :: args =>
    match fullMatch [digits, .literal [':'], .group (.repeated 1 LineCharacter)] arg with
    | some [index, type] => .number index :: (argumentTypeChecks type ++ argumentsChecks args)
    | _ => if arg = [] then [] else [.word false]

/-- The indices of the arguments. -/
def argumentIndices (args : Text) : List Nat :=
  match readArguments [] (commaTokens args) with
  | .ok argMap => argMap.map Prod.fst
  | .error _ => []

def functionChecks (library : StandardLibrary) (line : Text) : List Check :=
  match fullMatch functionHeader line with
  | some [indexText, nameIndex, variablesText, registersText, args, returnType] =>
    .number indexText :: .number nameIndex :: .constant nameIndex :: .number variablesText :: .number registersText ::
      (argumentsChecks (commaTokens args) ++ (argumentTypeChecks returnType ++
        [.vector (vectorProvided library sizeofArgumentInfo (argumentIndices args)),
          .word (readArguments [] (commaTokens args) >>= tableOf library sizeofArgumentInfo).isOk]))
  | _ => [.word false]

def labelChecks (line : Text) : List Check :=
  match fullMatch [.literal ['l', 'a', 'b', 'e', 'l', ':'], wordCharacters] line with
  | some [_] => []
  | _ => [.word false]

def orderTextChecks (assignmentRegister : Nat) (orderText : Text) : List Check :=
  orderChecks assignmentRegister ((commaTokens orderText).headD []) ((commaTokens orderText).drop 1)

def orderLineChecks (line : Text) : List Check :=
  match fullMatch assignment line with
  | some [register, orderText] =>
    registerChecks register ++
      match parseRegisterOrVariableNumber register with
      | .ok assignmentRegister => orderTextChecks assignmentRegister orderText
      | .error _ => []
  | _ => orderTextChecks SIZE_MAX line

/-- The checks of a line, in the order in which they are made. -/
def LineKind.checks (library : StandardLibrary) : LineKind → Text → List Check
  | importLine => importChecks
  | typeDefine => typeDefineChecks
  | usingType => usingTypeChecks
  | function => functionChecks library
  | label => labelChecks
  | order => orderLineChecks

/-- A table ends well exactly if it is constructed. -/
theorem tableOf_ends {π : Type} {library : StandardLibrary} {sizeofElement : Nat} (map : List (Nat × π)) :
    Ends (· = .parseException) (fun _ => True) (tableOf library sizeofElement map) ↔
      vectorProvided library sizeofElement (map.map Prod.fst) = true := by
  rw [tableOf]
  split
  · rename_i provided
    refine iff_of_true (Ends.mapM fun i _ => ?_) provided
    split
    · trivial
    · rfl
  · rename_i refused
    exact iff_of_false (by simp [Ends]) refused

section Lines
variable {library : StandardLibrary} {constValues : List ConstValue}

theorem makes_import (moduleName : Text) (map : List (Nat × Text)) (line : Text) :
    Makes constValues (importChecks line) (readImport moduleName constValues map line) := by
  unfold importChecks readImport
  generalize fullMatch [digits, .literal [':'], wordCharacters, .literal ['#'], digits] line = written
  generalize fullMatch _ line = itself
  have plain : Makes constValues (match itself with
      | some [indexText] => [.number indexText]
      | _ => [.word false]) (match itself with
      | some [indexText] => do
        let index ← stoull indexText
        .ok ((index, moduleName) :: map)
      | _ => .error .parseException) := by
    rcases itself with _ | _ | ⟨indexText, _ | _⟩
    case some.cons.nil => exact (makes_number indexText).last _
    all_goals exact makes_exception
  rcases written with _ | _ | ⟨indexText, _ | ⟨target, _ | ⟨targetIndexText, _ | _⟩⟩⟩
  case some.cons.cons.cons.nil =>
    by_cases named : target = constName
    · simp only [if_pos named]
      exact .number fun index => (makes_number targetIndexText).bind fun targetIndex read => (makes_constant read).last _
    · simp only [if_neg named]
      exact .number fun index => (makes_number targetIndexText).last _
  all_goals exact plain

theorem makes_field (field : Text) : Makes constValues (fieldChecks field) (readField constValues field) := by
  unfold fieldChecks readField
  generalize fullMatch [digits, .literal [':'], wordCharacters] field = primitive
  generalize fullMatch _ field = named
  have other : Makes constValues (match named with
      | some [_, importIndexText, typeNameIndex] =>
        [.number importIndexText, .number typeNameIndex, .constant typeNameIndex]
      | _ => [.word false]) (match named with
      | some [fieldName, importIndexText, typeNameIndex] => do
        let importIndex ← stoull importIndexText
        let typeName ← stoull typeNameIndex >>= getConstValueAsString constValues
        .ok (⟨fieldName, none, ⟨importIndex, typeName⟩⟩ : FieldInfo)
      | _ => .error .parseException) := by
    rcases named with _ | _ | ⟨fieldName, _ | ⟨importIndexText, _ | ⟨typeNameIndex, _ | _⟩⟩⟩
    case some.cons.cons.cons.nil => exact .number fun importIndex => .named fun typeName => .done _
    all_goals exact makes_exception
  rcases primitive with _ | _ | ⟨fieldName, _ | ⟨type, _ | _⟩⟩
  case some.cons.cons.nil => exact (makes_primitiveType type).last _
  all_goals exact other

theorem makes_type (nameIndex fields : Text) {checks : List Check} {parentInfo : Except ParseFailure (Option TypeInfo)}
    (parent : Makes constValues checks parentInfo) :
    Makes constValues (.number nameIndex :: .constant nameIndex :: (checks ++ (commaTokens fields).flatMap fieldChecks))
      (readType constValues nameIndex fields parentInfo) :=
  .named fun _ => parent.bind fun _ _ => (Makes.mapM fun field _ => makes_field field).last _

theorem makes_typeDefine (types : List VMType) (line : Text) :
    Makes constValues (typeDefineChecks line) (readTypeDefine constValues types line) := by
  unfold typeDefineChecks readTypeDefine
  dsimp only
  generalize fullMatch [digits, .literal [':', '('], .group (.repeated 0 LineCharacter), .literal [')', ':'], digits,
    .literal [':'], digits] line = derived
  generalize fullMatch _ line = plain
  have alone : Makes constValues (match plain with
      | some [nameIndex, fields] => .number nameIndex :: .constant nameIndex :: (commaTokens fields).flatMap fieldChecks
      | _ => [.word false]) (match plain with
      | some [nameIndex, fields] => do
        let type ← readType constValues nameIndex fields (.ok none)
        .ok (types ++ [type])
      | _ => .error .parseException) := by
    rcases plain with _ | _ | ⟨nameIndex, _ | ⟨fields, _ | _⟩⟩
    case some.cons.cons.nil => exact (makes_type nameIndex fields (.done _)).last _
    all_goals exact makes_exception
  rcases derived with _ | _ | ⟨nameIndex, _ | ⟨fields, _ | ⟨importIndexText, _ | ⟨parentNameIndex, _ | _⟩⟩⟩⟩
  case some.cons.cons.cons.cons.nil =>
    have parent : Makes constValues [.number importIndexText, .number parentNameIndex, .constant parentNameIndex]
        (stoull importIndexText >>= fun importIndex => stoull parentNameIndex >>= getConstValueAsString constValues >>=
          fun typeName => .ok (some (⟨importIndex, typeName⟩ : TypeInfo))) :=
      .number fun importIndex => .named fun typeName => .done _
    exact (makes_type nameIndex fields parent).last _
  all_goals exact alone

theorem makes_usingType (map : List (Nat × TypeInfo)) (line : Text) :
    Makes constValues (usingTypeChecks line) (readUsingType map line) := by
  unfold usingTypeChecks readUsingType
  generalize fullMatch _ line = matched
  rcases matched with _ | _ | ⟨indexText, _ | ⟨importIndexText, _ | ⟨typeName, _ | _⟩⟩⟩
  case some.cons.cons.cons.nil => exact .number fun index => (makes_number importIndexText).last _
  all_goals exact makes_exception

theorem makes_arguments (argMap : List (Nat × ArgumentInfo)) (args : List Text) :
    Makes constValues (argumentsChecks args) (readArguments argMap args) := by
  induction args generalizing argMap with
  | nil => exact .done argMap
  | cons arg args ih =>
    unfold argumentsChecks readArguments
    generalize fullMatch _ arg = matched
    have other : Makes constValues (if arg = [] then [] else [.word false])
        (if arg = [] then .ok argMap else .error .parseException) := by
      split
      · exact .done argMap
      · exact makes_exception
    rcases matched with _ | _ | ⟨index, _ | ⟨type, _ | _⟩⟩
    case some.cons.cons.nil => exact .number fun argIndex => (makes_argumentType type).bind fun typeInfo _ => ih _
    all_goals exact other

theorem makes_orderLine (line : Text) : Makes constValues (orderLineChecks line) (parseOrderLine constValues line) := by
  unfold orderLineChecks parseOrderLine
  generalize fullMatch _ line = matched
  rcases matched with _ | _ | ⟨register, _ | ⟨orderText, _ | _⟩⟩
  case some.cons.cons.nil =>
    refine (makes_register register).bind fun assignmentRegister read => ?_
    rw [read]
    exact makes_order _ _ _
  all_goals exact makes_order _ _ _

theorem makes_table {sizeofElement : Nat} {π : Type} (map : List (Nat × π)) :
    Makes constValues [.vector (vectorProvided library sizeofElement (map.map Prod.fst)),
      .word (tableOf library sizeofElement map).isOk] (tableOf library sizeofElement map) := by
  rw [Makes, checked, Check.run]
  by_cases provided : vectorProvided library sizeofElement (map.map Prod.fst) = true
  · have ends := (tableOf_ends map).mpr provided
    rw [provided, if_pos rfl, ok_bind, checked_single, Check.run]
    cases made : tableOf library sizeofElement map with
    | ok values => trivial
    | error failure =>
      rw [made] at ends
      exact ends
  · rw [tableOf, if_neg provided, if_neg provided]
    rfl

/-- A computation that goes on behind its checks. -/
theorem Makes.before {α β γ : Type} {checks checks' : List Check} {m : Except ParseFailure α} {f : α → Except ParseFailure β}
    {g : Except ParseFailure γ} (first : Makes constValues checks m)
    (rest : ∀ a, m = .ok a → Agree (fun _ _ => True) (f a) (checked constValues checks' >>= fun _ => g)) :
    Agree (fun _ _ => True) (m >>= f) (checked constValues (checks ++ checks') >>= fun _ => g) := by
  rw [checked_append, bind_assoc]
  exact Agree.bind first fun a _ run _ => rest a run

/-- A function is read where the checks of its header pass. -/
theorem readFunction_agrees (map : List (Nat × VMFunction)) (line code : Text) :
    Agree (fun _ _ => True) (readFunction library constValues map line code)
      (checked constValues (functionChecks library line) >>= fun _ => parseLabelBlocks constValues code) := by
  unfold functionChecks readFunction
  generalize fullMatch _ line = matched
  rcases matched with
    _ | _ | ⟨indexText, _ | ⟨nameIndex, _ | ⟨variablesText, _ | ⟨registersText, _ | ⟨args, _ | ⟨returnType, _ | _⟩⟩⟩⟩⟩⟩
  case some.cons.cons.cons.cons.cons.cons.nil =>
    refine (makes_number indexText).before fun index _ => (makes_named nameIndex).before fun name _ =>
      (makes_number variablesText).before fun variablesSize _ => (makes_number registersText).before fun registersSize _ =>
      (makes_arguments [] _).before fun argMap read => (makes_argumentType returnType).before fun returnTypeInfo _ => ?_
    rw [argumentIndices, read, ok_bind]
    have table := @makes_table library constValues sizeofArgumentInfo _ argMap
    refine @Makes.before constValues _ _ _ [_, _] [] _ _ _ table fun argumentTypes _ => ?_
    rw [checked, ok_bind]
    cases parseLabelBlocks constValues code <;> trivial
  all_goals rfl

end Lines
end CatLa
