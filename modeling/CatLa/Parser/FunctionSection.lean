import Mathlib.Data.List.Forall2
import CatLa.Parser.ConstSection
import CatLa.Parser.OrderLine

namespace CatLa
open Outcome Pattern

/-- `parse_argument_type`. -/
def parseArgumentType (type : Text) : Except ParseFailure ArgumentInfo :=
  match fullMatch [.literal ['t', 'y', 'p', 'e', '#'], digits] type with
  | some [number] => do
    let typeIndex ← stoull number
    .ok ⟨none, typeIndex⟩
  | _ => do
    let primitiveType ← parsePrimitiveType type
    .ok ⟨some primitiveType, 0⟩

def labelEnd : Text := ['l', 'a', 'b', 'e', 'l', ':', 'e', 'n', 'd']

section Parser
variable (library : StandardLibrary) (constValues : List ConstValue)

/-- `parse_orders`. -/
def parseOrders (code : Text) : Except ParseFailure (List Order × Text) :=
  forLines labelEnd (.ofLine fun orders line => (parseOrderLine constValues line).map fun order => orders ++ [order]) [] code

/-- A block of `parse_label_blocks`, from the line with its name on. -/
def readLabelBlock (labelBlocks : List LabelBlock) (line code : Text) : Except ParseFailure (List LabelBlock × Text) :=
  match fullMatch [.literal ['l', 'a', 'b', 'e', 'l', ':'], wordCharacters] line with
  | some [labelName] => do
    let (orders, code) ← parseOrders constValues code
    .ok (labelBlocks ++ [⟨labelName, orders⟩], code)
  | _ => .error .parseException

theorem readLabelBlock_length {labelBlocks labelBlocks' : List LabelBlock} {line code left : Text}
    (run : readLabelBlock constValues labelBlocks line code = .ok (labelBlocks', left)) : left.length ≤ code.length := by
  unfold readLabelBlock at run
  split at run
  · obtain ⟨⟨orders, code'⟩, read, same⟩ := bind_eq_ok.mp run
    rw [← (Prod.mk.inj (Except.ok.inj same)).2]
    exact forLines_length read
  · exact absurd run (by simp)

/-- `parse_label_blocks`. -/
def parseLabelBlocks (code : Text) : Except ParseFailure (List LabelBlock × Text) :=
  forLines ['\x7d'] ⟨readLabelBlock constValues, readLabelBlock_length constValues⟩ [] code

/-- The loop over the arguments of a function. An empty one ends it. -/
def readArguments (argMap : List (Nat × ArgumentInfo)) : List Text → Except ParseFailure (List (Nat × ArgumentInfo))
  | [] => .ok argMap
  | arg :: args =>
    match fullMatch [digits, .literal [':'], .group (.repeated 1 LineCharacter)] arg with
    | some [index, type] => do
      let argIndex ← stoull index
      let typeInfo ← parseArgumentType type
      readArguments ((argIndex, typeInfo) :: argMap) args
    | _ => if arg = [] then .ok argMap else .error .parseException

/-- `INFO_REG` of `parse_function`. -/
def functionHeader : List (Piece Char) :=
  [digits, .literal [':'], digits, .literal [':', 'v', 'a', 'r', ':'], digits, .literal [':', 'r', 'e', 'g', ':'], digits,
    .literal ['('], .group (.repeated 0 LineCharacter), .literal [')', '-', '>'], .group (.repeated 1 LineCharacter),
    .literal ['\x7b']]

/-- `sizeof(ArgumentInfo)`. -/
def sizeofArgumentInfo : Nat := 16

/-- `sizeof(Function*)`. -/
def sizeofPointer : Nat := 8

/-- A function of `parse_function`, from its header on. -/
def readFunction (functionMap : List (Nat × VMFunction)) (line code : Text) :
    Except ParseFailure (List (Nat × VMFunction) × Text) :=
  match fullMatch functionHeader line with
  | some [indexText, nameIndex, variablesText, registersText, args, returnType] => do
    let index ← stoull indexText
    let name ← stoull nameIndex >>= getConstValueAsString constValues
    let variablesSize ← stoull variablesText
    let registersSize ← stoull registersText
    let argMap ← readArguments [] (commaTokens args)
    let returnTypeInfo ← parseArgumentType returnType
    let argumentTypes ← tableOf library sizeofArgumentInfo argMap
    let (labelBlocks, code) ← parseLabelBlocks constValues code
    .ok ((index, .make name variablesSize registersSize labelBlocks returnTypeInfo argumentTypes) :: functionMap, code)
  | _ => .error .parseException

theorem readFunction_length {functionMap functionMap' : List (Nat × VMFunction)} {line code left : Text}
    (run : readFunction library constValues functionMap line code = .ok (functionMap', left)) : left.length ≤ code.length := by
  unfold readFunction at run
  split at run
  · obtain ⟨index, _, run⟩ := bind_eq_ok.mp run
    obtain ⟨name, _, run⟩ := bind_eq_ok.mp run
    obtain ⟨variablesSize, _, run⟩ := bind_eq_ok.mp run
    obtain ⟨registersSize, _, run⟩ := bind_eq_ok.mp run
    obtain ⟨argMap, _, run⟩ := bind_eq_ok.mp run
    obtain ⟨returnTypeInfo, _, run⟩ := bind_eq_ok.mp run
    obtain ⟨argumentTypes, _, run⟩ := bind_eq_ok.mp run
    obtain ⟨⟨labelBlocks, code'⟩, read, same⟩ := bind_eq_ok.mp run
    rw [← (Prod.mk.inj (Except.ok.inj same)).2]
    exact forLines_length read
  · exact absurd run (by simp)

/-- `parse_function`. -/
def parseFunction (code : Text) : Except ParseFailure (List VMFunction × Text) := do
  let (functionMap, code) ← forLines END ⟨readFunction library constValues, readFunction_length library constValues⟩ [] code
  let functions ← tableOf library sizeofPointer functionMap
  .ok (functions, code)

variable {library constValues}

/-- The orders of these blocks, line by line. -/
def ReadFrom (constValues : List ConstValue) : List (List Text) → List LabelBlock → Prop :=
  List.Forall₂ fun lines block => List.Forall₂ (fun line order => parseOrderLine constValues line = .ok order) lines block.orders

theorem parseOrders_lines {code left : Text} {orders : List Order} (run : parseOrders constValues code = .ok (orders, left)) :
    ∃ lines, List.Forall₂ (fun line order => parseOrderLine constValues line = .ok order) lines orders := by
  refine forLines_kept (fun orders => ∃ lines, List.Forall₂ (fun line order => parseOrderLine constValues line = .ok order)
    lines orders) ?_ run ⟨[], .nil⟩
  rintro orders line code orders' left ⟨lines, read⟩ pass
  obtain ⟨_, step, same⟩ := map_eq_ok.mp pass
  obtain ⟨order, parsed, appended⟩ := map_eq_ok.mp step
  obtain rfl := appended.trans (Prod.mk.inj same).1
  exact ⟨lines ++ [line], List.rel_append read (.cons parsed .nil)⟩

theorem parseLabelBlocks_lines {code left : Text} {labelBlocks : List LabelBlock}
    (run : parseLabelBlocks constValues code = .ok (labelBlocks, left)) : ∃ lines, ReadFrom constValues lines labelBlocks := by
  refine forLines_kept (fun labelBlocks => ∃ lines, ReadFrom constValues lines labelBlocks) ?_ run ⟨[], .nil⟩
  rintro labelBlocks line code labelBlocks' left ⟨lines, read⟩ pass
  change readLabelBlock constValues labelBlocks line code = _ at pass
  unfold readLabelBlock at pass
  split at pass
  · obtain ⟨⟨orders, code'⟩, parsed, same⟩ := bind_eq_ok.mp pass
    obtain ⟨block, shown⟩ := parseOrders_lines parsed
    rw [← (Prod.mk.inj (Except.ok.inj same)).1]
    exact ⟨lines ++ [block], List.rel_append read (.cons shown .nil)⟩
  · exact absurd pass (by simp)

/-- A function as `parse_function` reads it. -/
theorem parseFunction_lines {code left : Text} {functions : List VMFunction} {function : VMFunction}
    (run : parseFunction library constValues code = .ok (functions, left)) (member : function ∈ functions) :
    (∃ lines, ReadFrom constValues lines function.labelBlocks) ∧
      function = .make function.name function.variablesSize function.registersSize function.labelBlocks
        function.returnTypeInfo function.argumentTypeInfos := by
  obtain ⟨⟨functionMap, code'⟩, lines, run⟩ := bind_eq_ok.mp run
  obtain ⟨functions', table, same⟩ := bind_eq_ok.mp run
  obtain ⟨rfl, -⟩ := Prod.mk.inj (Except.ok.inj same)
  obtain ⟨i, entered⟩ := mem_of_tableOf table member
  refine forLines_kept (fun functionMap : List (Nat × VMFunction) => ∀ entry ∈ functionMap,
    (∃ lines, ReadFrom constValues lines entry.2.labelBlocks) ∧
      entry.2 = .make entry.2.name entry.2.variablesSize entry.2.registersSize entry.2.labelBlocks
        entry.2.returnTypeInfo entry.2.argumentTypeInfos) ?_ lines (by simp) (i, function) entered
  rintro before line code after left kept pass
  change readFunction library constValues before line code = _ at pass
  unfold readFunction at pass
  split at pass
  · obtain ⟨index, _, pass⟩ := bind_eq_ok.mp pass
    obtain ⟨name, _, pass⟩ := bind_eq_ok.mp pass
    obtain ⟨variablesSize, _, pass⟩ := bind_eq_ok.mp pass
    obtain ⟨registersSize, _, pass⟩ := bind_eq_ok.mp pass
    obtain ⟨argMap, _, pass⟩ := bind_eq_ok.mp pass
    obtain ⟨returnTypeInfo, _, pass⟩ := bind_eq_ok.mp pass
    obtain ⟨argumentTypes, _, pass⟩ := bind_eq_ok.mp pass
    obtain ⟨⟨labelBlocks, code'⟩, blocks, same⟩ := bind_eq_ok.mp pass
    rw [← (Prod.mk.inj (Except.ok.inj same)).1]
    exact List.forall_mem_cons.mpr ⟨⟨parseLabelBlocks_lines blocks, rfl⟩, kept⟩
  · exact absurd pass (by simp)

end Parser

inductive TypeSource
  | primitive (type : PrimitiveType)
  | userDefined (typeIndex : Nat)
  deriving DecidableEq

namespace TypeSource

def print : TypeSource → Text
  | primitive type => type.name
  | userDefined typeIndex => indexText ['t', 'y', 'p', 'e'] typeIndex

def info : TypeSource → ArgumentInfo
  | primitive type => ⟨some type, 0⟩
  | userDefined typeIndex => ⟨none, typeIndex⟩

def Written : TypeSource → Prop
  | primitive _ => True
  | userDefined typeIndex => typeIndex < SIZE_MAX

end TypeSource

structure BlockSource where
  labelName : Text
  orders : List OrderSource
  deriving DecidableEq

namespace BlockSource

def header (block : BlockSource) : Text := ['l', 'a', 'b', 'e', 'l', ':'] ++ block.labelName

/-- The lines of a block after its first one. -/
def body (block : BlockSource) : List Text := block.orders.map OrderSource.print ++ [labelEnd]

def labelBlock (block : BlockSource) : LabelBlock := ⟨block.labelName, block.orders.map OrderSource.order⟩

structure Written (constValues : List ConstValue) (block : BlockSource) : Prop where
  labelName : IsWord block.labelName
  orders : ∀ order ∈ block.orders, order.Written constValues

end BlockSource

structure FunctionSource where
  nameIndex : Nat
  name : Text
  variablesSize : Nat
  registersSize : Nat
  arguments : List TypeSource
  returnType : TypeSource
  blocks : List BlockSource
  deriving DecidableEq

namespace FunctionSource

def argumentTexts (function : FunctionSource) : List Text :=
  function.arguments.zipIdx.map fun argument => numeral argument.2 ++ ':' :: argument.1.print

def header (index : Nat) (function : FunctionSource) : Text :=
  numeral index ++ ':' :: (numeral function.nameIndex ++ ':' :: 'v' :: 'a' :: 'r' :: ':' ::
    (numeral function.variablesSize ++ ':' :: 'r' :: 'e' :: 'g' :: ':' :: (numeral function.registersSize ++ '(' ::
      ([','].intercalate function.argumentTexts ++ ')' :: '-' :: '>' :: (function.returnType.print ++ ['\x7b'])))))

/-- The lines of a function after its first one. -/
def body (function : FunctionSource) : List Text :=
  function.blocks.flatMap (fun block => block.header :: block.body) ++ [['\x7d']]

def vmFunction (function : FunctionSource) : VMFunction :=
  .make function.name function.variablesSize function.registersSize (function.blocks.map BlockSource.labelBlock)
    function.returnType.info (function.arguments.map TypeSource.info)

structure Written (constValues : List ConstValue) (function : FunctionSource) : Prop where
  nameIndex : function.nameIndex < SIZE_MAX
  name : NamesString constValues function.nameIndex function.name
  variablesSize : function.variablesSize < SIZE_MAX
  registersSize : function.registersSize < SIZE_MAX
  arguments : ∀ argument ∈ function.arguments, argument.Written
  returnType : function.returnType.Written
  blocks : ∀ block ∈ function.blocks, block.Written constValues

end FunctionSource

section RoundTrip
variable {library : StandardLibrary} {constValues : List ConstValue} {rest code : Text} {more : List Text}

theorem print_ne_nil (source : OrderSource) : source.print ≠ [] := by
  cases source <;> simp [OrderSource.print, OrderSource.assigned, OrderSource.args, registerText, indexText,
    List.intercalate_cons_of_ne_nil]

theorem print_ne_labelEnd {source : OrderSource} (written : source.Written constValues) : source.print ≠ labelEnd := fun same =>
  print_ne written (b := ':') (by decide) (same ▸ (by decide : ':' ∈ labelEnd)) rfl

theorem foldl_append_map {ι π : Type} (f : ι → π) (items : List ι) :
    items.foldl (fun built x => built ++ [f x]) [] = items.map f := by
  rw [List.foldl_append_eq_append, List.nil_append, ← List.flatMap_def, List.map_eq_flatMap]

theorem parseOrders_shows {orders : List OrderSource} (written : ∀ order ∈ orders, order.Written constValues)
    (shows : Shows rest (orders.map OrderSource.print ++ labelEnd :: more) code) :
    ∃ left, parseOrders constValues code = .ok (orders.map OrderSource.order, left) ∧ Shows rest more left := by
  rw [List.map_eq_flatMap] at shows
  rw [parseOrders, ← foldl_append_map OrderSource.order]
  refine forLines_section OrderSource.print (fun _ => []) (fun s order => s ++ [order.order]) (by decide) ?_ shows []
  refine fun order member => ⟨print_ne_nil order, print_ne_labelEnd (written order member), fun s more left shows => ?_⟩
  refine ⟨left, ?_, shows⟩
  rw [LineBody.ofLine_run, parseOrderLine_print (written order member)]
  rfl

theorem parseLabelBlocks_shows {blocks : List BlockSource} (written : ∀ block ∈ blocks, block.Written constValues)
    (shows : Shows rest (blocks.flatMap (fun block => block.header :: block.body) ++ ['\x7d'] :: more) code) :
    ∃ left, parseLabelBlocks constValues code = .ok (blocks.map BlockSource.labelBlock, left) ∧ Shows rest more left := by
  rw [parseLabelBlocks, ← foldl_append_map BlockSource.labelBlock]
  refine forLines_section BlockSource.header BlockSource.body (fun s block => s ++ [block.labelBlock]) (by decide) ?_ shows []
  refine fun block member => ⟨by simp [BlockSource.header], by simp [BlockSource.header], fun s more left shows => ?_⟩
  have name := (written block member).labelName
  rw [BlockSource.body, List.append_assoc] at shows
  obtain ⟨left', read, later⟩ := parseOrders_shows (written block member).orders shows
  have header : fullMatch [.literal ['l', 'a', 'b', 'e', 'l', ':'], wordCharacters] block.header = some [block.labelName] := by
    rw [BlockSource.header, fullMatch_literal, wordCharacters,
      fullMatch_repeated_end name.2 (List.length_pos_iff.mpr name.1)]
  refine ⟨left', ?_, later⟩
  simp only [readLabelBlock, header, read, ok_bind]
  rfl

theorem parseArgumentType_print {type : TypeSource} (written : type.Written) : parseArgumentType type.print = .ok type.info := by
  cases type with
  | primitive type => cases type <;> rfl
  | userDefined typeIndex =>
    have shape : indexText ['t', 'y', 'p', 'e'] typeIndex = ['t', 'y', 'p', 'e', '#'] ++ numeral typeIndex := rfl
    have number : fullMatch [.literal ['t', 'y', 'p', 'e', '#'], digits] (indexText ['t', 'y', 'p', 'e'] typeIndex) =
        some [numeral typeIndex] := by
      rw [shape, fullMatch_literal, digits_numeral]
    simp only [TypeSource.print, parseArgumentType, number, stoull_written written, ok_bind]
    rfl

theorem isToken_type (type : TypeSource) : IsToken type.print := by
  cases type with
  | primitive type => exact isToken_typeName type
  | userDefined typeIndex => exact isToken_indexText (by decide) typeIndex

theorem IsToken.line {token : Text} (plain : IsToken token) : ∀ c ∈ token, LineCharacter c = true := fun c member => by
  have newline := plain.ne (b := '\n') (by decide) member
  have carriage := plain.ne (b := '\r') (by decide) member
  simp [LineCharacter, newline, carriage]

/-- `index:type` -/
theorem argument_match (index : Nat) {type : TypeSource} :
    fullMatch [digits, .literal [':'], .group (.repeated 1 LineCharacter)] (numeral index ++ ':' :: type.print) =
      some [numeral index, type.print] := by
  rw [digits, fullMatch_repeated_literal (fun _ member => digit_numeral member) (numeral_length index) (by decide),
    fullMatch_literal_cons, fullMatch_literal_nil,
    fullMatch_repeated_end (isToken_type type).line (List.length_pos_iff.mpr (isToken_type type).1)]
  rfl

theorem readArguments_texts {arguments : List TypeSource} (written : ∀ argument ∈ arguments, argument.Written)
    (start : Nat) (argMap : List (Nat × ArgumentInfo)) (fits : start + arguments.length ≤ 2 ^ 64) :
    readArguments argMap ((arguments.zipIdx start).map fun argument => numeral argument.2 ++ ':' :: argument.1.print) =
      .ok ((((arguments.map TypeSource.info).zipIdx start).map Prod.swap).reverse ++ argMap) := by
  induction arguments generalizing start argMap with
  | nil => rfl
  | cons argument arguments ih =>
    rw [List.length_cons] at fits
    have index : stoull (numeral start) = .ok start := stoull_numeral (by omega)
    simp only [List.zipIdx_cons, List.map_cons, readArguments, argument_match, index, ok_bind,
      parseArgumentType_print (written argument List.mem_cons_self)]
    rw [ih (fun other member => written other (List.mem_cons_of_mem argument member)) (start + 1) _ (by omega)]
    simp

theorem argumentTexts_ne (function : FunctionSource) {c b : Char} (outside : TokenCharacter b = false ∧ b ≠ ':')
    {text : Text} (known : text ∈ function.argumentTexts) (member : c ∈ text) : c ≠ b := by
  obtain ⟨argument, _, rfl⟩ := List.mem_map.mp known
  rcases List.mem_append.mp member with number | type
  · exact (isToken_numeral _).ne outside.1 number
  · rcases List.mem_cons.mp type with rfl | type
    · exact outside.2.symm
    · exact (isToken_type _).ne outside.1 type

theorem arguments_ne (function : FunctionSource) {c b : Char} (outside : TokenCharacter b = false ∧ b ≠ ':' ∧ b ≠ ',')
    (member : c ∈ [','].intercalate function.argumentTexts) : c ≠ b := by
  rcases mem_intercalate_comma member with rfl | ⟨text, known, here⟩
  · exact outside.2.2.symm
  · exact argumentTexts_ne function ⟨outside.1, outside.2.1⟩ known here

theorem readArguments_source {function : FunctionSource} (written : ∀ argument ∈ function.arguments, argument.Written)
    (fits : function.arguments.length ≤ 2 ^ 64) :
    readArguments [] (commaTokens ([','].intercalate function.argumentTexts)) =
      .ok (((function.arguments.map TypeSource.info).zipIdx).map Prod.swap).reverse := by
  by_cases none : function.arguments = []
  · rw [FunctionSource.argumentTexts, none]
    rfl
  · have separated : commaTokens ([','].intercalate function.argumentTexts) = function.argumentTexts := by
      refine commaTokens_intercalate (by simpa [FunctionSource.argumentTexts] using none) ?_ ?_
      · exact fun text known comma => argumentTexts_ne function (by decide) known comma rfl
      · intro text known
        obtain ⟨argument, _, rfl⟩ := List.mem_map.mp known
        simp
    rw [separated, FunctionSource.argumentTexts, readArguments_texts written 0 [] (by omega), List.append_nil]

theorem functionHeader_match (index : Nat) (function : FunctionSource) :
    fullMatch functionHeader (function.header index) =
      some [numeral index, numeral function.nameIndex, numeral function.variablesSize, numeral function.registersSize,
        [','].intercalate function.argumentTexts, function.returnType.print] := by
  have number (n : Nat) : ∀ c ∈ numeral n, Digit c = true := fun c member => digit_numeral member
  have line : ∀ c ∈ [','].intercalate function.argumentTexts, LineCharacter c = true := by
    intro c member
    have newline := arguments_ne function (b := '\n') (by decide) member
    have carriage := arguments_ne function (b := '\r') (by decide) member
    simp [LineCharacter, newline, carriage]
  have type := isToken_type function.returnType
  have bracket : ')' ∉ [','].intercalate function.argumentTexts := fun member => arguments_ne function (by decide) member rfl
  have bracket' : ')' ∉ '-' :: '>' :: (function.returnType.print ++ ['\x7b']) := by
    have typeBracket : ')' ∉ function.returnType.print := fun member => type.ne (by decide) member rfl
    simp [typeBracket]
  have brace : '\x7b' ∉ function.returnType.print := fun member => type.ne (by decide) member rfl
  rw [functionHeader, FunctionSource.header, digits,
    fullMatch_repeated_literal (number _) (numeral_length _) (by decide), fullMatch_literal_cons, fullMatch_literal_nil,
    fullMatch_repeated_literal (number _) (numeral_length _) (by decide)]
  simp only [fullMatch_literal_cons, fullMatch_literal_nil]
  rw [fullMatch_repeated_literal (number _) (numeral_length _) (by decide)]
  simp only [fullMatch_literal_cons, fullMatch_literal_nil]
  rw [fullMatch_repeated_literal (number _) (numeral_length _) (by decide), fullMatch_literal_cons, fullMatch_literal_nil,
    fullMatch_repeated_absent line (Nat.zero_le _) bracket bracket']
  simp only [fullMatch_literal_cons, fullMatch_literal_nil]
  rw [fullMatch_repeated_absent type.line (List.length_pos_iff.mpr type.1) brace (by simp)]
  rfl

/-- A printed function is read back, with its blocks, and nothing behind it. -/
theorem readFunction_shows {index : Nat} {function : FunctionSource} (written : function.Written constValues)
    (fits : index < 2 ^ 64) (arguments : function.arguments.length < 2 ^ 64) (functionMap : List (Nat × VMFunction))
    (shows : Shows rest (function.body ++ more) code) :
    ∃ left, readFunction library constValues functionMap (function.header index) code =
      .ok ((index, function.vmFunction) :: functionMap, left) ∧ Shows rest more left := by
  rw [FunctionSource.body, List.append_assoc] at shows
  obtain ⟨left, blocks, later⟩ := parseLabelBlocks_shows written.blocks shows
  have table : tableOf library sizeofArgumentInfo (((function.arguments.map TypeSource.info).zipIdx).map Prod.swap).reverse =
      .ok (function.arguments.map TypeSource.info) :=
    tableOf_perm (by rwa [List.length_map]) (List.reverse_perm _)
  refine ⟨left, ?_, later⟩
  simp only [readFunction, functionHeader_match, stoull_numeral fits, stoull_written written.nameIndex,
    getConstValueAsString_named written.name, stoull_written written.variablesSize, stoull_written written.registersSize,
    readArguments_source written.arguments arguments.le, parseArgumentType_print written.returnType, table, blocks, ok_bind]
  rfl

/-- The lines of a `$function` section, before its `$end`. -/
def functionLines (printed : List (Nat × FunctionSource)) : List Text :=
  printed.flatMap fun entry => entry.2.header entry.1 :: entry.2.body

theorem intercalate_length {tokens : List Text} (some : ∀ token ∈ tokens, token ≠ []) :
    tokens.length ≤ ([','].intercalate tokens).length := by
  induction tokens with
  | nil => exact Nat.zero_le _
  | cons token tokens ih =>
    have visible : 1 ≤ token.length := List.length_pos_iff.mpr (some token List.mem_cons_self)
    cases tokens with
    | nil => rwa [List.intercalate_singleton]
    | cons second tokens =>
      have later := ih fun other member => some other (List.mem_cons_of_mem token member)
      rw [List.intercalate_cons_cons, List.length_append, List.length_append, List.length_singleton, List.length_cons]
      omega

theorem arguments_length (index : Nat) (function : FunctionSource) :
    function.arguments.length ≤ (function.header index).length := by
  have count : function.argumentTexts.length = function.arguments.length := by simp [FunctionSource.argumentTexts]
  have texts : function.argumentTexts.length ≤ ([','].intercalate function.argumentTexts).length :=
    intercalate_length fun text known => by
      obtain ⟨argument, _, rfl⟩ := List.mem_map.mp known
      simp
  simp only [FunctionSource.header, List.length_append, List.length_cons]
  omega

theorem functionLines_length (printed : List (Nat × FunctionSource)) : printed.length ≤ (functionLines printed).length := by
  induction printed with
  | nil => exact Nat.zero_le _
  | cons entry printed ih =>
    rw [functionLines, List.flatMap_cons, List.length_append, List.length_cons, List.length_cons]
    rw [functionLines] at ih
    omega

theorem header_ne_nil (index : Nat) (function : FunctionSource) : function.header index ≠ [] := by
  simp [FunctionSource.header]

theorem header_ne_end (index : Nat) (function : FunctionSource) : function.header index ≠ END := fun same => by
  have colon : ':' ∈ function.header index := by simp [FunctionSource.header]
  exact absurd (same ▸ colon) (by decide)

/-- Functions survive their text: `parse_function` on a printed section returns
them at their indices and stops behind its `$end`. -/
theorem parseFunction_functionLines (constValues : List ConstValue) {functions : List FunctionSource}
    (written : ∀ function ∈ functions, function.Written constValues) {printed : List (Nat × FunctionSource)}
    (arranged : printed.Perm (functions.zipIdx.map Prod.swap)) {code tail behind : Text}
    (shows : Shows tail (functionLines printed) code) (closes : Closes END behind tail) (fits : code.length < 2 ^ 64) :
    parseFunction library constValues code = .ok (functions.map FunctionSource.vmFunction, behind) := by
  have count : printed.length = functions.length := by simpa using arranged.length_eq
  obtain ⟨lines, line⟩ := shows.length
  have bound := functionLines_length printed
  have entries : ∀ entry ∈ printed, entry.1 < 2 ^ 64 ∧ entry.2.arguments.length < 2 ^ 64 ∧ entry.2.Written constValues := by
    intro entry member
    obtain ⟨⟨function, index⟩, known, rfl⟩ := List.mem_map.mp (arranged.subset member)
    have inside := (List.mem_zipIdx known).2.1
    have header := line (function.header index) (List.mem_flatMap.mpr ⟨_, member, List.mem_cons_self⟩)
    have arguments := arguments_length index function
    refine ⟨by dsimp only [Prod.swap]; omega, by dsimp only [Prod.swap]; omega, written function ?_⟩
    exact List.fst_mem_of_mem_zipIdx known
  rw [functionLines, ← List.append_nil (printed.flatMap _)] at shows
  obtain ⟨left, run, later⟩ := forLines_items (b := ⟨readFunction library constValues, readFunction_length library constValues⟩) (s := [])
    (fun entry => entry.2.header entry.1) (fun entry => entry.2.body)
    (fun functionMap entry => (entry.1, entry.2.vmFunction) :: functionMap) (by decide : END ≠ [])
    (fun entry member => ⟨header_ne_nil _ _, header_ne_end _ _, fun functionMap more left shows =>
      readFunction_shows (entries entry member).2.2 (entries entry member).1 (entries entry member).2.1 functionMap shows⟩)
    shows
  have table : tableOf library sizeofPointer (printed.foldl (fun functionMap entry => (entry.1, entry.2.vmFunction) :: functionMap) []) =
      .ok (functions.map FunctionSource.vmFunction) := by
    refine tableOf_perm (by rw [List.length_map]; omega) ?_
    rw [List.foldl_flip_cons_eq_append, List.append_nil]
    refine (List.reverse_perm _).trans ?_
    have values := arranged.map (Prod.map id FunctionSource.vmFunction)
    rw [List.map_map] at values
    rw [List.zipIdx_map, List.map_map]
    exact values
  rw [later.skip (by decide : END ≠ []), closes.finish (by decide : END ≠ [])] at run
  rw [parseFunction, run, ok_bind]
  simp only [table, ok_bind]

/-- A function whose block is called `end`, and one with all the orders that
refer to constants, printed the other way round. -/
def loopSource : FunctionSource := ⟨0, ['f'], 0, 1, [], .primitive .void, [⟨['e', 'n', 'd'], [.jumpTo ['e', 'n', 'd']]⟩]⟩

def fieldSource : FunctionSource :=
  ⟨0, ['f'], 1, 2, [.primitive .i64, .userDefined 3], .userDefined 0,
    [⟨['a'], [.const 1 .i64 0, .setField 0 1 true 3 0 ['f']]⟩, ⟨['b'], [.iadd 1 .u8 0 1, .ret 1]⟩]⟩

/-- Their text. -/
def sourceLines : List Text :=
  ["  1:0:var:1:reg:2(0:i64, 1:type#3) -> type#0\x7b".toList, "label:a".toList, "  reg#1 = const,i64,0".toList, "".toList,
    "  set_field,reg#0,reg#1,true,type#3,const#0".toList, "label:end".toList, "label:b".toList,
    "reg#1=iadd,u8,reg#0,reg#1".toList, "ret,reg#1".toList, "label:end".toList, "\x7d".toList,
    "0:0:var:0:reg:1()->void\x7b".toList, "    label:end".toList, "      jump_to,end".toList, "    label:end".toList,
    "  \x7d".toList]

theorem parseFunction_functionLines_end :
    parseFunction plainLibrary [⟨1, .string ['f']⟩] (sourceLines.flatMap (· ++ ['\n']) ++ "$end".toList) =
      .ok ([loopSource.vmFunction, fieldSource.vmFunction], []) := by
  have written : ∀ function ∈ [loopSource, fieldSource], function.Written [⟨1, .string ['f']⟩] := by
    intro function member
    simp only [List.mem_cons, List.not_mem_nil, or_false] at member
    rcases member with rfl | rfl
    · refine ⟨by decide, rfl, by decide, by decide, by simp [loopSource], trivial, fun block member => ?_⟩
      obtain rfl := List.mem_singleton.mp member
      refine ⟨(by decide : IsWord _), fun order member => ?_⟩
      obtain rfl := List.mem_singleton.mp member
      exact (by decide : IsWord ['e', 'n', 'd'])
    · refine ⟨by decide, rfl, by decide, by decide, ?_, (by decide : 0 < SIZE_MAX), fun block member => ?_⟩
      · simp [fieldSource, TypeSource.Written, SIZE_MAX]
      · simp only [fieldSource, List.mem_cons, List.not_mem_nil, or_false] at member
        rcases member with rfl | rfl
        · refine ⟨(by decide : IsWord _), ?_⟩
          simp [OrderSource.Written, SIZE_MAX, NamesString]
        · refine ⟨(by decide : IsWord _), ?_⟩
          simp [OrderSource.Written, SIZE_MAX]
  have lines : (sourceLines.map (·.filter (· ≠ ' '))).filter (· ≠ []) = functionLines [(1, fieldSource), (0, loopSource)] := by
    decide +kernel
  have shows := shows_lines "$end".toList (show ∀ raw ∈ sourceLines, '\n' ∉ raw by decide +kernel)
  rw [lines] at shows
  exact parseFunction_functionLines [⟨1, .string ['f']⟩] written (by decide +kernel) shows
    ⟨"$end".toList, by decide +kernel, by decide +kernel, .inr ⟨rfl, rfl⟩⟩ (by decide +kernel)

end RoundTrip
end CatLa
