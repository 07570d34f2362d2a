import CatLa.Parser.ModuleRoundTrip
import CatLa.Vm.CompleteLoads
import CatLa.Vm.IntegerAddition
import CatLa.Vm.SafeRuns

namespace CatLa
open FuelLoop TablePass

/-- What is known of a word: so many of its lowest bits are those of `word`. -/
structure KnownWord where
  width : Nat
  word : Word
  deriving DecidableEq

def KnownWord.Holds (known : KnownWord) (word : Word) : Prop := word.setWidth known.width = known.word.setWidth known.width

namespace OrderSource
variable (constants : List Constant) (arguments : List Word)

/-- The register that an order writes, and what it writes. A sum is known at the
width of its type. -/
def writes (known : Nat → Option KnownWord) : OrderSource → Option (Nat × KnownWord)
  | const assignedRegister _ constIndex =>
    match constants[constIndex]? with
    | some (.integer value) => some (assignedRegister, ⟨64, value⟩)
    | _ => none
  | arg assignedRegister argumentIndex => (arguments[argumentIndex]?).map fun value => (assignedRegister, ⟨64, value⟩)
  | iadd assignedRegister type leftRegister rightRegister =>
    (known leftRegister).bind fun left =>
    (known rightRegister).bind fun right =>
    if type ≠ .void ∧ type.width ≤ left.width ∧ type.width ≤ right.width then
      some (assignedRegister, ⟨type.width, left.word + right.word⟩)
    else none
  | _ => none

/-- The meaning of orders that are evaluated one after the other, up to a `ret`:
what is known of the value. Orders that jump or use an object have none here. -/
def meaning (registersSize : Nat) : List OrderSource → (Nat → Option KnownWord) → Option KnownWord
  | [], _ => none
  | ret resultRegister :: _, known => known resultRegister
  | order :: rest, known =>
    (order.writes constants arguments known).bind fun written =>
    if written.1 < registersSize then meaning registersSize rest (Function.update known written.1 (some written.2)) else none

end OrderSource

/-- The meaning of a function: that of its first block, with nothing known of
its registers. -/
def FunctionSource.meaning (constants : List Constant) (function : FunctionSource) (arguments : List Word) : Option KnownWord :=
  function.blocks.head?.bind fun entry =>
  OrderSource.meaning constants arguments function.registersSize entry.orders fun _ => none

section Words
variable {w : Nat}

theorem signExtend_low (x : BitVec w) (narrow : w ≤ 32) : (x.signExtend 32).setWidth w = x := by
  refine BitVec.eq_of_getLsbD_eq fun i inside => ?_
  have low : i < 32 := by omega
  simp [BitVec.getElem_signExtend, inside, low]

/-- The bytes above a temporary do not matter to its lowest bits. -/
theorem readTemporary_low (narrow : w ≤ 32) {above x y : BitVec 32} {left right : Word} (leftLow : x.setWidth w = left.setWidth w)
    (rightLow : y.setWidth w = right.setWidth w) : (readTemporary above (x + y)).setWidth w = (left + right).setWidth w := by
  have append : (above ++ (x + y)).setWidth w = (x + y).setWidth w := by
    refine BitVec.eq_of_getLsbD_eq fun i inside => ?_
    have low : i < 32 := by omega
    rw [BitVec.getLsbD_setWidth, BitVec.getLsbD_setWidth, BitVec.getLsbD_append, if_pos low]
  rw [readTemporary, append, BitVec.setWidth_add _ _ narrow, leftLow, rightLow, BitVec.setWidth_add _ _ (by omega)]

/-- A sum is right at the width of its type, whatever is above it. -/
theorem addWords_low {type : PrimitiveType} {above : BitVec 32} {left right word : Word}
    (sum : addWords above left right type = some word) : word.setWidth type.width = (left + right).setWidth type.width := by
  have signed (v : Nat) (narrow : v ≤ 32) :
      (readTemporary above ((left.setWidth v).signExtend 32 + (right.setWidth v).signExtend 32)).setWidth v =
        (left + right).setWidth v :=
    readTemporary_low narrow (signExtend_low _ narrow) (signExtend_low _ narrow)
  have unsigned (v : Nat) (narrow : v ≤ 32) :
      (readTemporary above ((left.setWidth v).setWidth 32 + (right.setWidth v).setWidth 32)).setWidth v =
        (left + right).setWidth v :=
    readTemporary_low narrow (by rw [BitVec.setWidth_setWidth_of_le _ narrow, BitVec.setWidth_setWidth_of_le _ le_rfl])
      (by rw [BitVec.setWidth_setWidth_of_le _ narrow, BitVec.setWidth_setWidth_of_le _ le_rfl])
  have word32 : (readTemporary above (left.setWidth 32 + right.setWidth 32)).setWidth 32 = (left + right).setWidth 32 :=
    readTemporary_low le_rfl (BitVec.setWidth_eq _) (BitVec.setWidth_eq _)
  cases type with
  | void => exact absurd sum (by simp [addWords])
  | i8 => exact Option.some.inj sum ▸ signed 8 (by decide)
  | i16 => exact Option.some.inj sum ▸ signed 16 (by decide)
  | u8 => exact Option.some.inj sum ▸ unsigned 8 (by decide)
  | u16 => exact Option.some.inj sum ▸ unsigned 16 (by decide)
  | i32 => exact Option.some.inj sum ▸ word32
  | u32 => exact Option.some.inj sum ▸ word32
  | i64 => exact Option.some.inj sum ▸ rfl
  | u64 => exact Option.some.inj sum ▸ rfl

end Words

/-- What is known of the registers. -/
def KnownRegisters (known : Nat → Option KnownWord) (registers : List Word) : Prop :=
  ∀ i k, known i = some k → ∃ word, registers[i]? = some word ∧ k.Holds word

theorem KnownRegisters.set {known : Nat → Option KnownWord} {registers : List Word} (registersKnown : KnownRegisters known registers)
    {i : Nat} (bound : i < registers.length) {k : KnownWord} {word : Word} (holds : k.Holds word) :
    KnownRegisters (Function.update known i (some k)) (registers.set i word) := by
  intro j k' here
  by_cases same : j = i
  · subst same
    rw [Function.update_self] at here
    obtain rfl := Option.some.inj here
    exact ⟨word, List.getElem?_set_self bound, holds⟩
  · rw [Function.update_of_ne same] at here
    obtain ⟨word', atJ, holds'⟩ := registersKnown j k' here
    exact ⟨word', by rwa [List.getElem?_set_ne (Ne.symm same)], holds'⟩

section Runs
variable {rt : Runtime} {constants : List Constant} {arguments : List Word} {f : VMFunction} {known : Nat → Option KnownWord}
  {registers : List Word} {memory : GcState}

/-- An order does to the registers what it means. -/
theorem eval_writes {order : OrderSource} {i : Nat} {k : KnownWord} (writes : order.writes constants arguments known = some (i, k))
    (bound : i < registers.length) (registersKnown : KnownRegisters known registers) (thread : VMThread)
    (typeOf : TypePointer → Option VMType) (usingTypes : List (Option TypePointer)) (label : Text → Option Nat) :
    ∃ word, k.Holds word ∧ (order.order.linked typeOf usingTypes label).eval rt (constants.map Constant.value) arguments thread
      ⟨registers, memory⟩ = some (thread, ⟨registers.set i word, memory⟩) := by
  have write (word : Word) : (VMData.mk registers memory).setRegister i word = some ⟨registers.set i word, memory⟩ := if_pos bound
  cases order with
  | const assignedRegister type constIndex =>
    simp only [OrderSource.writes] at writes
    split at writes
    · rename_i value atIndex
      obtain ⟨rfl, rfl⟩ := Prod.mk.inj (Option.some.inj writes)
      refine ⟨value, rfl, ?_⟩
      have word : (Constant.integer value).value.payload.word = some value := by
        simp [Constant.value, ConstPayload.word]
      simp only [OrderSource.order, Order.linked, Order.eval, List.getElem?_map, atIndex, Option.map_some, Option.bind_some, word,
        write]
    · exact absurd writes (by simp)
  | arg assignedRegister argumentIndex =>
    obtain ⟨value, atIndex, same⟩ := Option.map_eq_some_iff.mp writes
    obtain ⟨rfl, rfl⟩ := Prod.mk.inj same
    refine ⟨value, rfl, ?_⟩
    simp only [OrderSource.order, Order.linked, Order.eval, atIndex, Option.bind_some, write, Option.map_some]
  | iadd assignedRegister type leftRegister rightRegister =>
    obtain ⟨left, knownLeft, writes⟩ := Option.bind_eq_some_iff.mp writes
    obtain ⟨right, knownRight, writes⟩ := Option.bind_eq_some_iff.mp writes
    split at writes
    · rename_i wide
      obtain ⟨rfl, rfl⟩ := Prod.mk.inj (Option.some.inj writes)
      obtain ⟨leftWord, leftRead, leftHolds⟩ := registersKnown _ _ knownLeft
      obtain ⟨rightWord, rightRead, rightHolds⟩ := registersKnown _ _ knownRight
      obtain ⟨word, sum, run⟩ := @eval_addInteger rt (constants.map Constant.value) arguments thread type wide.1
        ⟨registers, memory⟩ _ _ _ _ _ leftRead rightRead bound
      refine ⟨word, ?_, run⟩
      -- the operands agree at the width of the type, because they are known at more
      have low {x : KnownWord} {v : Word} (holds : x.Holds v) (narrow : type.width ≤ x.width) :
          v.setWidth type.width = x.word.setWidth type.width := by
        rw [← BitVec.setWidth_setWidth_of_le v narrow, holds, BitVec.setWidth_setWidth_of_le _ narrow]
      show word.setWidth type.width = (left.word + right.word).setWidth type.width
      rw [addWords_low sum, BitVec.setWidth_add _ _ (width_le type), BitVec.setWidth_add _ _ (width_le type),
        low leftHolds wide.2.1, low rightHolds wide.2.2]
    · exact absurd writes (by simp)
  | _ => exact absurd writes (by simp [OrderSource.writes])

/-- The rest of a block, from order `i` on. -/
theorem whileTrue_meaning {block : LabelBlock} (first : f.labelBlocks[0]? = some block) {orders : List OrderSource} {result : KnownWord}
    (meaning : OrderSource.meaning constants arguments f.registersSize orders known = some result) {i : Nat}
    {typeOf : TypePointer → Option VMType} {usingTypes : List (Option TypePointer)} {label : Text → Option Nat}
    (here : block.orders.drop i = orders.map fun order => order.order.linked typeOf usingTypes label)
    (length : registers.length = f.registersSize + 1) (registersKnown : KnownRegisters known registers) :
    ∃ s word, (∀ extra, whileTrue (runBody rt (constants.map Constant.value) arguments) (orders.length + extra)
        ⟨⟨f, some 0, i, false⟩, ⟨registers, memory⟩⟩ = some s) ∧
      s.data.register f.registersSize = some word ∧ result.Holds word ∧ s.data.memory = memory := by
  induction orders generalizing i known registers with
  | nil => exact absurd meaning (by simp [OrderSource.meaning])
  | cons order orders ih =>
    have size : i + (orders.length + 1) = block.orders.length := by
      have count := congrArg List.length here
      rw [List.length_drop, List.length_map, List.length_cons] at count
      omega
    have next : block.orders[i]? = some (order.order.linked typeOf usingTypes label) := by
      rw [← List.head?_drop, here]
      rfl
    have rest : block.orders.drop (i + 1) = orders.map fun order => order.order.linked typeOf usingTypes label := by
      rw [← List.tail_drop, here]
      rfl
    by_cases returns : ∃ resultRegister, order = .ret resultRegister
    · obtain ⟨resultRegister, rfl⟩ := returns
      obtain ⟨word, read, holds⟩ := registersKnown resultRegister result meaning
      have bound : f.registersSize < registers.length := by omega
      have step : Order.eval rt (constants.map Constant.value) arguments ⟨f, some 0, i, false⟩ ⟨registers, memory⟩
          (.returnFunction resultRegister) = some (⟨f, some 0, i, true⟩, ⟨registers.set f.registersSize word, memory⟩) := by
        rw [Order.eval, VMData.register, read, Option.bind_some, VMData.setRegister, if_pos bound]
        rfl
      have body := Order.runBody_eval first rfl rfl next step ⟨rfl, rfl⟩
      rw [if_pos (.inr rfl)] at body
      refine ⟨⟨⟨f, some 0, i + 1, false⟩, ⟨registers.set f.registersSize word, memory⟩⟩, word, fun extra => ?_, ?_, holds, rfl⟩
      · rw [List.length_cons, show orders.length + 1 + extra = orders.length + extra + 1 by omega, whileTrue, body]
      · rw [VMData.register, List.getElem?_set_self bound]
    · have continues : ((order.writes constants arguments known).bind fun written =>
          if written.1 < f.registersSize then
            OrderSource.meaning constants arguments f.registersSize orders (Function.update known written.1 (some written.2))
          else none) = some result := by
        cases order with
        | ret resultRegister => exact absurd ⟨resultRegister, rfl⟩ returns
        | _ => exact meaning
      obtain ⟨⟨target, k⟩, writes, continues⟩ := Option.bind_eq_some_iff.mp continues
      split at continues
      · rename_i inside
        have bound : target < registers.length := by
          dsimp only at inside
          omega
        obtain ⟨word, holds, step⟩ := @eval_writes rt constants arguments known registers memory order target k writes bound
          registersKnown ⟨f, some 0, i, false⟩ typeOf usingTypes label
        have more : i + 1 ≠ block.orders.length := by
          -- the last order of a block that has a meaning is a `ret`
          intro last
          have none : orders = [] := List.length_eq_zero_iff.mp (by omega)
          subst none
          exact absurd continues (by simp [OrderSource.meaning])
        have body := Order.runBody_eval first rfl rfl next step ⟨rfl, rfl⟩
        rw [if_neg (not_or.mpr ⟨more, Bool.false_ne_true⟩)] at body
        obtain ⟨s, result, run, value⟩ := ih continues rest (by rw [List.length_set, length]) (registersKnown.set bound holds)
        refine ⟨s, result, fun extra => ?_, value⟩
        rw [List.length_cons, show orders.length + 1 + extra = orders.length + extra + 1 by omega, whileTrue, body]
        exact run extra
      · exact absurd continues (by simp)

/-- A linked function returns what its source means. -/
theorem runFunction_meaning {function : FunctionSource} {result : KnownWord}
    (meaning : function.meaning constants arguments = some result) {linked : VMFunction}
    {typeOf : TypePointer → Option VMType} {usingTypes : List (Option TypePointer)}
    (made : linked = (function.vmFunction.withSignature usingTypes).linked typeOf usingTypes) (framed : rt.Framed function.vmFunction)
    {thread : VMThread} (ready : thread.returnFunction = false) (contents : Nat → Word) :
    ∃ s word, Returns (fun fuel => runFunction rt (constants.map Constant.value) arguments fuel thread linked contents memory)
      (s, word) ∧ result.Holds word ∧ s.data.memory = memory := by
  replace framed : rt.Framed linked := by
    rw [made]
    exact ⟨framed.fits, framed.served⟩
  obtain ⟨entry, first, meaning⟩ := Option.bind_eq_some_iff.mp meaning
  have registersSize : linked.registersSize = function.registersSize := by
    rw [made]
    rfl
  have block : linked.labelBlocks[0]? = some ⟨entry.labelName,
      entry.orders.map fun order => order.order.linked typeOf usingTypes function.vmFunction.labelBlockMap.get⟩ := by
    rw [List.head?_eq_getElem?] at first
    simp only [made, VMFunction.linked, VMFunction.withSignature, FunctionSource.vmFunction, VMFunction.make, List.getElem?_map,
      first, Option.map_some, List.map_map, Function.comp_apply, BlockSource.labelBlock]
    rfl
  rw [← registersSize] at meaning
  obtain ⟨s, word, run, value, holds, same⟩ := @whileTrue_meaning rt constants arguments linked _ _ memory _ block _ _ meaning 0
    typeOf usingTypes _ List.drop_zero framed.length fun i k known => absurd known (by simp)
  refine ⟨s, word, ⟨entry.orders.length, fun fuel enough => ?_⟩, holds, same⟩
  obtain ⟨extra, rfl⟩ := Nat.exists_eq_add_of_le enough
  show runFunction rt (constants.map Constant.value) arguments (entry.orders.length + extra) thread linked contents memory = _
  rw [runFunction, if_pos framed.served, runStart_ready ready, run extra, Option.bind_some, value, Option.map_some]

end Runs
/-- An order that uses no object. -/
def OrderSource.Plain : OrderSource → Prop
  | setField _ _ _ _ _ _ => False
  | _ => True

/-- A module without types, which imports only itself. -/
structure ModuleSource.Plain (source : ModuleSource) : Prop where
  imports : ∀ entry ∈ source.imports, entry = .this
  types : source.types = []
  usingTypes : source.usingTypes = []
  signatures : ∀ function ∈ source.functions, ∀ type ∈ function.returnType :: function.arguments,
    ∃ primitive, type = .primitive primitive
  orders : ∀ function ∈ source.functions, ∀ block ∈ function.blocks, ∀ order ∈ block.orders, order.Plain

section Loads
variable {library : StandardLibrary} {order : LoadOrder} {vm vm' : CatVM} {name m : Text} {mod : VMModule}
  {source : ModuleSource}

/-- What a load makes of the constants and functions of a module that has been
printed. -/
theorem loaded_functions (prints : Prints ⟨[], [], [], [], []⟩ (vm.getPreLoadedModule m) source)
    (fits : (vm.getPreLoadedModule m).length < 2 ^ 64) (absent : vm.getModule m = none)
    (run : vm.loadModule library order name = .ok (vm', some name)) (here : vm'.getModule m = some mod) :
    mod.constValues = source.constValues ∧
      mod.functions = source.functions.map fun function =>
        (function.vmFunction.withSignature mod.usingTypes).linked vm'.typeAt mod.usingTypes := by
  obtain ⟨_, loaded, done⟩ := loadModule_done run
  have member : m ∈ loaded := done.mem_iff.mpr ⟨absent, by rw [here]; rfl⟩
  obtain ⟨read, entered, entry⟩ := done.entered m member
  have parsed := entered.parsed
  rw [parse_readAs library m prints fits] at parsed
  obtain rfl := Option.some.inj (Except.ok.inj parsed)
  have made := Option.some.inj ((CatVM.entries_eq here).symm.trans entry)
  refine ⟨(VMModule.linkedFrom made).constValues, ?_⟩
  rw [(parse_unlinked entered.parsed).functions_eq made, ModuleSource.readAs, ModuleSource.module, VMModule.make, List.map_map]
  rfl

/-- A function of a module that has been printed and loaded returns what it
means, whatever the registers held before, and leaves the memory alone. -/
theorem runFunction_loaded (prints : Prints ⟨[], [], [], [], []⟩ (vm.getPreLoadedModule m) source)
    (fits : (vm.getPreLoadedModule m).length < 2 ^ 64) (absent : vm.getModule m = none)
    (run : vm.loadModule library order name = .ok (vm', some name)) (here : vm'.getModule m = some mod) {i : Nat}
    {function : FunctionSource} (listed : source.functions[i]? = some function) {arguments : List Word} {result : KnownWord}
    (meaning : function.meaning source.constants arguments = some result) :
    ∃ linked, mod.functions[i]? = some linked ∧
      ∀ (rt : Runtime) (thread : VMThread) (contents : Nat → Word) (memory : GcState), rt.Framed function.vmFunction →
        thread.returnFunction = false →
        ∃ s word, Returns (fun fuel => runFunction rt mod.constValues arguments fuel thread linked contents memory) (s, word) ∧
          word.setWidth result.width = result.word.setWidth result.width ∧ s.data.memory = memory := by
  obtain ⟨consts, made⟩ := loaded_functions prints fits absent run here
  have linked : mod.functions[i]? =
      some ((function.vmFunction.withSignature mod.usingTypes).linked vm'.typeAt mod.usingTypes) := by
    rw [made, List.getElem?_map, listed, Option.map_some]
  refine ⟨_, linked, fun rt thread contents memory framed ready => ?_⟩
  rw [consts]
  exact runFunction_meaning meaning rfl framed ready contents

theorem ModuleSource.source_preLoad (written : source.Written) (fits : source.print.length < 2 ^ 64)
    (absent : vm.getModule name = none) : (vm.preLoadModule name source.print).source library name = some (source.readAs name) := by
  have text : (vm.preLoadModule name source.print).preLoadedModuleMap.lookup name = some source.print := by
    simp [CatVM.preLoadModule]
  exact CatVM.source_parsed absent text (parse_readAs library name (ModuleSource.prints written) fits)

/-- A module without types is all that a load of it gets to. -/
theorem ModuleSource.Plain.closure (plain : source.Plain) (written : source.Written) (fits : source.print.length < 2 ^ 64)
    (absent : vm.getModule name = none) {k : Text} (path : InClosure library (vm.preLoadModule name source.print) name k) : k = name := by
  refine closure_alone (ModuleSource.source_preLoad written fits absent) (fun it member => ?_) path
  have member : it ∈ source.imports.map (ImportSource.name name) := member
  obtain ⟨entry, inside, rfl⟩ := List.mem_map.mp member
  rw [plain.imports entry inside]
  rfl

/-- Nothing is wrong with its text. -/
theorem ModuleSource.Plain.closureFits (plain : source.Plain) (written : source.Written) (fits : source.print.length < 2 ^ 64)
    (absent : vm.getModule name = none) : ClosureFits library (vm.preLoadModule name source.print) name := by
  have read : (vm.preLoadModule name source.print).source library name = some (source.readAs name) :=
    ModuleSource.source_preLoad written fits absent
  have types : (source.readAs name).typeDefines = [] := by
    show source.types.map TypeDefineSource.readAs = []
    rw [plain.types, List.map_nil]
  have usingTypes : (source.readAs name).usingTypeInfos = [] := by
    show source.usingTypes.map UsingTypeSource.readAs = []
    rw [plain.usingTypes, List.map_nil]
  have functions : (source.readAs name).functions = source.functions.map FunctionSource.vmFunction := rfl
  refine ⟨fun k path _ => ?_, fun k source' path _ read' => ?_, ?_⟩
  · obtain rfl := plain.closure written fits absent path
    exact ⟨_, _, by simp [CatVM.preLoadModule], parse_readAs library k (ModuleSource.prints written) fits⟩
  · obtain rfl := plain.closure written fits absent path
    obtain rfl := Option.some.inj (read.symm.trans read')
    refine ⟨fun type member => ?_, fun info member => ?_, fun function listed info asked userDefined => ?_, ?_⟩
    · rw [types] at member
      exact absurd member List.not_mem_nil
    · rw [usingTypes] at member
      exact absurd member List.not_mem_nil
    · rw [functions] at listed
      obtain ⟨function, inside, rfl⟩ := List.mem_map.mp listed
      have asked : info ∈ (function.returnType :: function.arguments).map TypeSource.info := asked
      obtain ⟨type, member, rfl⟩ := List.mem_map.mp asked
      obtain ⟨primitive, rfl⟩ := plain.signatures function inside type member
      exact absurd userDefined (by simp [TypeSource.info])
    · rintro function _ _ _ _ _ _ ⟨listed, block, inside, member⟩
      rw [functions] at listed
      obtain ⟨function, known, rfl⟩ := List.mem_map.mp listed
      obtain ⟨block, atBlock, rfl⟩ := List.mem_map.mp inside
      obtain ⟨order, atOrder, same⟩ := List.mem_map.mp member
      have uses := plain.orders function known block atBlock order atOrder
      cases order with
      | setField => exact uses.elim
      | _ => exact absurd same (by simp [OrderSource.order])
  · rintro _ ⟨k, i, rfl, path, _, declared⟩
    obtain rfl := plain.closure written fits absent path
    rw [CatVM.declaration, read] at declared
    exact absurd declared (by simp [types])

/-- From the source to the result: the text of a module without types loads,
whatever has been loaded before, and each of its functions that has a meaning
returns it if it gets its frame, whatever the registers held before. The modules
that were there and the memory stay as they were. -/
theorem loadModule_meaning (reached : Reached library vm) (absent : vm.getModule name = none) (written : source.Written)
    (plain : source.Plain) (fits : source.print.length < 2 ^ 64) (order : LoadOrder) :
    ∃ vm' mod, (vm.preLoadModule name source.print).loadModule library order name = .ok (vm', some name) ∧
      vm'.getModule name = some mod ∧ (∀ k, k ≠ name → vm'.getModule k = vm.getModule k) ∧
      mod.functions.length = source.functions.length ∧
      ∀ (i : Nat) (function : FunctionSource) (arguments : List Word) (result : KnownWord),
        source.functions[i]? = some function → function.meaning source.constants arguments = some result →
        ∃ linked, mod.functions[i]? = some linked ∧
          ∀ (rt : Runtime) (thread : VMThread) (contents : Nat → Word) (memory : GcState), rt.Framed function.vmFunction →
            thread.returnFunction = false →
            ∃ s word, Returns (fun fuel => runFunction rt mod.constValues arguments fuel thread linked contents memory) (s, word) ∧
              word.setWidth result.width = result.word.setWidth result.width ∧ s.data.memory = memory := by
  have alone {k : Text} (path : InClosure library (vm.preLoadModule name source.print) name k) : k = name :=
    plain.closure written fits absent path
  have text : (vm.preLoadModule name source.print).getPreLoadedModule name = source.print := by
    simp [CatVM.getPreLoadedModule, CatVM.preLoadModule]
  have texts : TextsWritten library (vm.preLoadModule name source.print) name := fun k path _ => by
    obtain rfl := alone path
    rw [text]
    exact List.cons_ne_nil _ _
  have before : (vm.preLoadModule name source.print).Linked library := Reached.linked (.preLoad reached)
  obtain ⟨s, vm', loading, last, run, _, named⟩ := load_completes order before absent (plain.closureFits written fits absent) texts
  obtain ⟨_, loaded, done⟩ := loadModule_done run
  obtain ⟨mod, here⟩ := Option.isSome_iff_exists.mp (done.mem_iff.mp done.target).2
  have prints := ModuleSource.prints written
  rw [← text] at prints fits
  have length : mod.functions.length = source.functions.length := by
    rw [(loaded_functions prints fits absent run here).2, List.length_map]
  refine ⟨vm', mod, run, here, fun k different => ?_, length, fun i function arguments result listed meaning => ?_⟩
  · have other : k ∉ s.loaded := fun member => different (alone ((loading.loaded_iff last before k).mp member).1)
    refine CatVM.getModule_eq (done.others k fun member => different (alone (done.reached k member))) ?_
    rw [CatVM.maps_namedMaps, named, replaced_of_not _ _ other, ← CatVM.maps_namedMaps, CatVM.maps, loading.kept k other]
    rfl
  · exact runFunction_loaded prints fits absent run here listed meaning

end Loads

/-- The function of the text in `main`, without its type. -/
def sumFunction : FunctionSource :=
  ⟨0, "nyan".toList, 0, 5, [.primitive .i64, .primitive .i64, .primitive .i64], .primitive .i64,
    [⟨"entry".toList, [.arg 0 0, .arg 1 1, .iadd 2 .i64 0 1, .arg 3 2, .iadd 4 .i64 2 3, .ret 4]⟩]⟩

def sumSource : ModuleSource := ⟨[.string "nyan".toList], [.this], [], [], [sumFunction]⟩

theorem sumSource_written : sumSource.Written := by
  refine ⟨fun entry member => ?_, fun type member => absurd member List.not_mem_nil,
    fun type member => absurd member List.not_mem_nil, fun type member => absurd member List.not_mem_nil, fun function member => ?_⟩
  · obtain rfl := List.mem_singleton.mp member
    trivial
  · obtain rfl := List.mem_singleton.mp member
    refine ⟨by decide, rfl, by decide, by decide, by simp [sumFunction, TypeSource.Written], trivial, fun block member => ?_⟩
    obtain rfl := List.mem_singleton.mp member
    refine ⟨(by decide +kernel : IsWord _), ?_⟩
    simp [OrderSource.Written, SIZE_MAX]

theorem sumSource_plain : sumSource.Plain := by
  refine ⟨fun entry member => List.mem_singleton.mp member, rfl, rfl, fun function member => ?_, fun function member => ?_⟩
  · obtain rfl := List.mem_singleton.mp member
    simp [sumFunction]
  · obtain rfl := List.mem_singleton.mp member
    simp [sumFunction, OrderSource.Plain]

/-- The call that `main` makes: 20, 30 and 40 are added. -/
theorem loadModule_meaning_sum : ∃ vm mod linked s,
    ((⟨[], []⟩ : CatVM).preLoadModule "test".toList sumSource.print).loadModule plainLibrary firstListed "test".toList =
        .ok (vm, some "test".toList) ∧
      vm.getModule "test".toList = some mod ∧ mod.functions[0]? = some linked ∧
      Returns (fun fuel => runFunction idleRuntime mod.constValues [20, 30, 40] fuel ⟨linked, none, 0, false⟩ linked (fun _ => 0)
        emptyMemory) (s, 90) := by
  have reached : Reached plainLibrary ⟨[], []⟩ := .start
  have absent : (⟨[], []⟩ : CatVM).getModule "test".toList = none := rfl
  obtain ⟨vm, mod, run, here, _, _, means⟩ :=
    loadModule_meaning reached absent sumSource_written sumSource_plain (by decide +kernel) firstListed
  obtain ⟨linked, listed, runs⟩ := means 0 sumFunction [20, 30, 40] ⟨64, 90⟩ rfl (by decide +kernel)
  obtain ⟨s, word, returned, value, _⟩ := runs idleRuntime ⟨linked, none, 0, false⟩ (fun _ => 0) emptyMemory
    ⟨(by decide : 5 + 1 < 2 ^ 64), rfl⟩ rfl
  have sum : word = 90 := by simpa using value
  exact ⟨vm, mod, linked, s, run, here, listed, sum ▸ returned⟩

end CatLa
