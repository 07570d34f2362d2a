import CatLa.Foundations.Lockstep
import CatLa.Vm.OrderEvaluation

namespace CatLa
open FuelLoop

/-- A block of a function, and an index into its orders. -/
abbrev Place := Nat × Nat

def VMFunction.orderAt (f : VMFunction) (place : Place) : Option Order :=
  (f.labelBlocks[place.1]?).bind fun block => block.orders[place.2]?

structure CallState where
  thread : VMThread
  data : VMData

/-- Where the order is that the loop of `run_function` evaluates next. -/
def CallState.place (s : CallState) : Option Place :=
  s.thread.currentLabelBlock.bind fun label =>
    if (s.thread.currentFunction.orderAt (label, s.thread.currentOrderIndex)).isSome then
      some (label, s.thread.currentOrderIndex)
    else none

section Run
variable (rt : Runtime) (constValues : List ConstValue) (arguments : List Word)

/-- The body of the loop of `run_function`. -/
def runBody (s : CallState) : Option (Next CallState CallState) :=
  s.thread.currentLabelBlock.bind fun label =>
  (s.thread.currentFunction.orderAt (label, s.thread.currentOrderIndex)).bind fun order =>
  (order.eval rt constValues arguments s.thread s.data).bind fun next =>
  let thread := { next.1 with currentOrderIndex := next.1.currentOrderIndex + 1 }
  -- `current_label_block->orders.size()`, of the block that a jump went to
  thread.currentLabelBlock.bind fun label =>
  (thread.currentFunction.labelBlocks[label]?).map fun block =>
  if thread.currentOrderIndex = block.orders.length ∨ thread.returnFunction = true then
    .done { thread := { thread with returnFunction := false }, data := next.2 }
  else .again { thread := thread, data := next.2 }

/-- `registers_size + 1`, as a `size_t`. -/
def VMFunction.registerCount (f : VMFunction) : Nat := (f.registersSize + 1) % 2 ^ 64

/-- `new uint64_t[registers_size + 1]` and `new uint64_t[variables_size]` throw
nothing: an array of `2 ^ 60` elements or more is a `bad_array_new_length`. -/
def Runtime.newFrame (rt : Runtime) (f : VMFunction) : Bool :=
  decide (f.registerCount < 2 ^ 60) && decide (f.variablesSize < 2 ^ 60) &&
    rt.operatorNew (8 * f.registerCount) (8 * f.variablesSize)

/-- The state in which `run_function` enters its loop. The registers are not
cleared: `contents` is what they hold. -/
def runStart (thread : VMThread) (function : VMFunction) (contents : Nat → Word) (memory : GcState) : CallState :=
  { thread := { thread with currentFunction := function, currentLabelBlock := some 0, currentOrderIndex := 0 }
    data := { registers := (List.range function.registerCount).map contents, memory := memory } }

/-- `run_function`. -/
def runFunction (fuel : Nat) (thread : VMThread) (function : VMFunction) (contents : Nat → Word) (memory : GcState) :
    Option (CallState × Word) :=
  if rt.newFrame function = true then
    (whileTrue (runBody rt constValues arguments) fuel (runStart thread function contents memory)).bind fun s =>
    (s.data.register function.registersSize).map fun result => (s, result)
  else none

/-- An order that moves on to the next one, on the data. -/
def Order.evalData (f : VMFunction) (order : Order) (data : VMData) : Option VMData :=
  (order.eval rt constValues arguments
    { currentFunction := f, currentLabelBlock := none, currentOrderIndex := 0, returnFunction := false } data).map Prod.snd

end Run

/-- Every `jump_to` has been linked, to a block that exists and is not empty. -/
structure VMFunction.Linked (f : VMFunction) : Prop where
  target : ∀ block ∈ f.labelBlocks, ∀ labelName label, .jumpToLabel labelName label ∈ block.orders →
    label = (buildLabelBlockMap f.labelBlocks).get labelName ∧
      ∃ i target, label = some i ∧ f.labelBlocks[i]? = some target ∧ target.orders ≠ []

/-- The array of the registers has the elements 0 to `registers_size`: the sum
does not wrap, and nothing is thrown. -/
structure Runtime.Framed (rt : Runtime) (f : VMFunction) : Prop where
  fits : f.registersSize + 1 < 2 ^ 64
  served : rt.newFrame f = true

/-- An order that neither jumps nor returns. -/
def Order.Ordinary : Order → Prop
  | .jumpToLabel _ _ => False
  | .returnFunction _ => False
  | _ => True

section Frames
variable {rt : Runtime} {f : VMFunction} {thread : VMThread} {contents : Nat → Word} {memory : GcState}

theorem runStart_length : (runStart thread f contents memory).data.registers.length = f.registerCount := by
  rw [runStart, List.length_map, List.length_range]

theorem Runtime.Framed.length (framed : rt.Framed f) :
    (runStart thread f contents memory).data.registers.length = f.registersSize + 1 :=
  runStart_length.trans (Nat.mod_eq_of_lt framed.fits)

theorem runStart_ready (ready : thread.returnFunction = false) : runStart thread f contents memory =
    ⟨⟨f, some 0, 0, false⟩, ⟨(runStart thread f contents memory).data.registers, memory⟩⟩ := by
  simp [runStart, ready]

end Frames

namespace Order
variable {rt : Runtime} {constValues : List ConstValue} {arguments : List Word} {f : VMFunction} {thread thread' : VMThread}
  {data data' : VMData} {order : Order}

theorem setRegister_length {i : Nat} {w : Word} (run : data.setRegister i w = some data') :
    data'.registers.length = data.registers.length := by
  unfold VMData.setRegister at run
  split at run
  · obtain rfl := Option.some.inj run
    exact List.length_set
  · exact absurd run (by simp)

/-- An ordinary order leaves the thread alone, and its effect on the data does
not depend on the thread. -/
theorem eval_ordinary (ordinary : order.Ordinary) :
    order.eval rt constValues arguments thread data =
      (order.evalData rt constValues arguments f data).map fun data => (thread, data) := by
  unfold evalData
  cases order with
  | jumpToLabel => exact ordinary.elim
  | returnFunction => exact ordinary.elim
  | addInteger type =>
    cases type <;> simp [eval, Option.map_bind, Function.comp_def]
  | _ => simp [eval, Option.map_bind, Function.comp_def]

theorem evalData_length (ordinary : order.Ordinary)
    (run : order.evalData rt constValues arguments f data = some data') :
    data'.registers.length = data.registers.length := by
  simp only [evalData, Option.map_eq_some_iff] at run
  obtain ⟨⟨thread', data''⟩, run, rfl⟩ := run
  cases order with
  | jumpToLabel => exact ordinary.elim
  | returnFunction => exact ordinary.elim
  | setObjectFieldOwnership targetRegister fieldObjectRegisterIndex usingTypeIndex fieldName fieldIndex borrowLock =>
    simp only [eval, Option.bind_eq_some_iff, Option.map_eq_some_iff, Prod.mk.injEq] at run
    obtain ⟨_, _, _, _, _, _, _, rfl⟩ := run
    rfl
  | getConstInteger type resultRegister constIndex =>
    simp only [eval, Option.bind_eq_some_iff, Option.map_eq_some_iff, Prod.mk.injEq] at run
    obtain ⟨_, _, _, _, _, written, _, rfl⟩ := run
    exact setRegister_length written
  | getArgument resultRegister argumentIndex =>
    simp only [eval, Option.bind_eq_some_iff, Option.map_eq_some_iff, Prod.mk.injEq] at run
    obtain ⟨_, _, _, written, _, rfl⟩ := run
    exact setRegister_length written
  | addInteger type resultRegister leftRegisterIndex rightRegisterIndex =>
    rw [eval] at run
    split at run
    · obtain ⟨_, rfl⟩ := Prod.mk.inj (Option.some.inj run)
      rfl
    · simp only [Option.bind_eq_some_iff, Option.map_eq_some_iff, Prod.mk.injEq] at run
      obtain ⟨_, _, _, _, _, _, _, written, _, rfl⟩ := run
      exact setRegister_length written
  | getObjectFieldOwnership targetRegister resultRegister usingTypeIndex fieldName fieldIndex ownershipOrder =>
    simp only [eval, Option.bind_eq_some_iff, Option.map_eq_some_iff, Prod.mk.injEq] at run
    obtain ⟨_, _, _, _, _, written, _, rfl⟩ := run
    have length := setRegister_length written
    exact length
  | newClassObject resultRegister usingTypeIndex usingType fieldLength =>
    simp only [eval, Option.bind_eq_some_iff, Option.map_eq_some_iff, Prod.mk.injEq] at run
    obtain ⟨_, _, _, written, _, rfl⟩ := run
    have length := setRegister_length written
    exact length

/-- One pass of `run_function` over an order that does not jump: the block
stays the same, so its size is that of the block the order is in. -/
theorem runBody_eval {block : LabelBlock} {label : Nat} (atLabel : f.labelBlocks[label]? = some block)
    (function : thread.currentFunction = f) (current : thread.currentLabelBlock = some label)
    (here : block.orders[thread.currentOrderIndex]? = some order)
    (run : order.eval rt constValues arguments thread data = some (thread', data'))
    (stays : thread'.currentFunction = f ∧ thread'.currentLabelBlock = some label) :
    runBody rt constValues arguments ⟨thread, data⟩ =
      if thread'.currentOrderIndex + 1 = block.orders.length ∨ thread'.returnFunction = true then
        some (.done ⟨{ thread' with currentOrderIndex := thread'.currentOrderIndex + 1, returnFunction := false }, data'⟩)
      else some (.again ⟨{ thread' with currentOrderIndex := thread'.currentOrderIndex + 1 }, data'⟩) := by
  have place : f.orderAt (label, thread.currentOrderIndex) = some order := by
    rw [VMFunction.orderAt, atLabel, Option.bind_some, here]
  rw [runBody]
  dsimp only
  rw [current, Option.bind_some, function, place, Option.bind_some, run, Option.bind_some]
  dsimp only
  rw [stays.2, Option.bind_some, stays.1, atLabel, Option.map_some]
  split <;> rfl

end Order

section Agreement
variable {rt : Runtime} {constValues : List ConstValue} {arguments : List Word} {f : VMFunction} {entry : LabelBlock}

section EntryOrder
variable {order : Order} {i : Nat} {data : VMData} (first : f.labelBlocks[0]? = some entry) (atI : entry.orders[i]? = some order)
  (registers : data.registers.length = f.registerCount)
include first atI registers

end EntryOrder

end Agreement

/-- A run leaves the flag of its thread down, so that the next one can start. -/
theorem runFunction_ready {rt : Runtime} {constValues : List ConstValue} {arguments : List Word} {fuel : Nat}
    {thread : VMThread} {f : VMFunction} {contents : Nat → Word} {memory : GcState} {s : CallState} {result : Word}
    (run : runFunction rt constValues arguments fuel thread f contents memory = some (s, result)) :
    s.thread.returnFunction = false := by
  rw [runFunction] at run
  split at run
  case isFalse => exact absurd run (by simp)
  obtain ⟨s', loop, finish⟩ := Option.bind_eq_some_iff.mp run
  obtain ⟨_, _, same⟩ := Option.map_eq_some_iff.mp finish
  obtain ⟨rfl, _⟩ := Prod.mk.inj same
  clear run finish
  generalize runStart thread f contents memory = start at loop
  induction fuel generalizing start with
  | zero => exact absurd loop (by simp [whileTrue])
  | succ fuel ih =>
    rw [whileTrue] at loop
    cases body : runBody rt constValues arguments start with
    | none => simp [body] at loop
    | some next =>
      cases next with
      | again start' =>
        rw [body] at loop
        exact ih start' loop
      | done last =>
        rw [body] at loop
        obtain rfl := Option.some.inj loop
        simp only [runBody, Option.bind_eq_some_iff, Option.map_eq_some_iff] at body
        obtain ⟨_, _, _, _, _, _, _, _, _, _, outcome⟩ := body
        split at outcome
        · injection outcome with outcome
          rw [← outcome]
        · exact absurd outcome (by simp)

section Call
variable {rt : Runtime} {constValues : List ConstValue} {arguments : List Word} {f : VMFunction} {entry : LabelBlock}
  {thread : VMThread} {contents : Nat → Word} {memory : GcState}

end Call

/-- A place for tests to run orders that need no memory. -/
def idleRuntime : Runtime :=
  { typeAddress := fun _ => 0, isCyclingType := fun _ => false, malloc := fun _ _ _ => 0, stackAbove := fun _ => 0
    operatorNew := fun _ _ => true }

def emptyMemory : GcState := { heap := fun _ => .zeroed, suspectedObjectList := [] }

/-- A function of one block, which returns its argument. -/
def straightFunction : VMFunction :=
  .make ['f'] 0 1 [⟨['a'], [.getArgument 0 0, .returnFunction 0]⟩] ⟨some .u64, 0⟩ [⟨some .u64, 0⟩]

end CatLa
