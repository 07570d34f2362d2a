import CatLa.Vm.LinkSoundness
import CatLa.Vm.OperandKinds

namespace CatLa
open FuelLoop Outcome

namespace Order

/-- The registers that `eval` reads or writes. For `void` it has no branch. -/
def accesses (registersSize : Nat) : Order → List Nat
  | jumpToLabel _ _ => []
  | returnFunction resultRegister => [resultRegister, registersSize]
  | setObjectFieldOwnership targetRegister fieldObjectRegisterIndex _ _ _ _ => [targetRegister, fieldObjectRegisterIndex]
  | getConstInteger _ resultRegister _ => [resultRegister]
  | getArgument resultRegister _ => [resultRegister]
  | addInteger type resultRegister leftRegisterIndex rightRegisterIndex =>
    if type = .void then [] else [leftRegisterIndex, rightRegisterIndex, resultRegister]
  | getObjectFieldOwnership targetRegister resultRegister _ _ _ _ => [targetRegister, resultRegister]
  | newClassObject resultRegister _ _ _ => [resultRegister]

def argumentIndices : Order → List Nat
  | getArgument _ argumentIndex => [argumentIndex]
  | _ => []

def constIndices : Order → List Nat
  | getConstInteger _ _ constIndex => [constIndex]
  | _ => []

/-- An order stays inside the registers, the declared arguments and the integer
constants. -/
structure InBounds (constValues : List ConstValue) (f : VMFunction) (order : Order) : Prop where
  registers : ∀ i ∈ order.accesses f.registersSize, i ≤ f.registersSize
  arguments : ∀ i ∈ order.argumentIndices, i < f.argumentTypeInfos.length
  constants : ∀ i ∈ order.constIndices, ∃ byteSize value, constValues[i]? = some ⟨byteSize, .integer value⟩

end Order

/-- The thread is at an order of a block of its function. -/
def CallState.AtOrder (s : CallState) : Prop :=
  ∃ label block, s.thread.currentLabelBlock = some label ∧ s.thread.currentFunction.labelBlocks[label]? = some block ∧
    s.thread.currentOrderIndex < block.orders.length

section Runs
variable (rt : Runtime) (constValues : List ConstValue) (arguments : List Word)

end Runs

/-- The block that a `jump_to` of this name is linked to: the last of the name. -/
def VMFunction.blockNamed (f : VMFunction) (labelName : Text) : Option LabelBlock :=
  (f.labelBlocks.filter (·.name = labelName)).getLast?

/-- What neither the parser nor `link` looks at: that the numbers of an order
are in range, and that a `jump_to` names a block that has orders. -/
structure Order.Checked (constValues : List ConstValue) (f : VMFunction) (order : Order) : Prop where
  inBounds : order.InBounds constValues f
  target : ∀ labelName label, order = .jumpToLabel labelName label →
    ∃ block, f.blockNamed labelName = some block ∧ block.orders ≠ []

/-- There is a first order. -/
def VMFunction.Enters (f : VMFunction) : Prop := ∃ entry, f.labelBlocks[0]? = some entry ∧ entry.orders ≠ []

structure VMFunction.Checked (constValues : List ConstValue) (f : VMFunction) : Prop where
  enters : f.Enters
  orders : ∀ block ∈ f.labelBlocks, ∀ order ∈ block.orders, order.Checked constValues f

/-- Every `jump_to` has been linked. -/
def VMFunction.JumpsLinked (f : VMFunction) : Prop :=
  ∀ block ∈ f.labelBlocks, ∀ labelName label, .jumpToLabel labelName label ∈ block.orders →
    label = (buildLabelBlockMap f.labelBlocks).get labelName

theorem getLast_nameTable {α : Type} {nameOf : α → Text} (items : List α) (name : Text) :
    (items.filter (nameOf · = name)).getLast? = ((nameTable nameOf items).get name).bind (items[·]?) := by
  induction items using List.reverseRecOn with
  | nil => simp [nameTable]
  | append_singleton items last ih =>
    rw [nameTable_append, PointerMap.get_put, List.filter_append]
    by_cases same : name = nameOf last
    · simp [same]
    · rw [if_neg same, List.filter_cons_of_neg (by simpa using Ne.symm same), List.filter_nil, List.append_nil, ih]
      refine Option.bind_congr fun i found => ?_
      obtain ⟨item, here, _⟩ := get_nameTable found
      exact (List.getElem?_append_left (List.getElem?_eq_some_iff.mp here).1).symm

theorem VMFunction.blockNamed_eq (f : VMFunction) (labelName : Text) :
    f.blockNamed labelName = ((buildLabelBlockMap f.labelBlocks).get labelName).bind (f.labelBlocks[·]?) :=
  getLast_nameTable f.labelBlocks labelName

section Steps
variable {rt : Runtime} {constValues : List ConstValue} {arguments : List Word} {f : VMFunction} {s s' : CallState}
  {order : Order} {thread thread' : VMThread} {data data' : VMData}

theorem atOrder_of_order (here : s.order = some order) :
    s.AtOrder ∧ ∃ block ∈ s.thread.currentFunction.labelBlocks, order ∈ block.orders := by
  obtain ⟨place, atPlace, found⟩ := place_of_order here
  obtain ⟨block, atLabel, atIndex⟩ := Option.bind_eq_some_iff.mp found
  obtain ⟨label, current, same⟩ := Option.bind_eq_some_iff.mp atPlace
  split at same
  · obtain rfl := Option.some.inj same
    exact ⟨⟨label, block, current, atLabel, (List.getElem?_eq_some_iff.mp atIndex).1⟩, block, List.mem_of_getElem? atLabel,
      List.mem_of_getElem? atIndex⟩
  · exact absurd same (by simp)

/-- What an order does to the place of the thread. -/
theorem Order.eval_place (run : order.eval rt constValues arguments thread data = some (thread', data')) :
    (∃ labelName label, order = .jumpToLabel labelName label ∧
        thread'.currentLabelBlock = label ∧ thread'.currentOrderIndex = 0 ∧ thread'.returnFunction = thread.returnFunction) ∨
      (∀ labelName label, order ≠ .jumpToLabel labelName label) ∧
        thread'.currentLabelBlock = thread.currentLabelBlock ∧ thread'.currentOrderIndex = thread.currentOrderIndex := by
  by_cases ordinary : order.Ordinary
  · rw [eval_ordinary (f := thread.currentFunction) ordinary] at run
    obtain ⟨_, _, same⟩ := Option.map_eq_some_iff.mp run
    obtain ⟨rfl, _⟩ := Prod.mk.inj same
    refine .inr ⟨?_, rfl, rfl⟩
    rintro labelName label rfl
    exact ordinary
  · cases order with
    | jumpToLabel labelName label =>
      obtain ⟨rfl, _⟩ := Prod.mk.inj (Option.some.inj run)
      exact .inl ⟨labelName, label, rfl, rfl, rfl, rfl⟩
    | returnFunction resultRegister =>
      simp only [eval, Option.bind_eq_some_iff, Option.map_eq_some_iff, Prod.mk.injEq] at run
      obtain ⟨_, _, _, _, rfl, _⟩ := run
      exact .inr ⟨by simp, rfl, rfl⟩
    | _ => exact absurd trivial ordinary

/-- The block that a linked `jump_to` goes to. -/
theorem VMFunction.JumpsLinked.target (linked : f.JumpsLinked) (called : s.thread.currentFunction = f)
    {labelName : Text} {label : Option Nat} (here : s.order = some (.jumpToLabel labelName label)) :
    f.blockNamed labelName = label.bind (f.labelBlocks[·]?) ∧ ∀ i, label = some i → i < f.labelBlocks.length := by
  obtain ⟨_, block, known, member⟩ := atOrder_of_order here
  rw [called] at known
  have link := linked block known labelName label member
  refine ⟨by rw [f.blockNamed_eq, link], fun i same => ?_⟩
  rw [link, buildLabelBlockMap_eq] at same
  obtain ⟨_, atIndex, _⟩ := get_nameTable same
  exact (List.getElem?_eq_some_iff.mp atIndex).1

/-- A pass that goes on from a checked order gets to an order. After a `jump_to`
that is the second order of the block, if it has one. -/
theorem CallState.AtOrder.next (here : s.AtOrder) (linked : f.JumpsLinked) (called : s.thread.currentFunction = f)
    (checked : ∀ order, s.order = some order → order.Checked constValues f)
    (run : runBody rt constValues arguments s = some (.again s')) : s'.AtOrder := by
  obtain ⟨order, thread, label, block, atOrder, eval, same, atLabel, atBlock, more, _⟩ := runBody_again_iff.mp run
  refine ⟨label, block, by rw [same, atLabel], by rw [same]; exact atBlock, ?_⟩
  rw [same]
  have function : thread.currentFunction = f := (Order.eval_keeps eval).1.trans called
  rcases Order.eval_place eval with ⟨labelName, target, rfl, went, zero, _⟩ | ⟨_, stays, still⟩
  · obtain ⟨named, found, nonempty⟩ := (checked _ atOrder).target labelName target rfl
    rw [(linked.target called atOrder).1, ← went, atLabel, Option.bind_some, ← function, atBlock] at found
    obtain rfl := Option.some.inj found
    have filled := List.length_pos_iff.mpr nonempty
    show thread.currentOrderIndex + 1 < block.orders.length
    omega
  · obtain ⟨label', block', current, atLabel', inside⟩ := here
    obtain rfl := Option.some.inj (current.symm.trans (stays.symm.trans atLabel))
    rw [called, ← function, atBlock] at atLabel'
    obtain rfl := Option.some.inj atLabel'
    show thread.currentOrderIndex + 1 < block.orders.length
    omega

end Steps

section Loaded
variable {library : StandardLibrary} {after : CatVM} {mod : VMModule} {read : VMFunction}
  {constValues : List ConstValue} {order : Order} {typeOf : TypePointer → Option VMType}
  {usingTypes : List (Option TypePointer)} {label : Text → Option Nat}

end Loaded

section Checks
variable (rt : Runtime) (constValues : List ConstValue) (arguments : List Word)

end Checks

section Load
variable {library : StandardLibrary} {order : LoadOrder} {vm vm' : CatVM} {name m : Text}
  {source mod : VMModule} {function : VMFunction} {i : Nat}

end Load

end CatLa
