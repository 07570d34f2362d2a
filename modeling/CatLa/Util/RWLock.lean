import Mathlib.Algebra.BigOperators.Group.Finset.Basic
import Mathlib.Algebra.Order.BigOperators.Group.Finset
import Mathlib.Data.Fintype.BigOperators
import Mathlib.Logic.Relation

namespace CatLa

/-- Where a thread is in the code of the lock; each constructor but `idle` is
before one access to `count`, with the value of `count_temp` where it is used. -/
inductive LockControl
  | idle
  | readLoad
  | readExchange (countTemp : Nat)
  | writeLoad
  | writeExchange (countTemp : Nat)
  deriving DecidableEq, Repr

/-- A thread, and how often it holds the lock for reading and for writing. -/
structure LockThread where
  control : LockControl
  readHolds : Nat
  writeHolds : Nat
  deriving DecidableEq, Repr

/-- The four functions of `RWLock`. -/
inductive LockCall
  | readLock
  | readUnlock
  | writeLock
  | writeUnlock
  deriving DecidableEq, Repr

/-- `fetch_add(1)` on a `size_t`. -/
def fetchAddCount (count : Nat) : Nat := (count + 1) % 2 ^ 64

/-- `fetch_sub(1)` on a `size_t`. -/
def fetchSubCount (count : Nat) : Nat := (count + (2 ^ 64 - 1)) % 2 ^ 64

/-- `compare_exchange_weak`: the new value when it succeeds. -/
def compareExchangeWeak (spurious : Bool) (count expected desired : Nat) : Option Nat :=
  if !spurious && count == expected then some desired else none

namespace LockThread

/-- A thread calls a function. The unlocking functions are one access, and are
called only on what the thread holds. -/
def call (count : Nat) (thread : LockThread) : LockCall → Option (Nat × LockThread)
  | .readLock => some (count, { thread with control := .readLoad })
  | .writeLock => some (count, { thread with control := .writeLoad })
  | .readUnlock =>
    if thread.readHolds = 0 then none
    else some (fetchSubCount count, { thread with readHolds := thread.readHolds - 1 })
  | .writeUnlock =>
    if thread.writeHolds = 0 then none
    else some (fetchAddCount count, { thread with writeHolds := thread.writeHolds - 1 })

/-- The next access of a thread inside `read_lock` or `write_lock`. -/
def advance (spurious : Bool) (count : Nat) (thread : LockThread) : Option (Nat × LockThread) :=
  match thread.control with
  | .idle => none
  | .readLoad =>
    if count = 0 then some (count, { thread with control := .readLoad })
    else some (count, { thread with control := .readExchange count })
  | .readExchange countTemp =>
    match compareExchangeWeak spurious count countTemp ((countTemp + 1) % 2 ^ 64) with
    | some count => some (count, { thread with control := .idle, readHolds := thread.readHolds + 1 })
    | none => some (count, { thread with control := .readLoad })
  | .writeLoad =>
    if count ≠ 1 then some (count, { thread with control := .writeLoad })
    else some (count, { thread with control := .writeExchange count })
  | .writeExchange countTemp =>
    match compareExchangeWeak spurious count countTemp 0 with
    | some count => some (count, { thread with control := .idle, writeHolds := thread.writeHolds + 1 })
    | none => some (count, { thread with control := .writeLoad })

end LockThread

/-- The lock and the threads that use it. -/
structure RWLock (ι : Type) where
  count : Nat
  threads : ι → LockThread

namespace RWLock

section Model

variable {ι : Type}

/-- A new lock has `count = 1`, and no thread is inside its functions. -/
def make : RWLock ι := ⟨1, fun _ => ⟨.idle, 0, 0⟩⟩

def set [DecidableEq ι] (lock : RWLock ι) (t : ι) : Nat × LockThread → RWLock ι
  | (count, thread) => ⟨count, Function.update lock.threads t thread⟩

def readers [Fintype ι] (lock : RWLock ι) : Nat := ∑ t, (lock.threads t).readHolds

def writers [Fintype ι] (lock : RWLock ι) : Nat := ∑ t, (lock.threads t).writeHolds

/-- One step of one thread. -/
inductive Step [DecidableEq ι] (lock : RWLock ι) : RWLock ι → Prop
  | call (t : ι) (f : LockCall) {next : Nat × LockThread} (idle : (lock.threads t).control = .idle)
      (called : (lock.threads t).call lock.count f = some next) : Step lock (lock.set t next)
  | advance (t : ι) (spurious : Bool) {next : Nat × LockThread}
      (advanced : (lock.threads t).advance spurious lock.count = some next) : Step lock (lock.set t next)

/-- The states of the runs in which there are fewer than `2^64 - 1` readers. -/
inductive Reach [DecidableEq ι] [Fintype ι] : RWLock ι → Prop
  | start : Reach make
  | step {lock next : RWLock ι} (reach : Reach lock) (step : Step lock next) (few : next.readers < 2 ^ 64 - 1) :
      Reach next

/-- What `count` says about the holders. -/
def Exclusive [Fintype ι] (lock : RWLock ι) : Prop :=
  (lock.writers = 0 ∧ lock.count = 1 + lock.readers) ∨ (lock.writers = 1 ∧ lock.readers = 0 ∧ lock.count = 0)

/-- The values that the threads carry from the load to the exchange: only the
comparison with the loaded value is remembered. -/
def Tested (lock : RWLock ι) : Prop :=
  ∀ t, match (lock.threads t).control with
    | .readExchange countTemp => countTemp ≠ 0
    | .writeExchange countTemp => countTemp = 1
    | _ => True

end Model

section Exclusion

theorem readHolds_le {ι : Type} [Fintype ι] (lock : RWLock ι) (t : ι) : (lock.threads t).readHolds ≤ lock.readers :=
  Finset.single_le_sum (f := fun u => (lock.threads u).readHolds) (fun _ _ => Nat.zero_le _) (Finset.mem_univ t)

theorem writeHolds_le {ι : Type} [Fintype ι] (lock : RWLock ι) (t : ι) : (lock.threads t).writeHolds ≤ lock.writers :=
  Finset.single_le_sum (f := fun u => (lock.threads u).writeHolds) (fun _ _ => Nat.zero_le _) (Finset.mem_univ t)

variable {ι : Type} [DecidableEq ι] {lock next : RWLock ι} {t : ι} {count : Nat} {thread : LockThread}

theorem compareExchangeWeak_some {spurious : Bool} {count expected desired result : Nat}
    (run : compareExchangeWeak spurious count expected desired = some result) : count = expected ∧ result = desired := by
  unfold compareExchangeWeak at run
  split at run
  · rename_i test
    simp only [Bool.and_eq_true, beq_iff_eq] at test
    exact ⟨test.2, (Option.some.inj run).symm⟩
  · cases run

theorem LockThread.call_readUnlock {count count' : Nat} {thread thread' : LockThread}
    (called : thread.call count .readUnlock = some (count', thread')) :
    thread.readHolds ≠ 0 ∧ count' = fetchSubCount count ∧ thread' = { thread with readHolds := thread.readHolds - 1 } := by
  simp only [LockThread.call] at called
  split at called
  · cases called
  · rename_i held
    simp only [Option.some.injEq, Prod.mk.injEq] at called
    exact ⟨held, called.1.symm, called.2.symm⟩

theorem LockThread.call_writeUnlock {count count' : Nat} {thread thread' : LockThread}
    (called : thread.call count .writeUnlock = some (count', thread')) :
    thread.writeHolds ≠ 0 ∧ count' = fetchAddCount count ∧ thread' = { thread with writeHolds := thread.writeHolds - 1 } := by
  simp only [LockThread.call] at called
  split at called
  · cases called
  · rename_i held
    simp only [Option.some.injEq, Prod.mk.injEq] at called
    exact ⟨held, called.1.symm, called.2.symm⟩

theorem Tested.set (tested : lock.Tested)
    (own : match thread.control with
      | .readExchange countTemp => countTemp ≠ 0
      | .writeExchange countTemp => countTemp = 1
      | _ => True) : (lock.set t (count, thread)).Tested := by
  intro u
  by_cases same : u = t
  · subst same
    simpa only [RWLock.set, Function.update_self] using own
  · simpa only [RWLock.set, Function.update_of_ne same] using tested u

theorem Tested.call (tested : lock.Tested) (idle : (lock.threads t).control = .idle) {f : LockCall}
    (called : (lock.threads t).call lock.count f = some (count, thread)) : (lock.set t (count, thread)).Tested := by
  refine tested.set ?_
  cases f with
  | readLock => cases called; trivial
  | writeLock => cases called; trivial
  | readUnlock =>
    obtain ⟨held, changed, rfl⟩ := LockThread.call_readUnlock called
    simp only [idle]
  | writeUnlock =>
    obtain ⟨held, changed, rfl⟩ := LockThread.call_writeUnlock called
    simp only [idle]

theorem Tested.advance (tested : lock.Tested) {spurious : Bool}
    (advanced : (lock.threads t).advance spurious lock.count = some (count, thread)) :
    (lock.set t (count, thread)).Tested := by
  refine tested.set ?_
  unfold LockThread.advance at advanced
  split at advanced
  · cases advanced
  · split at advanced <;> cases advanced
    · trivial
    · assumption
  · split at advanced <;> cases advanced <;> trivial
  · split at advanced <;> cases advanced
    · trivial
    · rename_i one
      exact not_not.mp one
  · split at advanced <;> cases advanced <;> trivial

variable [Fintype ι]

/-- A total over the threads, when one of them changes. -/
theorem total_set (g : LockThread → Nat) (threads : ι → LockThread) (t : ι) (thread : LockThread) :
    ∑ u, g (Function.update threads t thread u) + g (threads t) = ∑ u, g (threads u) + g thread := by
  have others : ∑ u ∈ Finset.univ.erase t, g (Function.update threads t thread u) =
      ∑ u ∈ Finset.univ.erase t, g (threads u) :=
    Finset.sum_congr rfl fun u member => by rw [Function.update_of_ne (Finset.ne_of_mem_erase member)]
  rw [← Finset.add_sum_erase _ _ (Finset.mem_univ t), ← Finset.add_sum_erase _ (fun u => g (threads u)) (Finset.mem_univ t),
    others, Function.update_self]
  omega

theorem readers_set (lock : RWLock ι) (t : ι) (count : Nat) (thread : LockThread) :
    (lock.set t (count, thread)).readers + (lock.threads t).readHolds = lock.readers + thread.readHolds :=
  total_set (·.readHolds) lock.threads t thread

theorem writers_set (lock : RWLock ι) (t : ι) (count : Nat) (thread : LockThread) :
    (lock.set t (count, thread)).writers + (lock.threads t).writeHolds = lock.writers + thread.writeHolds :=
  total_set (·.writeHolds) lock.threads t thread

/-- A step that only moves the thread keeps the totals. -/
theorem Exclusive.move (exclusive : lock.Exclusive) (reads : thread.readHolds = (lock.threads t).readHolds)
    (writes : thread.writeHolds = (lock.threads t).writeHolds) : (lock.set t (lock.count, thread)).Exclusive := by
  have readers := readers_set lock t lock.count thread
  have writers := writers_set lock t lock.count thread
  have count : (lock.set t (lock.count, thread)).count = lock.count := rfl
  unfold Exclusive at *
  omega

theorem Exclusive.call (exclusive : lock.Exclusive) (few : lock.readers < 2 ^ 64 - 1) {f : LockCall}
    (called : (lock.threads t).call lock.count f = some (count, thread)) :
    (lock.set t (count, thread)).Exclusive := by
  have readers := readers_set lock t count thread
  have writers := writers_set lock t count thread
  have atCount : (lock.set t (count, thread)).count = count := rfl
  have oneRead := lock.readHolds_le t
  have oneWrite := lock.writeHolds_le t
  cases f with
  | readLock =>
    cases called
    exact exclusive.move rfl rfl
  | writeLock =>
    cases called
    exact exclusive.move rfl rfl
  | readUnlock =>
    obtain ⟨held, changed, rfl⟩ := LockThread.call_readUnlock called
    have newCount := atCount.trans changed
    unfold Exclusive fetchSubCount at *
    dsimp only at *
    omega
  | writeUnlock =>
    obtain ⟨held, changed, rfl⟩ := LockThread.call_writeUnlock called
    have newCount := atCount.trans changed
    unfold Exclusive fetchAddCount at *
    dsimp only at *
    omega

theorem Exclusive.advance (exclusive : lock.Exclusive) (tested : lock.Tested)
    (few : (lock.set t (count, thread)).readers < 2 ^ 64 - 1) {spurious : Bool}
    (advanced : (lock.threads t).advance spurious lock.count = some (count, thread)) :
    (lock.set t (count, thread)).Exclusive := by
  have readers := readers_set lock t count thread
  have writers := writers_set lock t count thread
  have atCount : (lock.set t (count, thread)).count = count := rfl
  have carried := tested t
  unfold LockThread.advance at advanced
  split at advanced
  · cases advanced
  · split at advanced <;> cases advanced <;> exact exclusive.move rfl rfl
  · rename_i countTemp atT
    rw [atT] at carried
    split at advanced
    · rename_i exchanged
      obtain ⟨same, rfl⟩ := compareExchangeWeak_some exchanged
      cases advanced
      unfold Exclusive at *
      dsimp only at *
      omega
    · cases advanced
      exact exclusive.move rfl rfl
  · split at advanced <;> cases advanced <;> exact exclusive.move rfl rfl
  · rename_i countTemp atT
    rw [atT] at carried
    split at advanced
    · rename_i exchanged
      obtain ⟨same, rfl⟩ := compareExchangeWeak_some exchanged
      cases advanced
      unfold Exclusive at *
      dsimp only at *
      omega
    · cases advanced
      exact exclusive.move rfl rfl

/-- The counter agrees with the program positions of all threads. -/
theorem Reach.inv (reach : Reach lock) : lock.Exclusive ∧ lock.Tested ∧ lock.readers < 2 ^ 64 - 1 := by
  induction reach with
  | start => exact ⟨by simp [Exclusive, make, readers, writers], fun _ => trivial, by simp [make, readers]⟩
  | step previous step few ih =>
    obtain ⟨exclusive, tested, bound⟩ := ih
    cases step with
    | call t f idle called => exact ⟨exclusive.call bound called, tested.call idle called, few⟩
    | advance t spurious advanced => exact ⟨exclusive.advance tested few advanced, tested.advance advanced, few⟩

end Exclusion

end RWLock

/-- Either nobody writes and `count` is one more than the readers, or one
thread writes and nobody reads. -/
theorem rwLock_exclusion {ι : Type} [DecidableEq ι] [Fintype ι] {lock : RWLock ι} (reach : RWLock.Reach lock) :
    ((∀ t, (lock.threads t).writeHolds = 0) ∧ lock.count = 1 + lock.readers) ∨
      ((∃ t, (lock.threads t).writeHolds = 1 ∧ ∀ u, u ≠ t → (lock.threads u).writeHolds = 0) ∧
        (∀ t, (lock.threads t).readHolds = 0) ∧ lock.count = 0) := by
  obtain ⟨⟨nobody, count⟩ | ⟨one, nobody, count⟩, -, -⟩ := reach.inv
  · exact Or.inl ⟨fun t => Nat.le_zero.mp (nobody ▸ lock.writeHolds_le t), count⟩
  · refine Or.inr ⟨?_, fun t => Nat.le_zero.mp (nobody ▸ lock.readHolds_le t), count⟩
    obtain ⟨t, -, holds⟩ := Finset.exists_ne_zero_of_sum_ne_zero (one.trans_ne Nat.one_ne_zero)
    have split := Finset.add_sum_erase _ (fun u => (lock.threads u).writeHolds) (Finset.mem_univ t)
    have total : ∑ u, (lock.threads u).writeHolds = 1 := one
    have none : ∑ u ∈ Finset.univ.erase t, (lock.threads u).writeHolds = 0 := by omega
    refine ⟨t, by omega, fun u other => ?_⟩
    exact (Finset.sum_eq_zero_iff.mp none) u (Finset.mem_erase.mpr ⟨other, Finset.mem_univ u⟩)

/-- One thread has locked for reading, another waits to write. -/
def readerAndWriter : RWLock (Fin 2) :=
  (((RWLock.make.set 0 (1, ⟨.readLoad, 0, 0⟩)).set 0 (1, ⟨.readExchange 1, 0, 0⟩)).set 0 (2, ⟨.idle, 1, 0⟩)).set 1
    (2, ⟨.writeLoad, 0, 0⟩)

theorem rwLock_exclusion_readerAndWriter :
    ((∀ t, (readerAndWriter.threads t).writeHolds = 0) ∧ readerAndWriter.count = 1 + readerAndWriter.readers) ∨
      ((∃ t, (readerAndWriter.threads t).writeHolds = 1 ∧ ∀ u, u ≠ t → (readerAndWriter.threads u).writeHolds = 0) ∧
        (∀ t, (readerAndWriter.threads t).readHolds = 0) ∧ readerAndWriter.count = 0) :=
  rwLock_exclusion <|
    (((RWLock.Reach.start.step (.call 0 .readLock rfl rfl) (by decide)).step (.advance 0 false rfl) (by decide)).step
      (.advance 0 false rfl) (by decide)).step (.call 1 .writeLock rfl rfl) (by decide)

end CatLa
