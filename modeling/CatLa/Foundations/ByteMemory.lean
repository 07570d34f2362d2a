import Mathlib.Data.Nat.Init
import Mathlib.Tactic.Ring

namespace ByteMemory

/-- A byte at every address. -/
abbrev Memory := Nat → UInt8

/-- The word of `n` bytes at `a`, least significant byte first. -/
def load (m : Memory) (a : Nat) : Nat → Nat
  | 0 => 0
  | n + 1 => (m a).toNat + 256 * load m (a + 1) n

/-- The low `n` bytes of `v` at `a`, least significant byte first. -/
def store (m : Memory) (a n v : Nat) : Memory :=
  fun b => if a ≤ b ∧ b < a + n then UInt8.ofNat (v / 256 ^ (b - a)) else m b

/-- `n` zero bytes at `a`. -/
def clear (m : Memory) (a n : Nat) : Memory := fun b => if a ≤ b ∧ b < a + n then 0 else m b

/-- Two ranges of bytes with no byte in common. -/
def Apart (a n b k : Nat) : Prop := a + n ≤ b ∨ b + k ≤ a

theorem Apart.symm {a n b k : Nat} (apart : Apart a n b k) : Apart b k a n := Or.symm apart

theorem Apart.within {a n b k a' n' b' k' : Nat} (apart : Apart a n b k) (left : a ≤ a' ∧ a' + n' ≤ a + n)
    (right : b ≤ b' ∧ b' + k' ≤ b + k) : Apart a' n' b' k' := by
  unfold Apart at apart ⊢
  omega

/-- Only bytes of `inside` differ. -/
def Frame (inside : Nat → Prop) (m m' : Memory) : Prop := ∀ b, ¬inside b → m' b = m b

/-- The bytes of one range. -/
def Range (a n : Nat) (b : Nat) : Prop := a ≤ b ∧ b < a + n

namespace Frame

variable {inside outside : Nat → Prop} {m m' m'' : Memory}

theorem refl (inside : Nat → Prop) (m : Memory) : Frame inside m m := fun _ _ => rfl

theorem trans (first : Frame inside m m') (second : Frame inside m' m'') : Frame inside m m'' :=
  fun b beyond => (second b beyond).trans (first b beyond)

theorem mono (frame : Frame inside m m') (more : ∀ b, inside b → outside b) : Frame outside m m' :=
  fun b beyond => frame b fun member => beyond (more b member)

theorem load (frame : Frame inside m m') {a n : Nat} (beyond : ∀ b, Range a n b → ¬inside b) :
    load m' a n = load m a n := by
  induction n generalizing a with
  | zero => rfl
  | succ n ih =>
    have first : m' a = m a := frame a (beyond a ⟨Nat.le_refl a, by omega⟩)
    have rest := ih (a := a + 1) fun b range => beyond b ⟨by have := range.1; omega, by have := range.2; omega⟩
    simp only [ByteMemory.load, first, rest]

theorem store {a n : Nat} (v : Nat) (range : ∀ b, Range a n b → inside b) : Frame inside m (store m a n v) :=
  fun b beyond => if_neg fun member => beyond (range b member)

theorem clear {a n : Nat} (range : ∀ b, Range a n b → inside b) : Frame inside m (clear m a n) :=
  fun b beyond => if_neg fun member => beyond (range b member)

end Frame

/-- A word is decided by its bytes. -/
theorem load_of_bytes {m : Memory} {a n v : Nat} (bytes : ∀ i, i < n → m (a + i) = UInt8.ofNat (v / 256 ^ i)) :
    load m a n = v % 256 ^ n := by
  induction n generalizing a v with
  | zero => simp [load, Nat.mod_one]
  | succ n ih =>
    have first : m a = UInt8.ofNat v := by simpa using bytes 0 (by omega)
    have rest : load m (a + 1) n = v / 256 % 256 ^ n := by
      refine ih fun i bound => ?_
      have atNext := bytes (i + 1) (by omega)
      rw [Nat.pow_succ', ← Nat.div_div_eq_div_mul] at atNext
      rw [Nat.add_right_comm, Nat.add_assoc]
      exact atNext
    rw [load, first, rest, Nat.pow_succ', Nat.mod_mul]
    simp

theorem load_store_mod (m : Memory) (a n v : Nat) : load (store m a n v) a n = v % 256 ^ n := by
  refine load_of_bytes fun i bound => ?_
  rw [store, if_pos ⟨by omega, by omega⟩, Nat.add_sub_cancel_left]

/-- What is stored in a word wide enough for it is loaded again. -/
theorem load_store (m : Memory) {a n v : Nat} (fits : v < 256 ^ n) : load (store m a n v) a n = v := by
  rw [load_store_mod, Nat.mod_eq_of_lt fits]

theorem store_byte (m : Memory) (a v : Nat) : store m a 1 v a = UInt8.ofNat v := by
  rw [store, if_pos ⟨by omega, by omega⟩]
  simp

theorem load_zero {m : Memory} {a n : Nat} (zero : ∀ b, Range a n b → m b = 0) : load m a n = 0 := by
  have value : load m a n = 0 % 256 ^ n := by
    refine load_of_bytes fun i bound => ?_
    rw [zero _ ⟨by omega, by omega⟩, Nat.zero_div]
    rfl
  rw [value, Nat.zero_mod]

theorem clear_byte (m : Memory) {a n b : Nat} (lower : a ≤ b) (upper : b < a + n) : clear m a n b = 0 :=
  if_pos ⟨lower, upper⟩

theorem load_store_apart (m : Memory) {a n b k : Nat} (v : Nat) (apart : Apart a n b k) :
    load (store m a n v) b k = load m b k := by
  have only : Frame (Range a n) m (store m a n v) := Frame.store v fun _ member => member
  refine only.load fun c range member => ?_
  unfold Range at range member
  unfold Apart at apart
  omega

theorem store_apart (m : Memory) {a n b : Nat} (v : Nat) (apart : Apart a n b 1) : store m a n v b = m b :=
  if_neg (by unfold Apart at apart; omega)

end ByteMemory
