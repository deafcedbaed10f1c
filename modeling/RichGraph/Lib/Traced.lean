-- Computations that write down what they do: whether a result of 64-bit arithmetic
-- fits, and which bytes of a file are touched. The value of a computation does not
-- depend on what is written down.
import Mathlib.Data.List.Basic
import Mathlib.Tactic.Ring

namespace Lib

inductive Event where
  /-- A result of 64 bits, and whether it is the exact one. -/
  | word (fits : Bool)
  | access (offset size : Nat)
deriving DecidableEq

/-- Nothing wraps around, and the bytes are those of a file of the given size. -/
def Event.Ok (size : Nat) : Event → Prop
  | .word fits => fits = true
  | .access offset count => offset + count ≤ size

structure Traced (α : Type*) where
  value : α
  log : List Event

namespace Traced

instance : Monad Traced where
  pure a := ⟨a, []⟩
  bind x f := ⟨(f x.value).value, x.log ++ (f x.value).log⟩

/-! ## Arithmetic and accesses -/

def add64 (a b : Nat) : Traced Nat := ⟨(a + b) % 2 ^ 64, [.word (a + b < 2 ^ 64)]⟩

def sub64 (a b : Nat) : Traced Nat := ⟨(a + 2 ^ 64 - b) % 2 ^ 64, [.word (b ≤ a)]⟩

def mul64 (a b : Nat) : Traced Nat := ⟨a * b % 2 ^ 64, [.word (a * b < 2 ^ 64)]⟩

/-- Some bytes of the file. -/
def load (file : List UInt8) (offset count : Nat) : Traced (List UInt8) :=
  ⟨(file.drop offset).take count, [.access offset count]⟩

/-! ## What a computation gives -/

variable {α β : Type*} {size : Nat} {x : Traced α} {f : α → Traced β} {v : α} {w : β}

@[simp] theorem value_pure (a : α) : (pure a : Traced α).value = a := rfl

/-- Every event is in order, on a file of the given size. -/
def Safe (size : Nat) (x : Traced α) : Prop := ∀ e ∈ x.log, e.Ok size

/-- The value, got at without a wrap and without a byte from outside of the file. -/
structure Gives (size : Nat) (x : Traced α) (v : α) : Prop where
  value : x.value = v
  safe : Safe size x

theorem gives_pure (a : α) : Gives size (pure a) a := ⟨rfl, fun _ he => nomatch he⟩

theorem Gives.bind {α β : Type} {x : Traced α} {f : α → Traced β} {v : α} {w : β}
    (hx : Gives size x v) (hf : Gives size (f v) w) : Gives size (x >>= f) w := by
  obtain ⟨rfl, hsafe⟩ := hx
  refine ⟨hf.value, fun e he => ?_⟩
  rcases List.mem_append.mp he with he | he
  · exact hsafe e he
  · exact hf.safe e he

variable {a b : Nat} {file : List UInt8}

theorem gives_add64 (h : a + b < 2 ^ 64) : Gives size (add64 a b) (a + b) := by
  refine ⟨Nat.mod_eq_of_lt h, fun e he => ?_⟩
  rw [List.mem_singleton.mp he]
  exact decide_eq_true h

theorem gives_sub64 (h : b ≤ a) (ha : a < 2 ^ 64) : Gives size (sub64 a b) (a - b) := by
  refine ⟨?_, fun e he => ?_⟩
  · unfold sub64
    dsimp only
    omega
  · rw [List.mem_singleton.mp he]
    exact decide_eq_true h

theorem gives_mul64 (h : a * b < 2 ^ 64) : Gives size (mul64 a b) (a * b) := by
  refine ⟨Nat.mod_eq_of_lt h, fun e he => ?_⟩
  rw [List.mem_singleton.mp he]
  exact decide_eq_true h

theorem gives_load {offset count : Nat} (h : offset + count ≤ file.length) :
    Gives file.length (load file offset count) ((file.drop offset).take count) := by
  refine ⟨rfl, fun e he => ?_⟩
  rw [List.mem_singleton.mp he]
  exact h

end Traced

end Lib
