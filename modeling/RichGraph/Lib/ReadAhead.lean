-- A buffer that is read ahead of a file: from a pointer on it holds what the file has
-- from a place on.
import Mathlib.Data.List.Basic

namespace Lib

variable {α : Type*} {size ptr place stop : Nat} {buffer file : List α}

/-- What stands in the buffer from the pointer on, up to its size, is what the file has from the
place on, up to the stop. -/
def ReadAhead (size : Nat) (buffer file : List α) (ptr place stop : Nat) : Prop :=
  ∀ j, ptr + j < size → place + j < stop → buffer[ptr + j]? = file[place + j]?

namespace ReadAhead

theorem advance (h : ReadAhead size buffer file ptr place stop) (k : Nat) :
    ReadAhead size buffer file (ptr + k) (place + k) stop := by
  intro j hj hstop
  rw [Nat.add_assoc] at hj hstop ⊢
  rw [Nat.add_assoc]
  exact h (k + j) hj hstop

/-- The entries that a read does not reach keep what was in the buffer. -/
theorem refill {cnt : Nat} (buffer : List α) (hcnt : size ≤ cnt ∨ stop ≤ place + cnt)
    (hstop : stop ≤ file.length) :
    ReadAhead size ((file.drop place).take cnt ++ buffer.drop ((file.drop place).take cnt).length)
      file 0 place stop := by
  intro j hj hlt
  have hlen : 0 + j < ((file.drop place).take cnt).length := by
    rw [List.length_take, List.length_drop]
    omega
  rw [List.getElem?_append_left hlen, List.getElem?_take_of_lt (by omega), List.getElem?_drop,
    Nat.zero_add]

theorem take_drop (h : ReadAhead size buffer file ptr place stop) {len : Nat}
    (hptr : ptr + len ≤ size) (hplace : place + len ≤ stop) :
    (buffer.drop ptr).take len = (file.drop place).take len := by
  refine List.ext_getElem? fun j => ?_
  by_cases hj : j < len
  · rw [List.getElem?_take_of_lt hj, List.getElem?_take_of_lt hj, List.getElem?_drop,
      List.getElem?_drop]
    exact h j (by omega) (by omega)
  · rw [List.getElem?_take_eq_none (by omega), List.getElem?_take_eq_none (by omega)]

end ReadAhead

end Lib
