-- Numbers as bytes, the lowest byte first or in decimal, and the FNV-1a sum of a
-- list of bytes. One changed byte always changes the sum, because a turn of the
-- sum can be undone.
import Mathlib.Data.Nat.Digits.Lemmas
import Mathlib.Data.UInt
import Mathlib.Tactic.Ring

namespace Lib

/-! ## Little-endian numbers -/

/-- The lowest `width` bytes of a number. -/
def toLe : Nat → Nat → List UInt8
  | 0, _ => []
  | width + 1, n => UInt8.ofNat n :: toLe width (n / 256)

def ofLe : List UInt8 → Nat
  | [] => 0
  | b :: bs => b.toNat + 256 * ofLe bs

@[simp] theorem length_toLe (width n : Nat) : (toLe width n).length = width := by
  induction width generalizing n with
  | zero => rfl
  | succ width ih => simp [toLe, ih]

theorem ofLe_lt (bs : List UInt8) : ofLe bs < 256 ^ bs.length := by
  induction bs with
  | nil => simp [ofLe]
  | cons b bs ih =>
    have hb := b.toNat_lt
    simp only [ofLe, List.length_cons, Nat.pow_succ]
    omega

theorem ofLe_toLe {width n : Nat} (h : n < 256 ^ width) : ofLe (toLe width n) = n := by
  induction width generalizing n with
  | zero =>
    simp only [Nat.pow_zero, Nat.lt_one_iff] at h
    simp [toLe, ofLe, h]
  | succ width ih =>
    have hdiv : n / 256 < 256 ^ width := by
      rw [Nat.pow_succ] at h
      omega
    simp only [toLe, ofLe, ih hdiv, UInt8.toNat_ofNat']
    omega

/-- Of two lists of one length, the number tells which it is. -/
theorem ofLe_inj {bs bs' : List UInt8} (hlen : bs.length = bs'.length)
    (h : ofLe bs = ofLe bs') : bs = bs' := by
  induction bs generalizing bs' with
  | nil => exact (List.length_eq_zero_iff.mp hlen.symm).symm
  | cons b bs ih =>
    cases bs' with
    | nil => cases hlen
    | cons b' bs' =>
      have hb := b.toNat_lt
      have hb' := b'.toNat_lt
      simp only [ofLe] at h
      have hhead : b.toNat = b'.toNat := by omega
      have htail : ofLe bs = ofLe bs' := by omega
      rw [UInt8.toNat_inj.mp hhead, ih (by simpa using hlen) htail]

theorem toLe_ofLe (bs : List UInt8) : toLe bs.length (ofLe bs) = bs :=
  ofLe_inj (length_toLe _ _) (ofLe_toLe (ofLe_lt bs))

/-! ## Signed numbers -/

/-- The two's complement of 64 bits. -/
def toTwos (z : Int) : Nat := (z % 2 ^ 64).toNat

def ofTwos (n : Nat) : Int := if n < 2 ^ 63 then n else n - 2 ^ 64

theorem toTwos_lt (z : Int) : toTwos z < 256 ^ 8 := by
  unfold toTwos
  omega

theorem ofTwos_toTwos {z : Int} (hlow : -2 ^ 63 ≤ z) (hhigh : z < 2 ^ 63) :
    ofTwos (toTwos z) = z := by
  unfold ofTwos toTwos
  split <;> omega

theorem ofTwos_range {n : Nat} (h : n < 256 ^ 8) : -2 ^ 63 ≤ ofTwos n ∧ ofTwos n < 2 ^ 63 := by
  unfold ofTwos
  split <;> omega

/-! ## The sum -/

def fnvOffset : UInt64 := 14695981039346656037

def fnvPrime : UInt64 := 1099511628211

/-- What undoes a multiplication by the prime. -/
def fnvInverse : UInt64 := 14886173955864302971

/-- One turn of the sum. -/
def fnvStep (hash : UInt64) (b : UInt8) : UInt64 := (hash ^^^ b.toUInt64) * fnvPrime

/-- The sum goes on over further bytes. -/
def fnv (hash : UInt64) (bs : List UInt8) : UInt64 := bs.foldl fnvStep hash

theorem fnv_append (hash : UInt64) (bs bs' : List UInt8) :
    fnv hash (bs ++ bs') = fnv (fnv hash bs) bs' := List.foldl_append

theorem mul_fnvPrime_inj {a b : UInt64} (h : a * fnvPrime = b * fnvPrime) : a = b := by
  have hone : fnvPrime * fnvInverse = 1 := by decide
  have hmul := congrArg (· * fnvInverse) h
  simpa only [UInt64.mul_assoc, hone, UInt64.mul_one] using hmul

theorem fnvStep_inj_hash {hash hash' : UInt64} {b : UInt8} (h : fnvStep hash b = fnvStep hash' b) :
    hash = hash' := (UInt64.xor_left_inj _).mp (mul_fnvPrime_inj h)

theorem fnvStep_inj_byte {hash : UInt64} {b b' : UInt8} (h : fnvStep hash b = fnvStep hash b') :
    b = b' := by
  have hbyte := (UInt64.xor_right_inj _).mp (mul_fnvPrime_inj h)
  have hnat : b.toNat = b'.toNat := by simpa using congrArg UInt64.toNat hbyte
  exact UInt8.toNat_inj.mp hnat

/-- The bytes that follow keep two sums apart. -/
theorem fnv_inj_hash {hash hash' : UInt64} {bs : List UInt8} (h : fnv hash bs = fnv hash' bs) :
    hash = hash' := by
  induction bs generalizing hash hash' with
  | nil => exact h
  | cons b bs ih => exact fnvStep_inj_hash (ih h)

/-- One changed byte changes the sum. -/
theorem fnv_set_ne {hash : UInt64} {bs : List UInt8} {i : Nat} {b b' : UInt8}
    (hb : bs[i]? = some b) (hne : b' ≠ b) : fnv hash (bs.set i b') ≠ fnv hash bs := by
  obtain ⟨hi, hget⟩ := List.getElem?_eq_some_iff.mp hb
  have hold : bs = bs.take i ++ b :: bs.drop (i + 1) := by
    rw [← hget, List.getElem_cons_drop hi, List.take_append_drop]
  have hnew : bs.set i b' = bs.take i ++ b' :: bs.drop (i + 1) := by
    rw [List.set_eq_take_append_cons_drop, if_pos hi]
  intro h
  rw [hnew, fnv_append] at h
  have hsame := h.trans ((congrArg (fnv hash) hold).trans (fnv_append _ _ _))
  exact hne (fnvStep_inj_byte (fnv_inj_hash hsame))

/-! ## Decimal numbers -/

/-- The ASCII digits of a number. -/
def decimal (n : Nat) : List UInt8 :=
  if n = 0 then [48] else (Nat.digits 10 n).reverse.map fun d => UInt8.ofNat (48 + d)

theorem mem_decimal {n : Nat} {b : UInt8} (h : b ∈ decimal n) : 48 ≤ b.toNat ∧ b.toNat < 58 := by
  unfold decimal at h
  split at h
  · simp only [List.mem_singleton] at h
    subst h
    decide
  · obtain ⟨d, hd, rfl⟩ := List.mem_map.mp h
    have hlt : d < 10 := Nat.digits_lt_base (by decide) (List.mem_reverse.mp hd)
    rw [UInt8.toNat_ofNat']
    omega

/-- The number that the digits stand for. -/
theorem ofDigits_decimal (n : Nat) :
    Nat.ofDigits 10 ((decimal n).reverse.map fun b => b.toNat - 48) = n := by
  unfold decimal
  split
  · rename_i hzero
    subst hzero
    rfl
  · have hdigits : ((Nat.digits 10 n).map fun d => UInt8.ofNat (48 + d)).map
        (fun b => b.toNat - 48) = Nat.digits 10 n := by
      rw [List.map_map]
      refine (List.map_congr_left fun d hd => ?_).trans (List.map_id _)
      have hlt : d < 10 := Nat.digits_lt_base (by decide) hd
      simp only [Function.comp_apply, UInt8.toNat_ofNat', id_eq]
      omega
    rw [← List.map_reverse, List.reverse_reverse, hdigits, Nat.ofDigits_digits]

theorem decimal_injective {n m : Nat} (h : decimal n = decimal m) : n = m := by
  rw [← ofDigits_decimal n, ← ofDigits_decimal m, h]

/-- A number is read back when what stands before it ends in a byte that is no digit. -/
theorem append_decimal_injective {a a' sep : List UInt8} {c : UInt8}
    (hc : c.toNat < 48 ∨ 58 ≤ c.toNat) {n n' : Nat}
    (h : a ++ (sep ++ [c]) ++ decimal n = a' ++ (sep ++ [c]) ++ decimal n') : a = a' ∧ n = n' := by
  have hcut : ∀ (a : List UInt8) (m : Nat),
      ((a ++ (sep ++ [c]) ++ decimal m).reverse.takeWhile (· ≠ c)).reverse = decimal m := by
    intro a m
    have hdigits : ∀ b ∈ (decimal m).reverse, decide (b ≠ c) = true := by
      intro b hb
      have := mem_decimal (List.mem_reverse.mp hb)
      refine decide_eq_true ?_
      rintro rfl
      omega
    rw [List.reverse_append, List.takeWhile_append_of_pos hdigits]
    simp
  have hn : decimal n = decimal n' := by rw [← hcut a n, h, hcut]
  rw [hn] at h
  exact ⟨List.append_cancel_right (List.append_cancel_right h), decimal_injective hn⟩

theorem length_decimal_pos (n : Nat) : 0 < (decimal n).length := by
  unfold decimal
  split
  · exact Nat.one_pos
  · rename_i hzero
    rw [List.length_map, List.length_reverse]
    exact List.length_pos_iff.mpr (Nat.digits_ne_nil_iff_ne_zero.mpr hzero)

theorem length_decimal_le {n : Nat} (width : Nat) (hwidth : 0 < width) (h : n < 10 ^ width) :
    (decimal n).length ≤ width := by
  unfold decimal
  split
  · exact hwidth
  · rw [List.length_map, List.length_reverse]
    exact (Nat.digits_length_le_iff (by decide) _).mpr h

end Lib
