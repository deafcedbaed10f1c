-- Nodes in one order, each with a height, and on every level pointers that lead to
-- the next node that is higher than the level. A new node is spliced in behind the
-- last such node before its place.
import Mathlib.Data.List.Basic
import Mathlib.Logic.Function.Basic

namespace Lib

variable {N : Type*}

/-- From every node, on every level below its height, the pointer leads to the next node of the
order that is higher than the level. -/
def Linked (height : N → Nat) (order : List N) (next : Nat → N → Option N) : Prop :=
  ∀ i A x B, order = A ++ x :: B → i < height x → next i x = B.find? fun n => decide (i < height n)

/-- The last node of the list that is higher than the level. -/
def LastAbove (height : N → Nat) (i : Nat) (A : List N) (p : N) : Prop :=
  ∃ P C, A = P ++ p :: C ∧ i < height p ∧ ∀ n ∈ C, ¬ i < height n

/-- The pointers lead from a node over these nodes, and then nowhere. -/
def Chain (next : N → Option N) : N → List N → Prop
  | x, [] => next x = none
  | x, y :: ys => next x = some y ∧ Chain next y ys

variable {height : N → Nat} {order A B : List N} {next : Nat → N → Option N} {i : Nat} {x : N}

theorem LastAbove.mem {p : N} (h : LastAbove height i A p) : p ∈ A := by
  obtain ⟨P, C, rfl, -⟩ := h
  simp

theorem lastAbove_concat (hx : i < height x) : LastAbove height i (A ++ [x]) x :=
  ⟨A, [], rfl, hx, by simp⟩

theorem LastAbove.concat {p : N} (h : LastAbove height i A p) (hx : ¬ i < height x) :
    LastAbove height i (A ++ [x]) p := by
  obtain ⟨P, C, rfl, hp, hC⟩ := h
  refine ⟨P, C ++ [x], by simp, hp, ?_⟩
  exact List.forall_mem_append.mpr ⟨hC, List.forall_mem_singleton.mpr hx⟩

theorem LastAbove.congr {height' : N → Nat} {p : N} (h : LastAbove height i A p)
    (heq : ∀ n ∈ A, height' n = height n) : LastAbove height' i A p := by
  obtain ⟨P, C, rfl, hp, hC⟩ := h
  refine ⟨P, C, rfl, ?_, fun n hn => ?_⟩
  · rwa [heq p (by simp)]
  · rw [heq n (by simp [hn])]
    exact hC n hn

/-- Nodes that are not higher than the level are passed over. -/
theorem Linked.next_of_gap (h : Linked height order next) (hx : i < height x) {C : List N}
    (horder : order = A ++ x :: (C ++ B)) (hC : ∀ n ∈ C, ¬ i < height n) :
    next i x = B.find? fun n => decide (i < height n) := by
  have hnone : C.find? (fun n => decide (i < height n)) = none := by simpa using hC
  rw [h i A x (C ++ B) horder hx, List.find?_append, hnone, Option.none_or]

/-- The pointer of the last node leads out of the list. -/
theorem LastAbove.next_eq {p : N} (h : LastAbove height i A p) (hl : Linked height (A ++ B) next) :
    next i p = B.find? fun n => decide (i < height n) := by
  obtain ⟨P, C, rfl, hp, hC⟩ := h
  exact hl.next_of_gap (A := P) hp (by simp) hC

/-- A node that is higher than the level is the last one when no node behind it is. -/
theorem LastAbove.eq_iff {p y : N} {A₁ C : List N} (h : LastAbove height i A p) (hnodup : A.Nodup)
    (hA : A = A₁ ++ y :: C) (hy : i < height y) : y = p ↔ ∀ n ∈ C, ¬ i < height n := by
  obtain ⟨P, D, rfl, hp, hD⟩ := h
  rcases List.append_eq_append_iff.mp hA with ⟨E, rfl, hE⟩ | ⟨E, rfl, hE⟩
  · cases E with
    | nil =>
      obtain ⟨rfl, rfl⟩ := List.cons.inj hE
      exact iff_of_true rfl hD
    | cons e E =>
      obtain ⟨rfl, rfl⟩ := List.cons.inj hE
      exact absurd hy (hD y (by simp))
  · cases E with
    | nil =>
      obtain ⟨rfl, rfl⟩ := List.cons.inj hE
      exact iff_of_true rfl hD
    | cons e E =>
      obtain ⟨rfl, rfl⟩ := List.cons.inj hE
      refine iff_of_false ?_ fun hC => hC p (by simp) hp
      rintro rfl
      simp [List.nodup_append] at hnodup

/-- The nodes of a level stand behind each other. -/
theorem Linked.chain (h : Linked height order next) (hx : i < height x) {C : List N}
    (horder : order = A ++ x :: (C ++ B)) (hC : ∀ n ∈ C, ¬ i < height n) :
    Chain (next i) x (B.filter fun n => decide (i < height n)) := by
  have hnext := h.next_of_gap hx horder hC
  induction B generalizing A x C with
  | nil => exact hnext
  | cons b B ih =>
    by_cases hb : i < height b
    · rw [List.filter_cons_of_pos (by simpa using hb)]
      rw [List.find?_cons_of_pos (by simpa using hb)] at hnext
      have horder' : order = (A ++ x :: C) ++ b :: ([] ++ B) := by simpa using horder
      exact ⟨hnext, ih hb horder' (by simp) (h i _ b _ horder' hb)⟩
    · rw [List.filter_cons_of_neg (by simpa using hb)]
      rw [List.find?_cons_of_neg (by simpa using hb)] at hnext
      have hC' : ∀ n ∈ C ++ [b], ¬ i < height n :=
        List.forall_mem_append.mpr ⟨hC, List.forall_mem_singleton.mpr hb⟩
      exact ih hx (by simpa using horder) hC' hnext

variable [DecidableEq N]

/-- The pointers when `x`, of height `h`, is put behind the nodes `prev`. -/
def splice (x : N) (h : Nat) (prev : Nat → N) (next : Nat → N → Option N) : Nat → N → Option N :=
  fun i n =>
    if i < h then if n = prev i then some x else if n = x then next i (prev i) else next i n
    else next i n

theorem splice_of_ne {h : Nat} {prev : Nat → N} {y : N} (hyx : y ≠ x) (hy : i < h → y ≠ prev i) :
    splice x h prev next i y = next i y := by
  unfold splice
  split
  · rename_i hi
    simp only [if_neg (hy hi)]
  · rfl

theorem find?_update (h : Nat) (hx : x ∉ B) :
    (B.find? fun n => decide (i < Function.update height x h n)) =
      B.find? fun n => decide (i < height n) := by
  induction B with
  | nil => rfl
  | cons b B ih =>
    obtain ⟨hb, hB⟩ := List.ne_and_not_mem_of_not_mem_cons hx
    simp only [List.find?_cons, Function.update_of_ne (Ne.symm hb), ih hB]

/-- A node that is put between two parts of the order, behind the last higher node of the first
part on each of its levels, is linked. -/
theorem Linked.splice {h : Nat} {prev : Nat → N} (hl : Linked height (A ++ B) next)
    (hnodup : (A ++ B).Nodup) (hx : x ∉ A ++ B) (hprev : ∀ i < h, LastAbove height i A (prev i)) :
    Linked (Function.update height x h) (A ++ x :: B) (splice x h prev next) := by
  intro i A₁ y B₁ heq hy
  obtain ⟨hnodupA, -, hdisj⟩ := List.nodup_append.mp hnodup
  have hxA : x ∉ A := fun h => hx (List.mem_append_left _ h)
  have hxB : x ∉ B := fun h => hx (List.mem_append_right _ h)
  -- the new node points where the node before it did
  have hnew : i < Function.update height x h x → Lib.splice x h prev next i x =
      B.find? fun n => decide (i < Function.update height x h n) := by
    intro hi
    rw [Function.update_self] at hi
    have hne : x ≠ prev i := fun h => hxA (h ▸ (hprev i hi).mem)
    unfold Lib.splice
    rw [if_pos hi, if_neg hne, if_pos rfl, find?_update h hxB, (hprev i hi).next_eq hl]
  rcases List.append_eq_append_iff.mp heq with ⟨C, -, hC⟩ | ⟨C, hA, hC⟩
  · cases C with
    | nil =>
      obtain ⟨rfl, rfl⟩ := List.cons.inj hC
      exact hnew hy
    | cons c C =>
      -- a node behind the new one keeps its pointers
      obtain ⟨rfl, rfl⟩ := List.cons.inj hC
      have hyB : y ∈ C ++ y :: B₁ := by simp
      have hyx : y ≠ x := fun h => hxB (h ▸ hyB)
      rw [Function.update_of_ne hyx] at hy
      rw [splice_of_ne hyx fun hi h => hdisj y (h ▸ (hprev i hi).mem) y hyB rfl,
        find?_update h fun h => hxB (by simp [h])]
      exact hl i (A ++ C) y B₁ (by simp) hy
  · cases C with
    | nil =>
      obtain ⟨rfl, rfl⟩ := List.cons.inj hC
      exact hnew hy
    | cons c C =>
      rw [List.cons_append] at hC
      obtain ⟨rfl, rfl⟩ := List.cons.inj hC
      have hyx : y ≠ x := fun h => hxA (h ▸ hA ▸ by simp)
      have hxC : x ∉ C := fun h => hxA (hA ▸ by simp [h])
      rw [Function.update_of_ne hyx] at hy
      have hnext := hl i A₁ y (C ++ B) (by simp [hA]) hy
      rw [List.find?_append] at hnext
      rw [List.find?_append, find?_update h hxC, List.find?_cons, find?_update h hxB,
        Function.update_self]
      -- it points to the new node when it is the last one before it that is high enough
      by_cases hi : i < h
      · have hlast := (hprev i hi).eq_iff hnodupA hA hy
        cases hfind : C.find? (fun n => decide (i < height n)) with
        | none =>
          have hyp : y = prev i := hlast.mpr (by simpa using hfind)
          unfold Lib.splice
          simp [hi, hyp]
        | some m =>
          have hyp : y ≠ prev i := fun h => hlast.mp h m (List.mem_of_find?_eq_some hfind)
            (by simpa using List.find?_some hfind)
          rw [splice_of_ne hyx fun _ => hyp, hnext, hfind]
          rfl
      · rw [splice_of_ne hyx fun h => absurd h hi, hnext]
        simp [hi]

end Lib
