-- Writes to places of a buffer, in any order. When every write agrees with one content
-- and every place is written, the buffer has that content.
import RichGraph.Lib.Lists

namespace Lib

variable {α : Type*}

/-- Some entries over those of a buffer, from a place on. -/
def writeAt (buf : List α) (w : Nat × List α) : List α :=
  buf.take w.1 ++ w.2 ++ buf.drop (w.1 + w.2.length)

theorem length_writeAt {buf : List α} {w : Nat × List α} (h : w.1 + w.2.length ≤ buf.length) :
    (writeAt buf w).length = buf.length := by
  simp only [writeAt, List.length_append, List.length_take, List.length_drop]
  omega

theorem getElem?_writeAt {buf : List α} {w : Nat × List α} (h : w.1 + w.2.length ≤ buf.length)
    (j : Nat) : (writeAt buf w)[j]? =
      if w.1 ≤ j ∧ j < w.1 + w.2.length then w.2[j - w.1]? else buf[j]? := by
  have htake : (buf.take w.1).length = w.1 := by
    rw [List.length_take]
    omega
  rw [writeAt, List.append_assoc]
  split
  · rw [List.getElem?_append_right (by omega), htake, List.getElem?_append_left (by omega)]
  · by_cases hlt : j < w.1
    · rw [List.getElem?_append_left (by omega), List.getElem?_take_of_lt hlt]
    · rw [List.getElem?_append_right (by omega), htake, List.getElem?_append_right (by omega),
        List.getElem?_drop]
      congr 1
      omega

/-- A place that is written, or right from the start, is right at the end. -/
theorem getElem?_foldl_writeAt {content : List α} (ws : List (Nat × List α)) {buf : List α}
    (hlen : buf.length = content.length)
    (hagree : ∀ w ∈ ws, w.1 + w.2.length ≤ content.length ∧
      ∀ i < w.2.length, w.2[i]? = content[w.1 + i]?) {j : Nat}
    (hj : buf[j]? = content[j]? ∨ ∃ w ∈ ws, w.1 ≤ j ∧ j < w.1 + w.2.length) :
    (ws.foldl writeAt buf)[j]? = content[j]? := by
  induction ws generalizing buf with
  | nil => simpa using hj
  | cons w ws ih =>
    obtain ⟨⟨hfits, hsame⟩, hrest⟩ := List.forall_mem_cons.mp hagree
    rw [← hlen] at hfits
    refine ih ((length_writeAt hfits).trans hlen) hrest ?_
    rw [getElem?_writeAt hfits]
    by_cases hin : w.1 ≤ j ∧ j < w.1 + w.2.length
    · left
      rw [if_pos hin, hsame _ (by omega)]
      congr 1
      omega
    · rw [if_neg hin]
      refine hj.imp_right ?_
      rintro ⟨w', hw', hin'⟩
      rcases List.mem_cons.mp hw' with rfl | hw'
      · exact absurd hin' hin
      · exact ⟨w', hw', hin'⟩

/-- Pieces of one length, each at its own place, give the pieces one after the other. -/
theorem foldl_writeAt_pieces {β : Type*} {f : β → List α} {xs : List β} {len : Nat}
    (hf : ∀ x ∈ xs, (f x).length = len) {ws : List (Nat × List α)}
    (hws : ws.Perm (xs.zipIdx.map fun p => (p.2 * len, f p.1))) {buf : List α}
    (hbuf : buf.length = xs.length * len) : ws.foldl writeAt buf = xs.flatMap f := by
  have hlen : (xs.flatMap f).length = xs.length * len := by
    simp [List.length_flatMap, List.map_congr_left hf]
  have hmem : ∀ w, w ∈ ws ↔ ∃ k x, xs[k]? = some x ∧ w = (k * len, f x) := by
    intro w
    rw [hws.mem_iff, List.mem_map]
    constructor
    · rintro ⟨⟨x, k⟩, hp, rfl⟩
      exact ⟨k, x, List.mem_zipIdx_iff_getElem?.mp hp, rfl⟩
    · rintro ⟨k, x, hx, rfl⟩
      exact ⟨(x, k), List.mem_zipIdx_iff_getElem?.mpr hx, rfl⟩
  refine List.ext_getElem? fun j => ?_
  refine getElem?_foldl_writeAt ws (hbuf.trans hlen.symm) ?_ ?_
  · intro w hw
    obtain ⟨k, x, hx, rfl⟩ := (hmem w).mp hw
    obtain ⟨hk, -⟩ := List.getElem?_eq_some_iff.mp hx
    have hfx : (f x).length = len := hf x (List.mem_of_getElem? hx)
    have hend : (k + 1) * len ≤ xs.length * len := Nat.mul_le_mul_right len hk
    rw [Nat.add_mul, Nat.one_mul] at hend
    refine ⟨by rw [hlen, hfx]; exact hend, fun i hi => ?_⟩
    rw [hfx] at hi
    rw [← take_drop_flatMap hf hx, List.getElem?_take_of_lt hi, List.getElem?_drop]
  · by_cases hj : j < xs.length * len
    · -- The place belongs to the piece `j / len`.
      have hpos : 0 < len := Nat.pos_of_ne_zero fun h => by simp [h] at hj
      have hk : j / len < xs.length := Nat.div_lt_of_lt_mul (by rwa [Nat.mul_comm])
      refine Or.inr ⟨_, (hmem _).mpr ⟨j / len, _, List.getElem?_eq_getElem hk, rfl⟩, ?_⟩
      rw [hf _ (List.getElem_mem hk)]
      have hdiv := Nat.div_add_mod j len
      have hmod := Nat.mod_lt j hpos
      rw [Nat.mul_comm] at hdiv
      dsimp only
      omega
    · left
      rw [List.getElem?_eq_none (by omega), List.getElem?_eq_none (by omega)]

/-- Entries that are written one by one, each at its own place. -/
theorem foldl_writeAt_cells {xs : List α} {ws : List (Nat × List (Option α))}
    (hws : ws.Perm (xs.zipIdx.map fun p => (p.2, [some p.1]))) {n : Nat} (hn : xs.length = n) :
    ws.foldl writeAt (List.replicate n none) = xs.map some := by
  have hone : ∀ x ∈ xs, [some x].length = 1 := fun _ _ => rfl
  rw [List.map_eq_flatMap]
  refine foldl_writeAt_pieces hone ?_ (by simp [hn])
  simpa using hws

theorem zipIdx_map_zipIdx {β : Type*} (g : α × Nat → β) (xs : List α) :
    (xs.zipIdx.map g).zipIdx = xs.zipIdx.map fun p => (g p, p.2) := by
  refine List.ext_getElem? fun k => ?_
  simp [List.getElem?_zipIdx, Function.comp_def]

end Lib
