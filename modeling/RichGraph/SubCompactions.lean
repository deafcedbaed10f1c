-- The inputs of a compaction that belong together: some files of a level and the
-- files of the next level that meet their range. A file of the next level that is
-- not among them has none of their keys.
import RichGraph.PointReads
import RichGraph.Lib.Intervals

namespace RichGraph

open Compaction

namespace SubCompactions

/-- The files of a level in the order of their keys. -/
abbrev LevelOrder (files : List SSTable) : Prop :=
  Lib.InKeyOrder SSTable.minKey SSTable.maxKey files

/-- The keys from the first to the last one of the inputs. -/
def hull (sel : Selection) : Nat × Nat := getRange (sel.inputs0 ++ sel.inputs1)

/-! ## Hulls -/

/-- The file has no key of the inputs. -/
abbrev ClearOf (sel : Selection) (f : SSTable) : Prop :=
  Lib.Clear SSTable.minKey SSTable.maxKey (hull sel).1 (hull sel).2 f

/-- Inputs that belong together: some files of the level and the files of the next level that meet
their range. -/
structure Together (next : List SSTable) (sel : Selection) : Prop where
  ne_nil : sel.inputs0 ≠ []
  inputs1 : sel.inputs1 =
    next.filter (overlaps (getRange sel.inputs0).1 (getRange sel.inputs0).2)
  largest : sel.largest = (getRange sel.inputs0).2

variable {level : Nat} {files next : List SSTable} {sel : Selection} {f g : SSTable}

theorem overlaps_eq_false_iff {b e : Nat} :
    overlaps b e f = false ↔ Lib.Clear SSTable.minKey SSTable.maxKey b e f := by
  simp [overlaps, Lib.Clear]
  omega

theorem Together.hull_attained (h : Together next sel) :
    (∃ f ∈ sel.inputs0 ++ sel.inputs1, f.minKey = (hull sel).1) ∧
      ∃ f ∈ sel.inputs0 ++ sel.inputs1, f.maxKey = (hull sel).2 :=
  getRange_attained (List.append_ne_nil_of_left_ne_nil h.ne_nil _)

/-- A file of the next level that is not among the inputs has none of their keys. -/
theorem Together.clear_of_apart (h : Together next sel)
    (hapart : ∀ y ∈ next, g ≠ y → Lib.Clear SSTable.minKey SSTable.maxKey y.minKey y.maxKey g)
    (hg : g ∈ next) (hnot : g ∉ sel.inputs1) : ClearOf sel g := by
  have hclear : Lib.Clear SSTable.minKey SSTable.maxKey (getRange sel.inputs0).1
      (getRange sel.inputs0).2 g := by
    rw [← overlaps_eq_false_iff, ← Bool.not_eq_true]
    intro hov
    rw [h.inputs1] at hnot
    exact hnot (List.mem_filter.mpr ⟨hg, hov⟩)
  -- An input of the next level meets the range of the level.
  have hmeets : ∀ y ∈ sel.inputs1, y ∈ next ∧ ¬ Lib.Clear SSTable.minKey SSTable.maxKey
      (getRange sel.inputs0).1 (getRange sel.inputs0).2 y := by
    intro y hy
    rw [h.inputs1, List.mem_filter] at hy
    refine ⟨hy.1, ?_⟩
    rw [← overlaps_eq_false_iff, hy.2]
    simp
  refine Lib.clear_hull SSTable.minKey_le_maxKey hapart hclear ?_ ?_
  · obtain ⟨y, hy, heq⟩ := h.hull_attained.1
    rcases List.mem_append.mp hy with hy | hy
    · exact Or.inl (heq ▸ (getRange_le hy).1)
    · exact Or.inr ⟨y, (hmeets y hy).1, (hmeets y hy).2, heq⟩
  · obtain ⟨y, hy, heq⟩ := h.hull_attained.2
    rcases List.mem_append.mp hy with hy | hy
    · exact Or.inl (heq ▸ (getRange_le hy).2)
    · exact Or.inr ⟨y, (hmeets y hy).1, (hmeets y hy).2, heq⟩

theorem together_setupOtherInputs {isGrow : Bool} {inputs0 : List SSTable} (hne : inputs0 ≠ []) :
    Together next (setupOtherInputs level isGrow files next inputs0) := by
  have hnext : ∀ b e, getOverlappingInputs (level + 1) next b e = next.filter (overlaps b e) := by
    intro b e
    unfold getOverlappingInputs
    rw [if_neg (Nat.succ_ne_zero level)]
  unfold setupOtherInputs
  dsimp only
  split
  · exact ⟨hne, hnext _ _, rfl⟩
  · split
    · rename_i hgrow
      refine ⟨?_, hnext _ _, rfl⟩
      exact List.ne_nil_of_length_pos (Nat.lt_of_le_of_lt (Nat.zero_le _) hgrow.1)
    · exact ⟨hne, hnext _ _, rfl⟩

/-- The records of files in key order are in order. -/
theorem sorted_of_levelOrder (h : LevelOrder files) :
    (files.flatMap SSTable.records).Pairwise EdgeRecord.le := by
  induction files with
  | nil => exact List.Pairwise.nil
  | cons f files ih =>
    obtain ⟨hfirst, hrest⟩ := List.pairwise_cons.mp h
    rw [List.flatMap_cons, List.pairwise_append]
    refine ⟨f.sorted, ih hrest, fun a ha b hb => ?_⟩
    obtain ⟨g, hg, hbg⟩ := List.mem_flatMap.mp hb
    have h1 := SSTable.le_maxKey ha
    have h2 := SSTable.minKey_le hbg
    have h3 := hfirst g hg
    rw [EdgeRecord.le_iff]
    omega

/-- Files that follow one another can always be merged. -/
theorem exists_pick {o : Options} {s : Store} (hj : s.job = none) (hl : level + 1 < maxLevel)
    (hfull : o.levelMaxSize level ≤ (s.filesAt level).length)
    (hsel : pickCompactioFile level true (s.filesAt level) (s.levels (level + 1))
      (s.compactPointer level) = some sel)
    (hlevels : ∀ l, LevelOrder (s.levels l)) : ∃ s', Store.pick o level s = some s' := by
  have hselected := selected_pickCompactioFile hsel
  have hsorted : (mergeInputs level sel.inputs0 sel.inputs1).Pairwise EdgeRecord.le := by
    apply mergeInputs_sorted
    · intro h0
      have hsub := hselected.sub0
      rw [Store.filesAt, if_neg h0] at hsub
      exact sorted_of_levelOrder ((hlevels level).sublist hsub)
    · intro _
      exact sorted_of_levelOrder ((hlevels (level + 1)).sublist hselected.sub1)
  unfold Store.pick
  rw [if_pos ⟨by rw [hj]; rfl, hl, hfull⟩, hsel]
  by_cases hmoved : level ≠ 0 ∧ sel.inputs1.isEmpty
  · exact ⟨_, if_pos hmoved⟩
  · exact ⟨_, (if_neg hmoved).trans (dif_pos hsorted)⟩

/-- A file with a record of each source. -/
def fileOf (fid first : Nat) (more : List Nat) (h : (first :: more).Pairwise (· < ·))
    (hlt : ∀ v ∈ first :: more, v < invalidVertexId) : SSTable :=
  { timeStamp := fid
    records := (first :: more).map fun v =>
      { src := v, dst := 1, seq := fid, props := [], marker := false, isOut := true, edgeType := 0 }
    nonempty := by simp
    sorted := by
      rw [List.pairwise_map]
      refine h.imp fun {a b} hab => ?_
      rw [EdgeRecord.le_iff]
      exact Or.inl hab
    src_lt := by
      intro r hr
      obtain ⟨v, hv, rfl⟩ := List.mem_map.mp hr
      exact hlt v hv }

end SubCompactions

end RichGraph
