-- What a compaction of level 0 takes as its inputs: the search for the files that overlap
-- a range ends with the least closed set of files, and the files of the next level are
-- those that meet the inputs.
import RichGraph.SubCompactions
import RichGraph.CompactionMerges

namespace RichGraph

namespace Compaction

/-! ## The search -/

variable {files nextFiles : List SSTable} {b e b' e' : Nat} {f g : SSTable}

/-- Every restart widens the range to a file, so the search ends, and more restarts change
nothing. -/
theorem searchLevel0_eq {fuel fuel' : Nat} (hfuel : unswept files b e < fuel)
    (hfuel' : unswept files b e < fuel') :
    searchLevel0 files fuel b e = searchLevel0 files fuel' b e := by
  induction fuel generalizing fuel' b e with
  | zero => omega
  | succ fuel ih =>
    cases fuel' with
    | zero => omega
    | succ fuel' =>
      rw [searchLevel0, searchLevel0]
      cases hscan : scanLevel0 b e [] files with
      | inl inputs => rfl
      | inr range =>
        obtain ⟨-, -, hlt⟩ := scanLevel0_inr (fun f hf => hf) hscan
        exact ih (by omega) (by omega)

theorem searchLevel0_ends {fuel : Nat} (hfuel : 2 * files.length < fuel) :
    searchLevel0 files fuel b e = some (getOverlappingInputs 0 files b e) := by
  have hle := unswept_le files b e
  have hlt : unswept files b e < fuel := by omega
  obtain ⟨b', e', -, -, heq, -⟩ := searchLevel0_spec fuel b e hlt
  unfold getOverlappingInputs
  rw [if_pos rfl, ← searchLevel0_eq hlt (Nat.lt_succ_of_le hle), heq, Option.getD_some]

/-! ## The least closed set -/

/-- The files overlap in a key. -/
def Overlap (f g : SSTable) : Prop := overlaps g.minKey g.maxKey f = true

theorem overlaps_iff_not_clear :
    overlaps b e f = true ↔ ¬ Lib.Clear SSTable.minKey SSTable.maxKey b e f := by
  rw [← SubCompactions.overlaps_eq_false_iff, Bool.not_eq_false]

/-- A restart comes from a file that meets the range. -/
theorem scanLevel0_restart {inputs : List SSTable}
    (h : scanLevel0 b e inputs files = .inr (b', e')) :
    ∃ f ∈ files, overlaps b e f = true ∧
      (b' = f.minKey ∧ e' = e ∧ f.minKey < b ∨ b' = b ∧ e' = f.maxKey ∧ e < f.maxKey) := by
  induction files generalizing inputs with
  | nil => cases h
  | cons f files ih =>
    have hrest : ∀ {inputs}, scanLevel0 b e inputs files = .inr (b', e') →
        ∃ g ∈ f :: files, overlaps b e g = true ∧
          (b' = g.minKey ∧ e' = e ∧ g.minKey < b ∨ b' = b ∧ e' = g.maxKey ∧ e < g.maxKey) := by
      intro inputs h
      obtain ⟨g, hg, hmore⟩ := ih h
      exact ⟨g, List.mem_cons_of_mem _ hg, hmore⟩
    rw [scanLevel0] at h
    split at h
    · rename_i hov
      split at h
      · rename_i hlt
        cases h
        exact ⟨f, List.mem_cons_self, hov, Or.inl ⟨rfl, rfl, hlt⟩⟩
      · split at h
        · rename_i hlt
          cases h
          exact ⟨f, List.mem_cons_self, hov, Or.inr ⟨rfl, rfl, hlt⟩⟩
        · exact hrest h
    · exact hrest h

/-- The range of the search is always made of the range asked for and of files that every closed
set holds, so nothing else is found. -/
theorem searchLevel0_least {S : SSTable → Prop} {b₀ e₀ fuel : Nat} {out : List SSTable}
    (hS : Lib.ClosedUnder SSTable.minKey SSTable.maxKey files b₀ e₀ S)
    (hcover : Lib.CoveredBy SSTable.minKey SSTable.maxKey S b₀ e₀ b e) (hle : b ≤ e)
    (hout : searchLevel0 files fuel b e = some out) : ∀ f ∈ out, S f := by
  have hmem : ∀ f ∈ files, overlaps b e f = true → S f := fun f hf hov =>
    hcover.mem hS SSTable.minKey_le_maxKey hle hf (overlaps_iff_not_clear.mp hov)
  induction fuel generalizing b e with
  | zero => cases hout
  | succ fuel ih =>
    rw [searchLevel0] at hout
    split at hout
    · rename_i inputs hscan
      obtain ⟨rfl, -⟩ := scanLevel0_inl hscan
      cases hout
      intro f hf
      rw [List.nil_append, List.mem_filter] at hf
      exact hmem f hf.1 hf.2
    · rename_i b₁ e₁ hscan
      obtain ⟨f, hf, hov, hrange⟩ := scanLevel0_restart hscan
      have hmeets := overlaps_iff_not_clear.mp hov
      have hcover₁ : Lib.CoveredBy SSTable.minKey SSTable.maxKey S b₀ e₀ b₁ e₁ := by
        refine hcover.widen (hmem f hf hov) hmeets ?_ ?_
        · exact hrange.elim (fun h => Or.inr h.1) fun h => Or.inl h.1
        · exact hrange.elim (fun h => Or.inl h.2.1) fun h => Or.inr h.2.1
      have hle₁ : b₁ ≤ e₁ := by omega
      exact ih hcover₁ hle₁ hout fun f hf hov =>
        hcover₁.mem hS SSTable.minKey_le_maxKey hle₁ hf (overlaps_iff_not_clear.mp hov)

/-- The search finds the files that overlap the range and is closed under overlap. -/
theorem getOverlappingInputs_closedUnder (files : List SSTable) (b e : Nat) :
    (getOverlappingInputs 0 files b e).Sublist files ∧
      (∀ f ∈ files, overlaps b e f = true → f ∈ getOverlappingInputs 0 files b e) ∧
      ∀ f ∈ files, ∀ g ∈ getOverlappingInputs 0 files b e, Overlap f g →
        f ∈ getOverlappingInputs 0 files b e := by
  obtain ⟨b', e', hb, he, heq, hin⟩ := getOverlappingInputs_spec 0 files b e
  rw [heq]
  refine ⟨List.filter_sublist, fun f hf hov => ?_, fun f hf g hg hov => ?_⟩
  · rw [overlaps_iff] at hov
    exact List.mem_filter.mpr ⟨hf, overlaps_iff.mpr ⟨by omega, by omega⟩⟩
  · obtain ⟨hgf, hgo⟩ := List.mem_filter.mp hg
    obtain ⟨h1, h2⟩ := hin rfl g hgf hgo
    unfold Overlap at hov
    rw [overlaps_iff] at hov
    exact List.mem_filter.mpr ⟨hf, overlaps_iff.mpr ⟨by omega, by omega⟩⟩

/-! ## The selection -/

/-- The inputs of level 0 are always what a search found. -/
theorem setupOtherInputs_searched {isGrow : Bool} (b e : Nat) :
    ∃ b' e', (setupOtherInputs 0 isGrow files nextFiles
      (getOverlappingInputs 0 files b e)).inputs0 = getOverlappingInputs 0 files b' e' := by
  unfold setupOtherInputs
  dsimp only
  split
  · exact ⟨b, e, rfl⟩
  · split
    · exact ⟨_, _, rfl⟩
    · exact ⟨b, e, rfl⟩

/-- What a pick at level 0 gives. -/
theorem pickCompactioFile_spec {isGrow : Bool} {pointer : Option Nat} {sel : Selection}
    (h : pickCompactioFile 0 isGrow files nextFiles pointer = some sel) :
    (∃ b e, sel.inputs0 = getOverlappingInputs 0 files b e) ∧
      SubCompactions.Together nextFiles sel := by
  unfold pickCompactioFile at h
  simp only [if_true] at h
  split at h
  · cases h
  · rename_i f hf
    cases h
    have hmem : f ∈ files := by
      rcases Option.or_eq_some_iff.mp hf with hf | ⟨-, hf⟩
      · exact List.mem_of_find?_eq_some hf
      · exact List.mem_of_head? hf
    have hin := (getOverlappingInputs_closedUnder files f.minKey f.maxKey).2.1 f hmem
      (overlaps_iff.mpr ⟨f.minKey_le_maxKey, f.minKey_le_maxKey⟩)
    exact ⟨setupOtherInputs_searched _ _,
      SubCompactions.together_setupOtherInputs (List.ne_nil_of_mem hin)⟩

/-- The search at level 0 ends with the least set of files that holds all files overlapping the
range and is closed under overlap. After every pick no file outside the inputs overlaps them: at
level 0 none of their files, and in the next level not their hull. -/
theorem level_zero_inputs_are_least_and_closed (files : List SSTable) :
    (∀ b e, b ≤ e → ∃ out, (∀ fuel, 2 * files.length < fuel →
        searchLevel0 files fuel b e = some out) ∧ getOverlappingInputs 0 files b e = out ∧
      out.Sublist files ∧ (∀ f ∈ files, overlaps b e f = true → f ∈ out) ∧
      (∀ f ∈ files, ∀ g ∈ out, Overlap f g → f ∈ out) ∧
      ∀ S : SSTable → Prop, (∀ f ∈ files, overlaps b e f = true → S f) →
        (∀ f ∈ files, ∀ g, S g → Overlap f g → S f) → ∀ f ∈ out, S f) ∧
    ∀ (isGrow : Bool) (nextFiles : List SSTable) (pointer : Option Nat) (sel : Selection),
      KeysDisjoint nextFiles → pickCompactioFile 0 isGrow files nextFiles pointer = some sel →
        (∀ f ∈ files, f ∉ sel.inputs0 → ∀ g ∈ sel.inputs0, ¬ Overlap f g) ∧
        ∀ f ∈ nextFiles, f ∉ sel.inputs1 →
          overlaps (getRange (sel.inputs0 ++ sel.inputs1)).1
            (getRange (sel.inputs0 ++ sel.inputs1)).2 f = false := by
  constructor
  · intro b e hle
    obtain ⟨hsub, hrange, hclosed⟩ := getOverlappingInputs_closedUnder files b e
    refine ⟨_, fun fuel hfuel => searchLevel0_ends hfuel, rfl, hsub, hrange, hclosed, ?_⟩
    intro S hSrange hSitems
    have hS : Lib.ClosedUnder SSTable.minKey SSTable.maxKey files b e S :=
      ⟨fun f hf hmeets => hSrange f hf (overlaps_iff_not_clear.mpr hmeets),
        fun f hf g hg hmeets => hSitems f hf g hg (overlaps_iff_not_clear.mpr hmeets)⟩
    exact searchLevel0_least hS Lib.coveredBy_self hle (searchLevel0_ends (Nat.lt_succ_self _))
  · intro isGrow nextFiles pointer sel hdisjoint hpick
    obtain ⟨⟨b, e, hinputs⟩, htogether⟩ := pickCompactioFile_spec hpick
    constructor
    · intro f hf hnot g hg hov
      rw [hinputs] at hg hnot
      exact hnot ((getOverlappingInputs_closedUnder files b e).2.2 f hf g hg hov)
    · intro f hf hnot
      have hsymm : Std.Symm fun f g : SSTable => f.maxKey < g.minKey ∨ g.maxKey < f.minKey :=
        ⟨fun _ _ => Or.symm⟩
      have hapart : ∀ g ∈ nextFiles, f ≠ g →
          Lib.Clear SSTable.minKey SSTable.maxKey g.minKey g.maxKey f :=
        fun g hg hne => List.Pairwise.forall hdisjoint hf hg hne
      exact SubCompactions.overlaps_eq_false_iff.mpr (htogether.clear_of_apart hapart hf hnot)

/-- The first file takes the second one with it, and the growth takes the third. -/
theorem a_pick_grows_to_a_closed_set :
    let files := [SubCompactions.fileOf 1 10 [16] (by decide) (by decide),
      SubCompactions.fileOf 2 15 [22] (by decide) (by decide),
      SubCompactions.fileOf 3 24 [25] (by decide) (by decide),
      SubCompactions.fileOf 4 40 [41] (by decide) (by decide)]
    let nextFiles := [SubCompactions.fileOf 5 20 [30] (by decide) (by decide),
      SubCompactions.fileOf 6 32 [34] (by decide) (by decide)]
    KeysDisjoint nextFiles ∧
      (getOverlappingInputs 0 files 10 16).map SSTable.timeStamp = [1, 2] ∧
      ∃ sel, pickCompactioFile 0 true files nextFiles none = some sel ∧
        sel.inputs0.map SSTable.timeStamp = [1, 2, 3] ∧
        sel.inputs1.map SSTable.timeStamp = [5] ∧
        ∀ f ∈ files, f ∉ sel.inputs0 → ∀ g ∈ sel.inputs0, ¬ Overlap f g := by
  intro files nextFiles
  have hdisjoint : KeysDisjoint nextFiles := by unfold KeysDisjoint; decide
  refine ⟨hdisjoint, by decide +kernel, _, rfl, by decide +kernel, by decide +kernel, ?_⟩
  exact ((level_zero_inputs_are_least_and_closed files).2 true nextFiles none _ hdisjoint rfl).1

end Compaction

end RichGraph
