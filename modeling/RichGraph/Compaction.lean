-- The compaction: which files it selects, how it merges them, and how the
-- merged records are cut into output files.
import RichGraph.SSTable
import RichGraph.Lib.Merge
import RichGraph.Lib.Lists

namespace RichGraph

/-- The settings of a store. The sizes that the source fixes by a macro are settings here. -/
structure Options where
  /-- `FLAGS_reserve_node` -/
  reserveNode : Nat
  /-- edges that a memtable takes -/
  maxEdgeNum : Nat
  maxEdgeNum_pos : 0 < maxEdgeNum
  /-- widths of the property columns -/
  propertyLengths : List Nat
  /-- vertices that are initialised -/
  vertexNum : Nat
  vertexNum_le : vertexNum ≤ invalidVertexId
  /-- `MAX_EFILE_SiZE`; an empty file is smaller -/
  maxEFileSize : Nat
  maxEFileSize_gt : 68 < maxEFileSize
  /-- `BODY_BUFFER_SIZE` -/
  bodyBufferSize : Nat
  levelMaxSize : Nat → Nat

/-- `MAX_LEVEL` -/
def maxLevel : Nat := 5

namespace Compaction

/-! ## The selection -/

/-- `GetRange`: from the least first key to the greatest last key. The source asserts that
there is an input. -/
def getRange : List SSTable → Nat × Nat
  | [] => (0, 0)
  | f :: fs => fs.foldl (fun r g => (min r.1 g.minKey, max r.2 g.maxKey)) (f.minKey, f.maxKey)

def overlaps (b e : Nat) (f : SSTable) : Bool := !(f.maxKey < b || e < f.minKey)

/-- One pass over the files of level 0: the overlapping files, or the wider range with which
the search starts again. -/
def scanLevel0 (b e : Nat) (inputs : List SSTable) : List SSTable → List SSTable ⊕ Nat × Nat
  | [] => .inl inputs
  | f :: rest =>
    if overlaps b e f then
      if f.minKey < b then .inr (f.minKey, e)
      else if e < f.maxKey then .inr (b, f.maxKey)
      else scanLevel0 b e (inputs ++ [f]) rest
    else scanLevel0 b e inputs rest

/-- The search at level 0 with a number of restarts, `none` when they do not do. Every new start
widens one end to a key of a file. -/
def searchLevel0 (files : List SSTable) : Nat → Nat → Nat → Option (List SSTable)
  | 0, _, _ => none
  | fuel + 1, b, e =>
    match scanLevel0 b e [] files with
    | .inl inputs => some inputs
    | .inr (b', e') => searchLevel0 files fuel b' e'

/-- `GetOverlappingInputs` -/
def getOverlappingInputs (level : Nat) (files : List SSTable) (b e : Nat) : List SSTable :=
  if level = 0 then (searchLevel0 files (2 * files.length + 1) b e).getD []
  else files.filter (overlaps b e)

/-- What a compaction merges, and the key up to which it goes. -/
structure Selection where
  inputs0 : List SSTable
  inputs1 : List SSTable
  largest : Nat

/-- `SetupOtherInputs` -/
def setupOtherInputs (level : Nat) (isGrow : Bool) (files nextFiles inputs0 : List SSTable) :
    Selection :=
  let range := getRange inputs0
  let inputs1 := getOverlappingInputs (level + 1) nextFiles range.1 range.2
  let all := getRange (inputs0 ++ inputs1)
  if !isGrow || inputs1.isEmpty then ⟨inputs0, inputs1, range.2⟩
  else
    let expanded0 := getOverlappingInputs level files all.1 all.2
    let new := getRange expanded0
    let expanded1 := getOverlappingInputs (level + 1) nextFiles new.1 new.2
    if inputs0.length < expanded0.length ∧ expanded1.length = inputs1.length then
      ⟨expanded0, expanded1, new.2⟩
    else ⟨inputs0, inputs1, range.2⟩

/-- `PickCompactioFile`. `pointer` is the key where the last compaction of the level ended. -/
def pickCompactioFile (level : Nat) (isGrow : Bool) (files nextFiles : List SSTable)
    (pointer : Option Nat) : Option Selection :=
  let after := files.find? fun f => match pointer with
    | none => true
    | some p => p < f.minKey
  match after.or files.head? with
  | none => none
  | some f =>
    let inputs0 :=
      if level = 0 then getOverlappingInputs 0 files f.minKey f.maxKey
      else [f]
    some (setupOtherInputs level isGrow files nextFiles inputs0)

/-! ### What is selected -/

theorem overlaps_iff {b e : Nat} {f : SSTable} :
    overlaps b e f = true ↔ b ≤ f.maxKey ∧ f.minKey ≤ e := by
  simp [overlaps]

theorem getRange_le {fs : List SSTable} {f : SSTable} (h : f ∈ fs) :
    (getRange fs).1 ≤ f.minKey ∧ f.maxKey ≤ (getRange fs).2 := by
  have hfold : ∀ (gs : List SSTable) (r : Nat × Nat),
      (gs.foldl (fun r g => (min r.1 g.minKey, max r.2 g.maxKey)) r).1 ≤ r.1 ∧
      r.2 ≤ (gs.foldl (fun r g => (min r.1 g.minKey, max r.2 g.maxKey)) r).2 ∧
      ∀ g ∈ gs, (gs.foldl (fun r g => (min r.1 g.minKey, max r.2 g.maxKey)) r).1 ≤ g.minKey ∧
        g.maxKey ≤ (gs.foldl (fun r g => (min r.1 g.minKey, max r.2 g.maxKey)) r).2 := by
    intro gs
    induction gs with
    | nil => simp
    | cons g gs ih =>
      intro r
      obtain ⟨h1, h2, h3⟩ := ih (min r.1 g.minKey, max r.2 g.maxKey)
      simp only [List.foldl_cons]
      refine ⟨by omega, by omega, ?_⟩
      intro x hx
      rcases List.mem_cons.mp hx with rfl | hx
      · omega
      · exact h3 x hx
  cases fs with
  | nil => cases h
  | cons g gs =>
    obtain ⟨h1, h2, h3⟩ := hfold gs (g.minKey, g.maxKey)
    rcases List.mem_cons.mp h with rfl | h
    · exact ⟨h1, h2⟩
    · exact h3 f h

/-- The ends of the range are keys of the files. -/
theorem getRange_attained {fs : List SSTable} (h : fs ≠ []) :
    (∃ f ∈ fs, f.minKey = (getRange fs).1) ∧ ∃ f ∈ fs, f.maxKey = (getRange fs).2 := by
  have hfold : ∀ (gs all : List SSTable) (r : Nat × Nat), (∀ g ∈ gs, g ∈ all) →
      (∃ f ∈ all, f.minKey = r.1) → (∃ f ∈ all, f.maxKey = r.2) →
      (∃ f ∈ all, f.minKey = (gs.foldl (fun r g => (min r.1 g.minKey, max r.2 g.maxKey)) r).1) ∧
        ∃ f ∈ all, f.maxKey = (gs.foldl (fun r g => (min r.1 g.minKey, max r.2 g.maxKey)) r).2 := by
    intro gs all
    induction gs with
    | nil => exact fun r _ h1 h2 => ⟨h1, h2⟩
    | cons g gs ih =>
      intro r hsub h1 h2
      have hg := hsub g List.mem_cons_self
      refine ih _ (fun x hx => hsub x (List.mem_cons_of_mem _ hx)) ?_ ?_
      · rcases Nat.le_total r.1 g.minKey with hle | hle
        · simpa [Nat.min_eq_left hle] using h1
        · exact ⟨g, hg, (Nat.min_eq_right hle).symm⟩
      · rcases Nat.le_total r.2 g.maxKey with hle | hle
        · exact ⟨g, hg, (Nat.max_eq_right hle).symm⟩
        · simpa [Nat.max_eq_left hle] using h2
  cases fs with
  | nil => exact absurd rfl h
  | cons g gs =>
    exact hfold gs (g :: gs) _ (fun x hx => List.mem_cons_of_mem _ hx)
      ⟨g, List.mem_cons_self, rfl⟩ ⟨g, List.mem_cons_self, rfl⟩

theorem scanLevel0_inl {b e : Nat} {files inputs out : List SSTable}
    (h : scanLevel0 b e inputs files = .inl out) :
    out = inputs ++ files.filter (overlaps b e) ∧
      ∀ f ∈ files, overlaps b e f = true → b ≤ f.minKey ∧ f.maxKey ≤ e := by
  induction files generalizing inputs with
  | nil =>
    cases h
    simp
  | cons f files ih =>
    simp only [scanLevel0] at h
    split at h
    · rename_i hov
      split at h
      · cases h
      · split at h
        · cases h
        · obtain ⟨hout, hin⟩ := ih h
          refine ⟨by simp [hout, hov], ?_⟩
          intro g hg hgo
          rcases List.mem_cons.mp hg with rfl | hg
          · omega
          · exact hin g hg hgo
    · rename_i hov
      obtain ⟨hout, hin⟩ := ih h
      refine ⟨by simp [hout, hov], ?_⟩
      intro g hg hgo
      rcases List.mem_cons.mp hg with rfl | hg
      · exact absurd hgo hov
      · exact hin g hg hgo

/-- The ends of the range that are still to be widened. -/
def unswept (files : List SSTable) (b e : Nat) : Nat :=
  files.countP (fun f => f.minKey < b) + files.countP fun f => e < f.maxKey

theorem scanLevel0_inr {b e b' e' : Nat} {files inputs all : List SSTable}
    (hsub : ∀ f ∈ files, f ∈ all) (h : scanLevel0 b e inputs files = .inr (b', e')) :
    b' ≤ b ∧ e ≤ e' ∧ unswept all b' e' < unswept all b e := by
  induction files generalizing inputs with
  | nil => cases h
  | cons f files ih =>
    have hf := hsub f List.mem_cons_self
    have hsub' : ∀ g ∈ files, g ∈ all := fun g hg => hsub g (List.mem_cons_of_mem _ hg)
    simp only [scanLevel0] at h
    split at h
    · split at h
      · rename_i hlt
        cases h
        refine ⟨by omega, Nat.le_refl _, Nat.add_lt_add_right ?_ _⟩
        exact Lib.countP_lt_countP hf (by simp) (by simpa using hlt) (by simp; omega)
      · split at h
        · rename_i hlt
          cases h
          refine ⟨Nat.le_refl _, by omega, Nat.add_lt_add_left ?_ _⟩
          exact Lib.countP_lt_countP hf (by simp) (by simpa using hlt) (by simp; omega)
        · exact ih hsub' h
    · exact ih hsub' h

theorem unswept_le (files : List SSTable) (b e : Nat) : unswept files b e ≤ 2 * files.length := by
  have h1 := List.countP_le_length (p := fun f : SSTable => decide (f.minKey < b)) (l := files)
  have h2 := List.countP_le_length (p := fun f : SSTable => decide (e < f.maxKey)) (l := files)
  unfold unswept
  omega

/-- The search at level 0 ends with every file that meets a range around the one asked for,
and that range holds these files whole. -/
theorem searchLevel0_spec {files : List SSTable} (fuel b e : Nat)
    (hfuel : unswept files b e < fuel) :
    ∃ b' e', b' ≤ b ∧ e ≤ e' ∧ searchLevel0 files fuel b e = some (files.filter (overlaps b' e')) ∧
      ∀ f ∈ files, overlaps b' e' f = true → b' ≤ f.minKey ∧ f.maxKey ≤ e' := by
  induction fuel generalizing b e with
  | zero => omega
  | succ fuel ih =>
    simp only [searchLevel0]
    split
    · rename_i inputs hscan
      obtain ⟨rfl, hin⟩ := scanLevel0_inl hscan
      exact ⟨b, e, Nat.le_refl _, Nat.le_refl _, by simp, hin⟩
    · rename_i b₁ e₁ hscan
      obtain ⟨hb, he, hlt⟩ := scanLevel0_inr (fun f hf => hf) hscan
      obtain ⟨b', e', hb', he', hrest⟩ := ih b₁ e₁ (by omega)
      exact ⟨b', e', by omega, by omega, hrest⟩

theorem getOverlappingInputs_spec (level : Nat) (files : List SSTable) (b e : Nat) :
    ∃ b' e', b' ≤ b ∧ e ≤ e' ∧
      getOverlappingInputs level files b e = files.filter (overlaps b' e') ∧
      (level = 0 → ∀ f ∈ files, overlaps b' e' f = true → b' ≤ f.minKey ∧ f.maxKey ≤ e') := by
  unfold getOverlappingInputs
  by_cases h0 : level = 0
  · rw [if_pos h0]
    obtain ⟨b', e', hb, he, heq, hin⟩ :=
      searchLevel0_spec (2 * files.length + 1) b e (Nat.lt_succ_of_le (unswept_le files b e))
    exact ⟨b', e', hb, he, by rw [heq, Option.getD_some], fun _ => hin⟩
  · rw [if_neg h0]
    exact ⟨b, e, Nat.le_refl _, Nat.le_refl _, rfl, fun h => absurd h h0⟩

/-- Both files hold a record of one source. -/
def Share (f g : SSTable) : Prop := ∃ r ∈ f.records, ∃ r' ∈ g.records, r.src = r'.src

theorem overlaps_of_share {f g : SSTable} {b e : Nat} (h : Share f g) (hb : b ≤ g.minKey)
    (he : g.maxKey ≤ e) : overlaps b e f = true := by
  obtain ⟨r, hr, r', hr', heq⟩ := h
  have h1 := SSTable.minKey_le hr
  have h2 := SSTable.le_maxKey hr
  have h3 := SSTable.minKey_le hr'
  have h4 := SSTable.le_maxKey hr'
  rw [overlaps_iff]
  omega

/-- What every selection has: at level 0 no file outside shares a source with an input, and in
the next level neither. -/
structure Selected (level : Nat) (files nextFiles : List SSTable) (sel : Selection) : Prop where
  sub0 : sel.inputs0.Sublist files
  sub1 : sel.inputs1.Sublist nextFiles
  ne0 : sel.inputs0 ≠ []
  closed0 : level = 0 → ∀ f ∈ files, ∀ g ∈ sel.inputs0, Share f g → f ∈ sel.inputs0
  closed1 : ∀ f ∈ nextFiles, ∀ g ∈ sel.inputs0, Share f g → f ∈ sel.inputs1

/-- The files of the next level that meet the range of the inputs. -/
theorem getOverlappingInputs_next (level : Nat) (nextFiles inputs0 : List SSTable) :
    (getOverlappingInputs (level + 1) nextFiles (getRange inputs0).1 (getRange inputs0).2).Sublist
        nextFiles ∧
      ∀ f ∈ nextFiles, ∀ g ∈ inputs0, Share f g → f ∈ getOverlappingInputs (level + 1) nextFiles
        (getRange inputs0).1 (getRange inputs0).2 := by
  unfold getOverlappingInputs
  rw [if_neg (Nat.succ_ne_zero level)]
  refine ⟨List.filter_sublist, fun f hf g hg hs => ?_⟩
  obtain ⟨hb, he⟩ := getRange_le hg
  exact List.mem_filter.mpr ⟨hf, overlaps_of_share hs hb he⟩

theorem getOverlappingInputs_closed (level : Nat) (files : List SSTable) (b e : Nat) :
    (getOverlappingInputs level files b e).Sublist files ∧
      (level = 0 → ∀ f ∈ files, ∀ g ∈ getOverlappingInputs level files b e, Share f g →
        f ∈ getOverlappingInputs level files b e) := by
  obtain ⟨b', e', -, -, heq, hin⟩ := getOverlappingInputs_spec level files b e
  rw [heq]
  refine ⟨List.filter_sublist, fun h0 f hf g hg hs => ?_⟩
  obtain ⟨hgf, hgo⟩ := List.mem_filter.mp hg
  obtain ⟨hb, he⟩ := hin h0 g hgf hgo
  exact List.mem_filter.mpr ⟨hf, overlaps_of_share hs hb he⟩

theorem selected_setupOtherInputs {level : Nat} {isGrow : Bool}
    {files nextFiles inputs0 : List SSTable} (hsub : inputs0.Sublist files) (hne : inputs0 ≠ [])
    (hclosed : level = 0 → ∀ f ∈ files, ∀ g ∈ inputs0, Share f g → f ∈ inputs0) :
    Selected level files nextFiles (setupOtherInputs level isGrow files nextFiles inputs0) := by
  have hnext := getOverlappingInputs_next level nextFiles inputs0
  unfold setupOtherInputs
  simp only
  split
  · exact ⟨hsub, hnext.1, hne, hclosed, hnext.2⟩
  · split
    · rename_i hgrow
      generalize getRange (inputs0 ++ getOverlappingInputs (level + 1) nextFiles
        (getRange inputs0).1 (getRange inputs0).2) = all at hgrow ⊢
      have hexp := getOverlappingInputs_closed level files all.1 all.2
      have hnext' := getOverlappingInputs_next level nextFiles
        (getOverlappingInputs level files all.1 all.2)
      refine ⟨hexp.1, hnext'.1, ?_, hexp.2, hnext'.2⟩
      exact List.ne_nil_of_length_pos (Nat.lt_of_le_of_lt (Nat.zero_le _) hgrow.1)
    · exact ⟨hsub, hnext.1, hne, hclosed, hnext.2⟩

/-- The spec of `PickCompactioFile`. -/
theorem selected_pickCompactioFile {level : Nat} {isGrow : Bool}
    {files nextFiles : List SSTable} {pointer : Option Nat} {sel : Selection}
    (h : pickCompactioFile level isGrow files nextFiles pointer = some sel) :
    Selected level files nextFiles sel := by
  unfold pickCompactioFile at h
  simp only at h
  split at h
  · cases h
  · rename_i f hf
    have hmem : f ∈ files := by
      rcases Option.or_eq_some_iff.mp hf with hf | ⟨-, hf⟩
      · exact List.mem_of_find?_eq_some hf
      · exact List.mem_of_mem_head? hf
    cases h
    by_cases h0 : level = 0
    · rw [if_pos h0]
      have hclosed := getOverlappingInputs_closed 0 files f.minKey f.maxKey
      refine selected_setupOtherInputs hclosed.1 ?_ fun _ => hclosed.2 rfl
      -- The picked file meets its own range.
      obtain ⟨b', e', hb, he, heq, -⟩ := getOverlappingInputs_spec 0 files f.minKey f.maxKey
      have hself : f ∈ getOverlappingInputs 0 files f.minKey f.maxKey := by
        rw [heq]
        refine List.mem_filter.mpr ⟨hmem, overlaps_iff.mpr ?_⟩
        have := f.minKey_le_maxKey
        omega
      exact List.ne_nil_of_mem hself
    · rw [if_neg h0]
      exact selected_setupOtherInputs (List.singleton_sublist.mpr hmem) (by simp)
        fun h => absurd h h0

/-! ## The merge -/

/-- Level 0 merges all inputs at once; a deeper level merges the run of its own files with
the run of the next level's files. -/
def mergeInputs (level : Nat) (inputs0 inputs1 : List SSTable) : List EdgeRecord :=
  if level = 0 then Lib.mergeWays EdgeRecord.lt ((inputs0 ++ inputs1).map SSTable.records)
  else Lib.mergeWays EdgeRecord.lt
    [inputs0.flatMap SSTable.records, inputs1.flatMap SSTable.records]

theorem mergeInputs_perm (level : Nat) (inputs0 inputs1 : List SSTable) :
    (mergeInputs level inputs0 inputs1).Perm ((inputs0 ++ inputs1).flatMap SSTable.records) := by
  unfold mergeInputs
  split
  · exact Lib.mergeWays_perm _
  · refine (Lib.mergeWays_perm _).trans (List.Perm.of_eq ?_)
    simp [List.flatMap_append]

theorem mergeInputs_src_lt (level : Nat) (inputs0 inputs1 : List SSTable) :
    ∀ r ∈ mergeInputs level inputs0 inputs1, r.src < invalidVertexId := by
  intro r hr
  obtain ⟨f, -, hf⟩ := List.mem_flatMap.mp ((mergeInputs_perm level inputs0 inputs1).mem_iff.mp hr)
  exact f.src_lt r hf

theorem mergeWays_records_sorted {ws : List (List EdgeRecord)}
    (h : ∀ w ∈ ws, w.Pairwise EdgeRecord.le) :
    (Lib.mergeWays EdgeRecord.lt ws).Pairwise EdgeRecord.le :=
  Lib.mergeWays_sorted (fun _ _ h => h) (fun _ _ => EdgeRecord.le_of_lt)
    (fun _ _ _ => EdgeRecord.le_trans) h

/-- The merge is sorted whenever the files of a deeper level follow one another. -/
theorem mergeInputs_sorted {level : Nat} {inputs0 inputs1 : List SSTable}
    (h0 : level ≠ 0 → (inputs0.flatMap SSTable.records).Pairwise EdgeRecord.le)
    (h1 : level ≠ 0 → (inputs1.flatMap SSTable.records).Pairwise EdgeRecord.le) :
    (mergeInputs level inputs0 inputs1).Pairwise EdgeRecord.le := by
  unfold mergeInputs
  split
  · apply mergeWays_records_sorted
    intro w hw
    obtain ⟨f, -, rfl⟩ := List.mem_map.mp hw
    exact f.sorted
  · rename_i hl
    apply mergeWays_records_sorted
    intro w hw
    simp only [List.mem_cons, List.not_mem_nil, or_false] at hw
    rcases hw with rfl | rfl
    · exact h0 hl
    · exact h1 hl

/-! ## The writer -/

/-- `CurSize`: header, bodies and index, each with its closing entry. -/
def curSize (edgeCnt indexCnt : Nat) : Nat := 40 + (edgeCnt + 1) * 16 + (indexCnt + 1) * 12

/-- The records of one output file and the records after it. A file ends when a new source
comes and its size is reached. -/
def takeFile (maxEFileSize : Nat) : Nat → Nat → Option Nat → List EdgeRecord →
    List EdgeRecord × List EdgeRecord
  | _, _, _, [] => ([], [])
  | edgeCnt, indexCnt, cur, r :: rs =>
    if cur ≠ some r.src ∧ maxEFileSize ≤ curSize edgeCnt indexCnt then ([], r :: rs)
    else
      let next := takeFile maxEFileSize (edgeCnt + 1)
        (if cur = some r.src then indexCnt else indexCnt + 1) (some r.src) rs
      (r :: next.1, next.2)

theorem takeFile_append (maxEFileSize edgeCnt indexCnt : Nat) (cur : Option Nat)
    (rs : List EdgeRecord) :
    (takeFile maxEFileSize edgeCnt indexCnt cur rs).1 ++
      (takeFile maxEFileSize edgeCnt indexCnt cur rs).2 = rs := by
  induction rs generalizing edgeCnt indexCnt cur with
  | nil => rfl
  | cons r rs ih =>
    simp only [takeFile]
    split
    · rfl
    · simp only [List.cons_append, ih]

/-- The sources of the records after a file are not in the file. -/
theorem takeFile_src_lt {maxEFileSize edgeCnt indexCnt : Nat} {cur : Option Nat}
    {rs : List EdgeRecord} (hs : rs.Pairwise fun a b => a.src ≤ b.src)
    (hcur : ∀ p, cur = some p → ∀ r ∈ rs, p ≤ r.src) :
    (∀ p, cur = some p → ∀ b ∈ (takeFile maxEFileSize edgeCnt indexCnt cur rs).2, p < b.src) ∧
    ∀ a ∈ (takeFile maxEFileSize edgeCnt indexCnt cur rs).1,
      ∀ b ∈ (takeFile maxEFileSize edgeCnt indexCnt cur rs).2, a.src < b.src := by
  induction rs generalizing edgeCnt indexCnt cur with
  | nil => simp [takeFile]
  | cons r rs ih =>
    rw [List.pairwise_cons] at hs
    simp only [takeFile]
    split
    · rename_i hfull
      refine ⟨?_, by simp⟩
      intro p hp b hb
      have hpr := hcur p hp r List.mem_cons_self
      have hne : p ≠ r.src := fun h => hfull.1 (by rw [hp, h])
      rcases List.mem_cons.mp hb with rfl | hb
      · omega
      · have := hs.1 b hb
        omega
    · have hsrc : ∀ p, some r.src = some p → ∀ x ∈ rs, p ≤ x.src := by
        intro p hp
        cases hp
        exact hs.1
      obtain ⟨h1, h2⟩ := ih hs.2 hsrc
      refine ⟨?_, ?_⟩
      · intro p hp b hb
        have := hcur p hp r List.mem_cons_self
        have := h1 r.src rfl b hb
        omega
      · intro a ha b hb
        rcases List.mem_cons.mp ha with rfl | ha
        · exact h1 _ rfl b hb
        · exact h2 a ha b hb

theorem takeFile_ne_nil {o : Options} {rs : List EdgeRecord} (h : rs ≠ []) :
    (takeFile o.maxEFileSize 0 0 none rs).1 ≠ [] := by
  cases rs with
  | nil => exact absurd rfl h
  | cons r rs =>
    have hsize : ¬ o.maxEFileSize ≤ curSize 0 0 := Nat.not_le.mpr o.maxEFileSize_gt
    simp [takeFile, hsize]

end Compaction

end RichGraph
