-- A compaction from its start to its end keeps the invariant of the store, as
-- long as file ids are left and its last output file is not lost.
import RichGraph.StoreSteps

namespace RichGraph

open Compaction

namespace Store

variable {o : Options} {s s' : Store}

/-! ## The start of a compaction -/

theorem pick_cases {level : Nat} (h : pick o level s = some s') :
    s.job = none ∧ level < levelIndexSize ∧ o.levelMaxSize level ≤ (s.filesAt level).length ∧
    ∃ sel, pickCompactioFile level true (s.filesAt level) (s.levels (level + 1))
        (s.compactPointer level) = some sel ∧
      Selected level (s.filesAt level) (s.levels (level + 1)) sel ∧
      (level ≠ 0 ∧ sel.inputs1 = [] ∧ s' = directAdjustLevel level sel.inputs0 { s with
          compactPointer := fun l => if l = level then some sel.largest else s.compactPointer l } ∨
        ∃ h, s' = started level sel h s) := by
  unfold pick at h
  split at h
  · rename_i hguard
    split at h
    · cases h
    · rename_i sel hsel
      refine ⟨Option.isNone_iff_eq_none.mp hguard.1, ?_, hguard.2.2, sel, hsel,
        selected_pickCompactioFile hsel, ?_⟩
      · have := hguard.2.1
        simp only [levelIndexSize]
        omega
      · split at h
        · rename_i hadj
          cases h
          exact Or.inl ⟨hadj.1, List.isEmpty_iff.mp hadj.2, rfl⟩
        · split at h
          · rename_i hs
            cases h
            exact Or.inr ⟨hs, rfl⟩
          · cases h
  · cases h

section started

variable {level : Nat} {sel : Selection}
  {hm : (mergeInputs level sel.inputs0 sel.inputs1).Pairwise EdgeRecord.le}

theorem started_levels_next :
    (started level sel hm s).levels (level + 1) =
      removeCache sel.inputs1 (s.levels (level + 1)) := by
  simp [started, setLevel]

theorem started_levels_same (h0 : level ≠ 0) :
    (started level sel hm s).levels level = removeCache sel.inputs0 (s.levels level) := by
  simp [started, setLevel, h0]

theorem started_levels_other {l : Nat} (h1 : l ≠ level + 1) (h2 : l ≠ level ∨ level = 0) :
    (started level sel hm s).levels l = s.levels l := by
  simp only [started, setLevel, if_neg h1]
  split
  · rfl
  · rename_i h0
    rcases h2 with h2 | h2
    · simp [setLevel, h2]
    · exact absurd h2 h0

/-- A vertex of an input file waits for the merge. -/
theorem started_pending {v : Nat} {f : SSTable} (hf : f ∈ sel.inputs0 ++ sel.inputs1)
    (hv : f.Has v) : ∃ r ∈ mergeInputs level sel.inputs0 sel.inputs1, r.src = v := by
  obtain ⟨r, hr, hrv⟩ := hv
  exact ⟨r, (mergeInputs_perm level _ _).mem_iff.mpr (List.mem_flatMap.mpr ⟨f, hf, hr⟩), hrv⟩

theorem exists_input_of_pending {v : Nat}
    (h : ∃ r ∈ mergeInputs level sel.inputs0 sel.inputs1, r.src = v) :
    ∃ f ∈ sel.inputs0 ++ sel.inputs1, f.Has v := by
  obtain ⟨r, hr, hrv⟩ := h
  obtain ⟨f, hf, hfr⟩ := List.mem_flatMap.mp ((mergeInputs_perm level _ _).mem_iff.mp hr)
  exact ⟨f, hf, r, hfr, hrv⟩

theorem filter_mergeInputs_perm (v : Nat) :
    ((mergeInputs level sel.inputs0 sel.inputs1).filter (·.src = v)).Perm
      ((sel.inputs0 ++ sel.inputs1).flatMap (·.recordsOf v)) := by
  refine ((mergeInputs_perm level _ _).filter _).trans (List.Perm.of_eq ?_)
  rw [List.filter_flatMap]
  rfl

theorem filesFor_of_no_job (hj : s.job = none) (v slot : Nat) :
    s.filesFor v slot = s.levels (slot + 1) := by
  simp [filesFor, hj]

theorem retired_of_no_job (hj : s.job = none) : s.retired = [] := by
  simp [retired, hj]

theorem sublist_levels_of_selected
    (hsel : Selected level (s.filesAt level) (s.levels (level + 1)) sel)
    (h0 : level ≠ 0) : sel.inputs0.Sublist (s.levels level) := by
  have := hsel.sub0
  rwa [filesAt, if_neg h0] at this

/-- Which files a slot can point at does not change when a compaction starts. -/
theorem mem_filesFor_started (hwf : Wf s) (hj : s.job = none) (hl : level < levelIndexSize)
    (hsel : Selected level (s.filesAt level) (s.levels (level + 1)) sel) {v slot : Nat}
    {f : SSTable} (hv : f.Has v) (hslot : slot < levelIndexSize) :
    f ∈ s.filesFor v slot ↔ f ∈ (started level sel hm s).filesFor v slot := by
  rw [filesFor_of_no_job hj]
  have hfor : f ∈ (started level sel hm s).filesFor v slot ↔
      f ∈ (started level sel hm s).levels (slot + 1) ∨
        (∃ r ∈ mergeInputs level sel.inputs0 sel.inputs1, r.src = v) ∧
          f ∈ (if slot = level then sel.inputs1 else if slot + 1 = level then sel.inputs0
            else []) := by
    unfold filesFor
    rw [List.mem_append]
    refine or_congr_right ?_
    simp only [started, Job.Pending, Job.retiredAt]
    split
    · rename_i hp
      simp [hp]
    · rename_i hp
      simp [hp]
  rw [hfor]
  -- Taking inputs out of a list of files leaves the others, and an input that holds the vertex
  -- makes it wait.
  have hout : ∀ {inputs files : List SSTable}, inputs.Sublist files →
      (∀ g ∈ inputs, g ∈ sel.inputs0 ++ sel.inputs1) → (∀ g ∈ files, g ∈ s.liveFiles) →
      (f ∈ files ↔ f ∈ removeCache inputs files ∨
        (∃ r ∈ mergeInputs level sel.inputs0 sel.inputs1, r.src = v) ∧ f ∈ inputs) := by
    intro inputs files hsub hin hlive
    constructor
    · intro hf
      by_cases h : ∀ g ∈ inputs, g.timeStamp ≠ f.timeStamp
      · exact Or.inl (mem_removeCache.mpr ⟨hf, h⟩)
      · push Not at h
        obtain ⟨g, hg, he⟩ := h
        have : g = f := eq_of_timeStamp_eq hwf (hlive g (hsub.mem hg)) (hlive f hf) he
        subst this
        exact Or.inr ⟨started_pending (hin g hg) hv, hg⟩
    · rintro (hf | ⟨-, hf⟩)
      · exact (mem_removeCache.mp hf).1
      · exact hsub.mem hf
  by_cases h1 : slot = level
  · subst h1
    rw [started_levels_next, if_pos rfl]
    exact hout hsel.sub1 (fun g hg => List.mem_append_right _ hg)
      fun g hg => mem_liveFiles_of_levels hslot hg
  · rw [if_neg h1]
    by_cases h2 : slot + 1 = level
    · have h0 : level ≠ 0 := by omega
      rw [if_pos h2, h2, started_levels_same h0]
      refine hout (sublist_levels_of_selected hsel h0) (fun g hg => List.mem_append_left _ hg) ?_
      intro g hg
      rw [← h2] at hg
      exact mem_liveFiles_of_levels hslot hg
    · rw [if_neg h2, started_levels_other (by omega) (Or.inl h2)]
      simp

theorem liveFiles_started
    (hm : (mergeInputs level sel.inputs0 sel.inputs1).Pairwise EdgeRecord.le)
    (hwf : Wf s) (hj : s.job = none) (hl : level < levelIndexSize)
    (hsel : Selected level (s.filesAt level) (s.levels (level + 1)) sel) :
    s.liveFiles.Perm (started level sel hm s).liveFiles := by
  have hnext := perm_removeCache hsel.sub1 (levels_nodup hwf (mem_diskLevels hl))
  unfold liveFiles
  rw [retired_of_no_job hj, List.append_nil]
  refine List.Perm.append_left s.level0 ?_
  by_cases h0 : level = 0
  · have hperm := flatMap_setLevel diskLevels_nodup (mem_diskLevels hl) hnext
    subst h0
    simpa [started, retired] using hperm
  · obtain ⟨slot, rfl⟩ := Nat.exists_eq_succ_of_ne_zero h0
    have hmem : slot + 1 ∈ diskLevels := mem_diskLevels (by omega)
    have hsame := perm_removeCache (sublist_levels_of_selected hsel h0) (levels_nodup hwf hmem)
    have hperm := flatMap_setLevel diskLevels_nodup hmem hsame
    have hkeep : (setLevel (slot + 1) (removeCache sel.inputs0 (s.levels (slot + 1))) s.levels)
        (slot + 1 + 1) = s.levels (slot + 1 + 1) := by
      simp [setLevel]
    have hnext' := flatMap_setLevel diskLevels_nodup (mem_diskLevels hl)
      (f := setLevel (slot + 1) (removeCache sel.inputs0 (s.levels (slot + 1))) s.levels)
      (by rw [hkeep]; exact hnext)
    refine hperm.trans ((hnext'.append_right _).trans (List.Perm.of_eq ?_))
    simp [started, retired]

theorem wf_started (hwf : Wf s) (ht : s.currentTime < invalidFileId) (hj : s.job = none)
    (hl : level < levelIndexSize)
    (hsel : Selected level (s.filesAt level) (s.levels (level + 1)) sel) :
    Wf (started level sel hm s) := by
  have hlive := liveFiles_started hm hwf hj hl hsel
  refine
    { time_le := ht, live_nodup := (hlive.map _).nodup_iff.mp hwf.live_nodup, live_lt := ?_,
      live_data := fun f hf => hwf.live_data f (hlive.mem_iff.mpr hf), mem_nodup := hwf.mem_nodup,
      mem_lt := fun t h => Nat.lt_succ_of_lt (hwf.mem_lt t h),
      mem_fresh := fun t h f hf => hwf.mem_fresh t h f (hlive.mem_iff.mpr hf), index := ?_,
      job := ?_ }
  · intro f hf
    exact Nat.lt_succ_of_lt (hwf.live_lt f (hlive.mem_iff.mpr hf))
  · intro v slot hs
    exact (hwf.index v slot hs).congr fun f hv => mem_filesFor_started hwf hj hl hsel hv hs
  · intro j hj'
    cases hj'
    refine
      { level_lt := hl, inputs0_level0 := ?_, rest_records := fun v _ => filter_mergeInputs_perm v,
        next_free := ?_, fid_lt := fun _ => Nat.lt_succ_self _, fid_fresh := ?_, fid_mem := ?_ }
    · intro h0
      have hl0 : level = 0 := h0
      have := hsel.sub0
      rwa [filesAt, if_pos hl0] at this
    · -- A file of the next level with a pending vertex would have been selected.
      intro v hp f hf hfv
      dsimp only at hf
      rw [started_levels_next, mem_removeCache] at hf
      obtain ⟨g, hg, hgv⟩ := exists_input_of_pending hp
      rcases List.mem_append.mp hg with hg | hg
      · obtain ⟨r, hr, hrv⟩ := hfv
        obtain ⟨r', hr', hrv'⟩ := hgv
        exact hf.2 f (hsel.closed1 f hf.1 g hg ⟨r, hr, r', hr', hrv.trans hrv'.symm⟩) rfl
      · have hfor : ∀ {x : SSTable}, x ∈ s.levels (level + 1) → x ∈ s.filesFor v level :=
          fun hx => by rw [filesFor_of_no_job hj]; exact hx
        have := filesFor_unique hwf hl (hfor hf.1) (hfor (hsel.sub1.mem hg)) hfv hgv
        exact hf.2 g hg (by rw [this])
    · intro _ f hf
      have := hwf.live_lt f (hlive.mem_iff.mpr hf)
      dsimp only
      omega
    · intro _ t htm
      have := hwf.mem_lt t htm
      dsimp only
      omega

end started

/-! ## A compaction that only moves files -/

theorem foldr_insertFile_perm (inputs files : List SSTable) :
    (inputs.foldr insertFile files).Perm (inputs ++ files) := by
  induction inputs with
  | nil => exact List.Perm.refl _
  | cons f inputs ih => exact (List.perm_orderedInsert _ f _).trans (ih.cons f)

section moved

variable {level : Nat} {inputs0 : List SSTable}

/-- Some moved file holds the vertex. -/
theorem moved_iff {v : Nat} :
    (inputs0.any fun f => f.records.any (·.src == v)) = true ↔ ∃ f ∈ inputs0, f.Has v := by
  simp [SSTable.Has]

theorem index_moved_of_has {v : Nat} (h : ∃ f ∈ inputs0, f.Has v) :
    (directAdjustLevel level inputs0 s).index v = (s.index v).moveDown level := by
  simp only [directAdjustLevel, moved_iff.mpr h, if_true]

theorem index_moved_of_not {v : Nat} (h : ¬ ∃ f ∈ inputs0, f.Has v) :
    (directAdjustLevel level inputs0 s).index v = s.index v := by
  have : (inputs0.any fun f => f.records.any (·.src == v)) = false :=
    Bool.eq_false_iff.mpr fun h' => h (moved_iff.mp h')
  simp only [directAdjustLevel, this, Bool.false_eq_true, if_false]

theorem moved_levels_same :
    (directAdjustLevel level inputs0 s).levels level = removeCache inputs0 (s.levels level) := by
  simp [directAdjustLevel, setLevel]

theorem moved_levels_next :
    (directAdjustLevel level inputs0 s).levels (level + 1) =
      inputs0.foldr insertFile (s.levels (level + 1)) := by
  simp [directAdjustLevel, setLevel]

theorem moved_levels_other {l : Nat} (h1 : l ≠ level + 1) (h2 : l ≠ level) :
    (directAdjustLevel level inputs0 s).levels l = s.levels l := by
  simp [directAdjustLevel, setLevel, h1, h2]

theorem mem_moved_levels_next {f : SSTable} :
    f ∈ (directAdjustLevel level inputs0 s).levels (level + 1) ↔
      f ∈ inputs0 ∨ f ∈ s.levels (level + 1) := by
  rw [moved_levels_next, (foldr_insertFile_perm _ _).mem_iff, List.mem_append]

theorem liveFiles_moved (hwf : Wf s) (hj : s.job = none) {slot : Nat}
    (hl : slot + 1 < levelIndexSize) (hsub : inputs0.Sublist (s.levels (slot + 1))) :
    s.liveFiles.Perm (directAdjustLevel (slot + 1) inputs0 s).liveFiles := by
  have hmem : slot + 1 ∈ diskLevels := mem_diskLevels (by omega)
  have hsame := perm_removeCache hsub (levels_nodup hwf hmem)
  have hout := flatMap_setLevel diskLevels_nodup hmem hsame
  set lv := (directAdjustLevel (slot + 1) inputs0 s).levels with hlv
  have hback : setLevel (slot + 1 + 1) (s.levels (slot + 1 + 1)) lv =
      setLevel (slot + 1) (removeCache inputs0 (s.levels (slot + 1))) s.levels := by
    funext l
    by_cases h1 : l = slot + 1 + 1
    · subst h1
      simp [setLevel]
    · by_cases h2 : l = slot + 1
      · subst h2
        simp [setLevel, hlv, moved_levels_same]
      · simp [setLevel, h1, h2, hlv, moved_levels_other h1 h2]
  have hin := flatMap_setLevel diskLevels_nodup (mem_diskLevels hl) (f := lv)
    (A := s.levels (slot + 1 + 1)) (B := inputs0)
    (by rw [hlv, moved_levels_next]
        exact (foldr_insertFile_perm _ _).trans List.perm_append_comm)
  rw [hback] at hin
  have hjob : (directAdjustLevel (slot + 1) inputs0 s).retired = [] := retired_of_no_job hj
  unfold liveFiles
  rw [retired_of_no_job hj, hjob, List.append_nil, List.append_nil]
  exact (hout.trans hin.symm).append_left _

theorem wf_directAdjustLevel (hwf : Wf s) (hj : s.job = none) {slot : Nat}
    (hl : slot + 1 < levelIndexSize) (hsub : inputs0.Sublist (s.levels (slot + 1)))
    (hfree : ∀ f ∈ s.levels (slot + 1 + 1), ∀ g ∈ inputs0, ¬ Share f g) :
    Wf (directAdjustLevel (slot + 1) inputs0 s) := by
  have hlive := liveFiles_moved hwf hj hl hsub
  set s' := directAdjustLevel (slot + 1) inputs0 s with hs'
  have hj' : s'.job = none := hj
  have hslot : slot < levelIndexSize := by omega
  refine
    { time_le := hwf.time_le, live_nodup := (hlive.map _).nodup_iff.mp hwf.live_nodup,
      live_lt := fun f hf => hwf.live_lt f (hlive.mem_iff.mpr hf),
      live_data := fun f hf => hwf.live_data f (hlive.mem_iff.mpr hf), mem_nodup := hwf.mem_nodup,
      mem_lt := hwf.mem_lt,
      mem_fresh := fun t h f hf => hwf.mem_fresh t h f (hlive.mem_iff.mpr hf), index := ?_,
      job := fun j hjob => by rw [hj'] at hjob; cases hjob }
  intro v l hln
  have hold := hwf.index v
  simp only [filesFor_of_no_job hj] at hold
  rw [filesFor_of_no_job hj']
  by_cases hmoved : ∃ f ∈ inputs0, f.Has v
  · rw [index_moved_of_has hmoved]
    obtain ⟨g, hg, hgv⟩ := hmoved
    simp only [MulLevelIndex.moveDown, Nat.add_sub_cancel]
    by_cases h1 : l = slot + 1
    · -- The entry has come down from the level above.
      subst h1
      rw [if_pos rfl]
      refine ⟨?_, fun _ => ⟨g, mem_moved_levels_next.mpr (Or.inl hg), hgv⟩⟩
      intro f hf hfv
      rcases mem_moved_levels_next.mp hf with hf | hf
      · exact (hold slot hslot).points f (hsub.mem hf) hfv
      · obtain ⟨r, hr, hrv⟩ := hfv
        obtain ⟨r', hr', hrv'⟩ := hgv
        exact absurd ⟨r, hr, r', hr', hrv.trans hrv'.symm⟩ (hfree f hf g hg)
    · rw [if_neg h1]
      by_cases h2 : l = slot
      · -- No other file of the level above holds the vertex.
        subst h2
        rw [if_pos rfl]
        refine ⟨?_, fun hne => absurd rfl hne⟩
        intro f hf hfv
        rw [moved_levels_same, mem_removeCache] at hf
        have hfor : ∀ {x : SSTable}, x ∈ s.levels (l + 1) → x ∈ s.filesFor v l :=
          fun hx => by rw [filesFor_of_no_job hj]; exact hx
        have := filesFor_unique hwf hslot (hfor hf.1) (hfor (hsub.mem hg)) hfv hgv
        exact absurd (by rw [this]) (hf.2 g hg)
      · rw [if_neg h2, hs', moved_levels_other (by omega) (by omega)]
        exact hold l hln
  · rw [index_moved_of_not hmoved]
    refine (hold l hln).congr ?_
    intro f hfv
    by_cases h1 : l = slot + 1
    · subst h1
      rw [mem_moved_levels_next]
      exact ⟨Or.inr, fun h => h.resolve_left fun hf => hmoved ⟨f, hf, hfv⟩⟩
    · by_cases h2 : l = slot
      · subst h2
        rw [moved_levels_same, mem_removeCache]
        refine ⟨fun hf => ⟨hf, ?_⟩, fun hf => hf.1⟩
        intro g hg he
        have := eq_of_timeStamp_eq hwf (mem_liveFiles_of_levels hslot (hsub.mem hg))
          (mem_liveFiles_of_levels hslot hf) he
        exact hmoved ⟨g, hg, this ▸ hfv⟩
      · rw [moved_levels_other (by omega) (by omega)]

end moved

theorem wf_compactPointer (hwf : Wf s) (p : Nat → Option Nat) :
    Wf { s with compactPointer := p } :=
  wf_of_memory hwf rfl rfl rfl rfl rfl (Nat.le_refl _) hwf.time_le hwf.mem_nodup
    fun _ hi => Or.inl hi

theorem wf_pick {level : Nat} (hwf : Wf s) (ht : s.currentTime < invalidFileId)
    (h : pick o level s = some s') : Wf s' := by
  obtain ⟨hj, hl, -, sel, -, hsel, ⟨h0, h1, rfl⟩ | ⟨hm, rfl⟩⟩ := pick_cases h
  · obtain ⟨slot, rfl⟩ := Nat.exists_eq_succ_of_ne_zero h0
    have hwf' := wf_compactPointer hwf fun l =>
      if l = slot + 1 then some sel.largest else s.compactPointer l
    refine wf_directAdjustLevel hwf' hj hl (sublist_levels_of_selected hsel h0) ?_
    intro f hf g hg hs
    have := hsel.closed1 f hf g hg hs
    rw [h1] at this
    cases this
  · exact wf_started hwf ht hj hl hsel

/-! ## The output of a compaction -/

theorem writeEnd_cases (h : writeEnd o s = some s') : ∃ j, s.job = some j ∧ j.rest ≠ [] ∧
    (j.lost o = true ∧ s' = { s with job := some (j.next o j.fid) } ∨
      j.lost o = false ∧ ∃ hr, s' = installed o j hr s) := by
  unfold writeEnd at h
  split at h
  · cases h
  · rename_i j hj
    split at h
    · cases h
    · rename_i hr
      refine ⟨j, hj, hr, ?_⟩
      split at h
      · rename_i hlost
        cases h
        exact Or.inl ⟨hlost, rfl⟩
      · rename_i hlost
        cases h
        exact Or.inr ⟨Bool.eq_false_iff.mpr hlost, hr, rfl⟩

section output

variable {j : Job} {hr : j.rest ≠ []}

theorem output_src_lt : ∀ a ∈ (j.output o).1, ∀ b ∈ (j.output o).2, a.src < b.src :=
  (takeFile_src_lt (j.sorted.imp EdgeRecord.src_le_of_le) (by simp)).2

/-- The output file has all the records of its vertices. -/
theorem outputFile_recordsOf {v : Nat} (hv : (j.outputFile o hr).Has v) :
    (j.outputFile o hr).recordsOf v = j.rest.filter (·.src = v) := by
  obtain ⟨a, ha, hav⟩ := hv
  have hnone : (j.output o).2.filter (·.src = v) = [] := by
    rw [List.filter_eq_nil_iff]
    intro b hb
    have := output_src_lt a ha b hb
    simp only [decide_eq_true_eq]
    omega
  rw [← j.output_append o, List.filter_append, hnone, List.append_nil]
  rfl

theorem pending_of_outputFile {v : Nat} (hv : (j.outputFile o hr).Has v) : j.Pending v := by
  obtain ⟨a, ha, hav⟩ := hv
  refine ⟨a, ?_, hav⟩
  rw [← j.output_append o]
  exact List.mem_append_left _ ha

/-- After the output file its vertices are done, and the others wait as before. -/
theorem pending_next {fid v : Nat} (hr : j.rest ≠ []) :
    (j.next o fid).Pending v ↔ j.Pending v ∧ ¬ (j.outputFile o hr).Has v := by
  constructor
  · rintro ⟨b, hb, hbv⟩
    refine ⟨⟨b, ?_, hbv⟩, ?_⟩
    · rw [← j.output_append o]
      exact List.mem_append_right _ hb
    · rintro ⟨a, ha, hav⟩
      have := output_src_lt a ha b hb
      omega
  · rintro ⟨⟨r, hrr, hrv⟩, hnot⟩
    rw [← j.output_append o] at hrr
    rcases List.mem_append.mp hrr with h | h
    · exact absurd ⟨r, h, hrv⟩ hnot
    · exact ⟨r, h, hrv⟩

theorem filter_next {fid v : Nat} (hv : ¬ (j.outputFile o hr).Has v) :
    (j.next o fid).rest.filter (·.src = v) = j.rest.filter (·.src = v) := by
  have hnone : (j.output o).1.filter (·.src = v) = [] := by
    rw [List.filter_eq_nil_iff]
    intro a ha
    simp only [decide_eq_true_eq]
    exact fun hav => hv ⟨a, ha, hav⟩
  rw [← j.output_append o, List.filter_append, hnone, List.nil_append]
  rfl

theorem installed_levels_next :
    (installed o j hr s).levels (j.level + 1) =
      insertFile (j.outputFile o hr) (s.levels (j.level + 1)) := by
  simp [installed, setLevel]

theorem installed_levels_other {l : Nat} (h : l ≠ j.level + 1) :
    (installed o j hr s).levels l = s.levels l := by
  simp [installed, setLevel, h]

theorem mem_installed_levels_next {f : SSTable} :
    f ∈ (installed o j hr s).levels (j.level + 1) ↔
      f = j.outputFile o hr ∨ f ∈ s.levels (j.level + 1) := by
  rw [installed_levels_next]
  exact List.mem_orderedInsert _

theorem filesFor_pending (hj : s.job = some j) {v : Nat} (hp : j.Pending v) (slot : Nat) :
    s.filesFor v slot = s.levels (slot + 1) ++ j.retiredAt slot := by
  simp [filesFor, hj, hp]

theorem filesFor_done (hj : s.job = some j) {v : Nat} (hp : ¬ j.Pending v) (slot : Nat) :
    s.filesFor v slot = s.levels (slot + 1) := by
  simp [filesFor, hj, hp]

theorem index_installed_of_has {v : Nat} (hv : (j.outputFile o hr).Has v) :
    ∃ p, (j.outputFile o hr).offsets v = some p ∧
      (installed o j hr s).index v = (s.index v).install j j.fid p.1 p.2 := by
  obtain ⟨p, hp⟩ := hv.offsets
  exact ⟨p, hp, by simp [installed, hp]⟩

theorem index_installed_of_not {v : Nat} (hv : ¬ (j.outputFile o hr).Has v) :
    (installed o j hr s).index v = s.index v := by
  have hnone : (j.outputFile o hr).offsets v = none := by
    cases h : (j.outputFile o hr).offsets v with
    | none => rfl
    | some p => exact absurd (SSTable.has_of_offsets h) hv
  simp [installed, hnone]

theorem job_installed (o : Options) (j : Job) (hr : j.rest ≠ []) (s : Store) :
    ∃ fid, (installed o j hr s).job = some (j.next o fid) := ⟨_, rfl⟩

theorem liveFiles_installed (hr : j.rest ≠ []) (hj : s.job = some j)
    (hl : j.level < levelIndexSize) :
    (installed o j hr s).liveFiles.Perm (j.outputFile o hr :: s.liveFiles) := by
  have hret : (installed o j hr s).retired = s.retired := by
    simp [retired, hj, installed, Job.next]
  have hins := flatMap_setLevel diskLevels_nodup (mem_diskLevels hl)
    (f := (installed o j hr s).levels) (A := s.levels (j.level + 1))
    (B := [j.outputFile o hr]) (by
      rw [installed_levels_next]
      exact (List.perm_orderedInsert _ _ _).trans (List.perm_append_singleton _ _).symm)
  have hback : setLevel (j.level + 1) (s.levels (j.level + 1)) (installed o j hr s).levels =
      s.levels := by
    funext l
    by_cases h : l = j.level + 1
    · subst h
      simp [setLevel]
    · simp [setLevel, h, installed_levels_other h]
  rw [hback] at hins
  unfold liveFiles
  rw [hret]
  refine ((hins.append_right _).append_left _).trans ?_
  rw [List.append_assoc]
  refine (List.Perm.append_left _ (List.perm_middle)).trans ?_
  exact List.perm_middle

end output

section install

variable {j : Job} {hr : j.rest ≠ []}

/-- A vertex of the output file: its new entry, and the entry of the level above. -/
theorem entryOf_install_has (hwf : Wf s) (hj : s.job = some j) {v : Nat}
    (hv : (j.outputFile o hr).Has v) {l : Nat} (hl : l < levelIndexSize) :
    EntryOf ((installed o j hr s).levels (l + 1)) v
      (((installed o j hr s).index v).levels l) := by
  have hjw := hwf.job j hj
  have hp : j.Pending v := pending_of_outputFile hv
  obtain ⟨p, hoff, hix⟩ := index_installed_of_has (s := s) hv
  rw [hix]
  simp only [MulLevelIndex.install]
  have hold := hwf.index v l hl
  rw [filesFor_pending hj hp] at hold
  by_cases h1 : l = j.level
  · subst h1
    rw [if_pos rfl]
    refine ⟨?_, fun _ => ⟨_, mem_installed_levels_next.mpr (Or.inl rfl), hv⟩⟩
    intro f hf hfv
    rcases mem_installed_levels_next.mp hf with rfl | hf
    · exact ⟨p, hoff, rfl⟩
    · exact absurd hfv (hjw.next_free v hp f hf)
  · rw [if_neg h1, installed_levels_other (by omega)]
    by_cases h2 : l + 1 = j.level
    · have h0 : j.level ≠ 0 := by omega
      have hret : j.retiredAt l = j.inputs0 := by simp [Job.retiredAt, h1, h2]
      rw [hret] at hold
      have hmem : l + 1 ∈ diskLevels := mem_diskLevels hl
      -- A file that stays in the level is not an input.
      have hstay : ∀ f ∈ s.levels (l + 1), ∀ g ∈ j.inputs0, f.timeStamp ≠ g.timeStamp :=
        fun f hf g hg => timeStamp_ne_of_levels hwf hmem hf (mem_retired_inputs0 hj h0 hg)
      by_cases hin : (j.inputs0.map SSTable.timeStamp).contains ((s.index v).levels l).fileID = true
      · rw [if_pos ⟨h2, hin⟩]
        refine ⟨?_, fun hne => absurd rfl hne⟩
        intro f hf hfv
        obtain ⟨q, -, he⟩ := hold.points f (List.mem_append_left _ hf) hfv
        rw [List.contains_iff_mem, he] at hin
        obtain ⟨g, hg, hgt⟩ := List.mem_map.mp hin
        exact absurd hgt.symm (hstay f hf g hg)
      · rw [if_neg fun h => hin h.2]
        refine ⟨fun f hf => hold.points f (List.mem_append_left _ hf), fun hne => ?_⟩
        obtain ⟨f, hf, hfv⟩ := hold.backed hne
        rcases List.mem_append.mp hf with hf | hf
        · exact ⟨f, hf, hfv⟩
        · obtain ⟨q, -, he⟩ := hold.points f (List.mem_append_right _ hf) hfv
          exfalso
          apply hin
          rw [List.contains_iff_mem, he]
          exact List.mem_map_of_mem hf
    · rw [if_neg fun h => h2 h.1]
      have hret : j.retiredAt l = [] := by simp [Job.retiredAt, h1, h2]
      rwa [hret, List.append_nil] at hold

theorem mem_filesFor_installed (hj : s.job = some j) {v : Nat}
    (hv : ¬ (j.outputFile o hr).Has v) {f : SSTable} (hfv : f.Has v) (l : Nat) :
    f ∈ s.filesFor v l ↔ f ∈ (installed o j hr s).filesFor v l := by
  obtain ⟨fid, hjob⟩ := job_installed o j hr s
  have hlev : f ∈ (installed o j hr s).levels (l + 1) ↔ f ∈ s.levels (l + 1) := by
    by_cases h : l = j.level
    · subst h
      rw [mem_installed_levels_next]
      exact ⟨fun h => h.resolve_left fun he => hv (he ▸ hfv), Or.inr⟩
    · rw [installed_levels_other (by omega)]
  by_cases hp : j.Pending v
  · have hp' : (j.next o fid).Pending v := (pending_next hr).mpr ⟨hp, hv⟩
    rw [filesFor_pending hj hp, filesFor_pending hjob hp', List.mem_append, List.mem_append, hlev]
    rfl
  · have hp' : ¬ (j.next o fid).Pending v := fun h => hp ((pending_next hr).mp h).1
    rw [filesFor_done hj hp, filesFor_done hjob hp', hlev]

theorem wf_installed (hwf : Wf s) (ht : s.currentTime < invalidFileId) (hj : s.job = some j) :
    Wf (installed o j hr s) := by
  have hjw := hwf.job j hj
  have hlive := liveFiles_installed (o := o) hr hj hjw.level_lt
  have hfresh := hjw.fid_fresh hr
  have htime : s.currentTime ≤ (installed o j hr s).currentTime ∧
      (installed o j hr s).currentTime ≤ s.currentTime + 1 := by
    simp only [installed]
    split <;> omega
  refine
    { time_le := by omega, live_nodup := ?_, live_lt := ?_, live_data := ?_,
      mem_nodup := hwf.mem_nodup, mem_lt := ?_, mem_fresh := ?_, index := ?_, job := ?_ }
  · rw [(hlive.map _).nodup_iff, List.map_cons, List.nodup_cons]
    refine ⟨fun hin => ?_, hwf.live_nodup⟩
    obtain ⟨g, hg, he⟩ := List.mem_map.mp hin
    exact hfresh g hg he
  · intro f hf
    rcases List.mem_cons.mp (hlive.mem_iff.mp hf) with rfl | hf
    · exact Nat.lt_of_lt_of_le (hjw.fid_lt hr) htime.1
    · exact Nat.lt_of_lt_of_le (hwf.live_lt f hf) htime.1
  · intro f hf
    rcases List.mem_cons.mp (hlive.mem_iff.mp hf) with rfl | hf
    · simp [installed, Job.outputFile]
    · simp only [installed, if_neg (hfresh f hf)]
      exact hwf.live_data f hf
  · intro t htm
    exact Nat.lt_of_lt_of_le (hwf.mem_lt t htm) htime.1
  · intro t htm f hf
    rcases List.mem_cons.mp (hlive.mem_iff.mp hf) with rfl | hf
    · exact (hjw.fid_mem hr t htm).symm
    · exact hwf.mem_fresh t htm f hf
  · intro v l hl
    by_cases hv : (j.outputFile o hr).Has v
    · obtain ⟨fid, hjob⟩ := job_installed o j hr s
      have hp' : ¬ (j.next o fid).Pending v := fun h => ((pending_next hr).mp h).2 hv
      rw [filesFor_done hjob hp']
      exact entryOf_install_has hwf hj hv hl
    · rw [index_installed_of_not hv]
      exact (hwf.index v l hl).congr fun f hfv => mem_filesFor_installed hj hv hfv l
  · intro j' hj'
    have hj'' : j' = j.next o (if (!(j.output o).2.isEmpty) = true then s.currentTime else j.fid) :=
      (Option.some.inj hj').symm
    -- With records left the next file has the id that was just handed out.
    have hmore : j'.rest ≠ [] → j'.fid = s.currentTime ∧
        (installed o j hr s).currentTime = s.currentTime + 1 := by
      intro hne
      have hne' : (j.output o).2.isEmpty = false := by
        cases hout : (j.output o).2 with
        | nil => exact absurd (by rw [hj'']; exact hout) hne
        | cons a as => rfl
      rw [hj'']
      simp [Job.next, installed, hne']
    refine
      { level_lt := by rw [hj'']; exact hjw.level_lt,
        inputs0_level0 := by rw [hj'']; exact hjw.inputs0_level0, rest_records := ?_,
        next_free := ?_, fid_lt := ?_, fid_fresh := ?_, fid_mem := ?_ }
    · intro v hp
      rw [hj''] at hp ⊢
      obtain ⟨hp, hv⟩ := (pending_next hr).mp hp
      rw [filter_next hv]
      exact hjw.rest_records v hp
    · intro v hp f hf hfv
      rw [hj''] at hp hf
      obtain ⟨hp, hv⟩ := (pending_next hr).mp hp
      rcases mem_installed_levels_next.mp hf with rfl | hf
      · exact hv hfv
      · exact hjw.next_free v hp f hf hfv
    · intro hne
      obtain ⟨h1, h2⟩ := hmore hne
      omega
    · intro hne f hf
      obtain ⟨h1, -⟩ := hmore hne
      rw [h1]
      rcases List.mem_cons.mp (hlive.mem_iff.mp hf) with rfl | hf
      · exact Nat.ne_of_lt (hjw.fid_lt hr)
      · exact Nat.ne_of_lt (hwf.live_lt f hf)
    · intro hne t htm
      obtain ⟨h1, -⟩ := hmore hne
      rw [h1]
      exact Nat.ne_of_lt (hwf.mem_lt t htm)

end install

/-- No file id is out of range, and the last output file of a compaction is installed. -/
def NoLoss (o : Options) (s : Store) (a : Action) : Prop :=
  s.currentTime + 2 ≤ invalidFileId ∧ (a = .writeEnd → ∀ j, s.job = some j → j.lost o = false)

instance (o : Options) (s : Store) (a : Action) : Decidable (NoLoss o s a) :=
  match hj : s.job with
  | none => decidable_of_iff (s.currentTime + 2 ≤ invalidFileId) (by simp [NoLoss, hj])
  | some j => decidable_of_iff
      (s.currentTime + 2 ≤ invalidFileId ∧ (a = .writeEnd → j.lost o = false))
      (by simp [NoLoss, hj])

theorem installed_of_noLoss (hok : NoLoss o s .writeEnd) (h : writeEnd o s = some s') :
    ∃ j hr, s.job = some j ∧ s' = installed o j hr s := by
  obtain ⟨j, hj, -, ⟨hlost, -⟩ | ⟨-, hr, heq⟩⟩ := writeEnd_cases h
  · rw [hok.2 rfl j hj] at hlost
    cases hlost
  · exact ⟨j, hr, hj, heq⟩

theorem wf_writeEnd (hwf : Wf s) (hok : NoLoss o s .writeEnd) (h : writeEnd o s = some s') :
    Wf s' := by
  obtain ⟨j, hr, hj, rfl⟩ := installed_of_noLoss hok h
  have := hok.1
  exact wf_installed hwf (by omega) hj

/-! ## The end of a compaction -/

theorem finish_cases (h : finish s = some s') : ∃ j, s.job = some j ∧ j.rest = [] ∧
    s' = finished j s := by
  unfold finish at h
  split at h
  · cases h
  · rename_i j hj
    split at h
    · rename_i hr
      cases h
      exact ⟨j, hj, hr, rfl⟩
    · cases h

theorem level0_finished (j : Job) (s : Store) : (finished j s).level0.Sublist s.level0 := by
  unfold finished
  dsimp only
  split
  · exact List.filter_sublist
  · exact List.Sublist.refl _

theorem not_pending_of_rest {j : Job} (h : j.rest = []) (v : Nat) : ¬ j.Pending v := by
  rintro ⟨r, hr, -⟩
  rw [h] at hr
  cases hr

theorem wf_finish (hwf : Wf s) (h : finish s = some s') : Wf s' := by
  obtain ⟨j, hj, hr, rfl⟩ := finish_cases h
  have hjw := hwf.job j hj
  have hlevel0 := level0_finished j s
  have hsub : (finished j s).liveFiles.Sublist s.liveFiles := by
    refine hlevel0.append ?_
    have : (finished j s).retired = [] := rfl
    rw [this]
    exact (List.Sublist.refl _).append (List.nil_sublist _)
  -- No file that stays is an input.
  have hstay : ∀ f ∈ (finished j s).liveFiles, ∀ g ∈ j.inputs0 ++ j.inputs1,
      g.timeStamp ≠ f.timeStamp := by
    intro f hf g hg
    have hg' : g ∈ s.retired ∨ j.level = 0 ∧ g ∈ j.inputs0 := by
      rcases List.mem_append.mp hg with hg | hg
      · by_cases h0 : j.level = 0
        · exact Or.inr ⟨h0, hg⟩
        · exact Or.inl (mem_retired_inputs0 hj h0 hg)
      · exact Or.inl (mem_retired_inputs1 hj hg)
    rcases List.mem_append.mp hf with hf0 | hf
    · rcases hg' with hg | ⟨h0, hg⟩
      · exact (timeStamp_ne_of_level0 hwf (hlevel0.mem hf0) (Or.inr hg)).symm
      · simp only [finished, if_pos h0] at hf0
        exact (mem_removeCache.mp hf0).2 g hg
    · rcases List.mem_append.mp hf with hf | hf
      · obtain ⟨l, hl, hfl⟩ := List.mem_flatMap.mp hf
        rcases hg' with hg | ⟨h0, hg⟩
        · exact (timeStamp_ne_of_levels hwf hl hfl hg).symm
        · exact timeStamp_ne_of_level0 hwf ((hjw.inputs0_level0 h0).mem hg) (Or.inl hf)
      · cases hf
  refine
    { time_le := hwf.time_le, live_nodup := hwf.live_nodup.sublist (hsub.map _),
      live_lt := fun f hf => hwf.live_lt f (hsub.mem hf), live_data := ?_,
      mem_nodup := hwf.mem_nodup, mem_lt := hwf.mem_lt,
      mem_fresh := fun t ht f hf => hwf.mem_fresh t ht f (hsub.mem hf), index := ?_, job := ?_ }
  · intro f hf
    have hnot : ((j.inputs0 ++ j.inputs1).map SSTable.timeStamp).contains f.timeStamp = false := by
      rw [Bool.eq_false_iff, ne_eq, List.contains_iff_mem]
      intro hin
      obtain ⟨g, hg, he⟩ := List.mem_map.mp hin
      exact hstay f hf g hg he
    simp only [finished, hnot, Bool.false_eq_true, if_false]
    exact hwf.live_data f (hsub.mem hf)
  · intro v slot hs
    have hfiles : (finished j s).filesFor v slot = s.filesFor v slot := by
      simp [filesFor, finished, hj, not_pending_of_rest hr v]
    rw [hfiles]
    exact hwf.index v slot hs
  · intro j' hj'
    cases hj'

/-! ## The steps of a compaction -/

def Action.Compacts : Action → Bool
  | .pick _ | .writeEnd | .finish => true
  | .putEdge .. | .sortAdjacency .. | .publish _ => false

/-- A compaction leaves the tables and the puts as they are. -/
structure SameTables (s s' : Store) : Prop where
  active : s'.active = s.active
  immutables : s'.immutables = s.immutables
  history : s'.history = s.history
  nextSequence : s'.nextSequence = s.nextSequence
  level0 : s'.level0.Sublist s.level0
  time : s.currentTime ≤ s'.currentTime

theorem SameTables.menTables (h : SameTables s s') : s'.menTables = s.menTables := by
  unfold Store.menTables
  rw [h.active, h.immutables]

theorem sameTables_step {a : Action} (h : step o s a = some s') (ha : a.Compacts) :
    SameTables s s' := by
  cases a with
  | pick level =>
    obtain ⟨-, -, -, sel, -, -, ⟨-, -, rfl⟩ | ⟨hm, rfl⟩⟩ := pick_cases h
    · exact ⟨rfl, rfl, rfl, rfl, List.Sublist.refl _, Nat.le_refl _⟩
    · exact ⟨rfl, rfl, rfl, rfl, List.Sublist.refl _, Nat.le_succ _⟩
  | writeEnd =>
    obtain ⟨j, -, -, ⟨-, rfl⟩ | ⟨-, hr, rfl⟩⟩ := writeEnd_cases h
    · exact ⟨rfl, rfl, rfl, rfl, List.Sublist.refl _, Nat.le_refl _⟩
    · refine ⟨rfl, rfl, rfl, rfl, List.Sublist.refl _, ?_⟩
      simp only [installed]
      split <;> omega
  | finish =>
    obtain ⟨j, -, -, rfl⟩ := finish_cases h
    exact ⟨rfl, rfl, rfl, rfl, level0_finished j s, Nat.le_refl _⟩
  | putEdge | sortAdjacency | publish => cases ha

/-! ## Runs -/

theorem wf_initial (o : Options) : Wf (initial o) :=
  { time_le := by simp [initial, invalidFileId]
    live_nodup := by simp [initial, liveFiles, retired, diskLevels]
    live_lt := by simp [initial, liveFiles, retired, diskLevels]
    live_data := by simp [initial, liveFiles, retired, diskLevels]
    mem_nodup := by simp [initial, menTables]
    mem_lt := by simp [initial, menTables, MemTable.fresh]
    mem_fresh := by simp [initial, liveFiles, retired, diskLevels]
    index := fun v slot _ =>
      ⟨fun f hf _ => by simp [initial, filesFor] at hf, fun hne => absurd rfl hne⟩
    job := fun j hj => by cases hj }

theorem wf_step {a : Action} (hwf : Wf s) (hok : NoLoss o s a) (h : step o s a = some s') :
    Wf s' := by
  have ht := hok.1
  cases a with
  | putEdge src dst payload mode isOut edgeType => exact wf_putEdge hwf ht h
  | sortAdjacency fid src => exact wf_sortAdjacency hwf h
  | publish fid => exact wf_publish hwf h
  | pick level => exact wf_pick hwf (by omega) h
  | writeEnd => exact wf_writeEnd hwf hok h
  | finish => exact wf_finish hwf h

theorem wf_of_reach (h : Lib.Reach (step o) (NoLoss o) (initial o) s) : Wf s :=
  h.invariant (wf_initial o) fun _ _ _ hwf hok hs => wf_step hwf hok hs

end Store

end RichGraph
