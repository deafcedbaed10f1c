-- What a store has of a vertex: the records in its memtables, in level 0 and in
-- the slots of the index. A compaction moves records from slot to slot and
-- loses none, so the store always has just the records that were put.
import RichGraph.CompactionSteps

namespace RichGraph

open Compaction

namespace Store

variable {o : Options} {s s' : Store} {v : Nat}

/-! ## Slots as lists of files -/

theorem filesFor_sublist {slot : Nat} (hs : slot < levelIndexSize) :
    (s.filesFor v slot).Sublist s.liveFiles := by
  have hlev := levels_sublist (s := s) (mem_diskLevels hs)
  refine List.Sublist.trans ?_ (List.sublist_append_right _ _)
  refine hlev.append ?_
  cases hj : s.job with
  | none => simp
  | some j =>
    simp only [retired, hj]
    split
    · unfold Job.retiredAt
      split
      · exact List.sublist_append_left _ _
      · split
        · rw [if_neg (by omega)]
          exact List.sublist_append_right _ _
        · exact List.nil_sublist _
    · exact List.nil_sublist _

theorem flatMap_recordsOf_eq_nil {files : List SSTable} (h : ∀ f ∈ files, ¬ f.Has v) :
    files.flatMap (·.recordsOf v) = [] := by
  rw [List.flatMap_eq_nil_iff]
  exact fun f hf => SSTable.recordsOf_eq_nil (h f hf)

/-- A slot has the records of its files. -/
theorem sliceAt_eq_flatMap (hwf : Wf s) {slot : Nat} (hs : slot < levelIndexSize) :
    s.sliceAt v slot = (s.filesFor v slot).flatMap (·.recordsOf v) := by
  by_cases h : ∃ f ∈ s.filesFor v slot, f.Has v
  · obtain ⟨f, hf, hv⟩ := h
    rw [sliceAt_of_has hwf hs hf hv]
    have hnd : (s.filesFor v slot).Nodup :=
      List.Nodup.of_map _ (hwf.live_nodup.sublist ((filesFor_sublist hs).map SSTable.timeStamp))
    obtain ⟨pre, post, hsplit⟩ := List.append_of_mem hf
    -- The other files of the slot do not hold the vertex.
    have hother : ∀ g ∈ pre ++ post, ¬ g.Has v := by
      intro g hg hgv
      have hgf : g ∈ s.filesFor v slot := by
        rw [hsplit]
        rcases List.mem_append.mp hg with hg | hg
        · exact List.mem_append_left _ hg
        · exact List.mem_append_right _ (List.mem_cons_of_mem _ hg)
      have := filesFor_unique hwf hs hgf hf hgv hv
      subst this
      rw [hsplit, List.nodup_middle, List.nodup_cons] at hnd
      exact hnd.1 hg
    rw [hsplit, List.flatMap_append, List.flatMap_cons,
      flatMap_recordsOf_eq_nil fun g hg => hother g (List.mem_append_left _ hg),
      flatMap_recordsOf_eq_nil fun g hg => hother g (List.mem_append_right _ hg)]
    simp
  · have hnone : ∀ f ∈ s.filesFor v slot, ¬ f.Has v := fun f hf hv => h ⟨f, hf, hv⟩
    rw [sliceAt_of_none hwf hs hnone, flatMap_recordsOf_eq_nil hnone]

theorem sliceAt_congr (hwf : Wf s) (hwf' : Wf s') {slot : Nat} (hs : slot < levelIndexSize)
    (h : ∀ f, f.Has v → (f ∈ s.filesFor v slot ↔ f ∈ s'.filesFor v slot)) :
    s'.sliceAt v slot = s.sliceAt v slot := by
  by_cases hex : ∃ f ∈ s.filesFor v slot, f.Has v
  · obtain ⟨f, hf, hv⟩ := hex
    rw [sliceAt_of_has hwf hs hf hv, sliceAt_of_has hwf' hs ((h f hv).mp hf) hv]
  · rw [sliceAt_of_none hwf hs fun f hf hv => hex ⟨f, hf, hv⟩,
      sliceAt_of_none hwf' hs fun f hf hv => hex ⟨f, (h f hv).mpr hf, hv⟩]

/-! ## Slots through a compaction -/

theorem sliceAt_of_files (hwf : Wf s) (hwf' : Wf s') (hl : s'.levels = s.levels)
    (hj : s'.job = s.job) {l : Nat} (hs : l < levelIndexSize) :
    s'.sliceAt v l = s.sliceAt v l :=
  sliceAt_congr hwf hwf' hs fun f _ => by rw [filesFor_congr hl hj]

theorem sliceAt_moved_of_not {inputs0 : List SSTable} {level : Nat}
    (h : ¬ ∃ f ∈ inputs0, f.Has v) (l : Nat) :
    (directAdjustLevel level inputs0 s).sliceAt v l = s.sliceAt v l := by
  have hdata : (directAdjustLevel level inputs0 s).sstData = s.sstData := rfl
  simp only [sliceAt, index_moved_of_not h, hdata]

/-- The slot of a vertex of a moved file: its records go down, and nothing is left above. -/
theorem sliceAt_moved_of_has {inputs0 : List SSTable} {m : Nat} (h : ∃ f ∈ inputs0, f.Has v) :
    (directAdjustLevel (m + 1) inputs0 s).sliceAt v (m + 1) = s.sliceAt v m ∧
      (directAdjustLevel (m + 1) inputs0 s).sliceAt v m = [] ∧
      ∀ l, l ≠ m → l ≠ m + 1 →
        (directAdjustLevel (m + 1) inputs0 s).sliceAt v l = s.sliceAt v l := by
  have hdata : (directAdjustLevel (m + 1) inputs0 s).sstData = s.sstData := rfl
  refine ⟨?_, ?_, fun l h1 h2 => ?_⟩
  · simp [sliceAt, index_moved_of_has h, hdata, MulLevelIndex.moveDown]
  · simp [sliceAt, index_moved_of_has h, MulLevelIndex.moveDown]
  · simp [sliceAt, index_moved_of_has h, hdata, MulLevelIndex.moveDown, h1, h2]

theorem shifted_moved {inputs0 : List SSTable} (hwf : Wf s) (hj : s.job = none) {m : Nat}
    (hl : m + 1 < levelIndexSize)
    (hfree : ∀ f ∈ s.levels (m + 1 + 1), ∀ g ∈ inputs0, ¬ Share f g) :
    Lib.Shifted levelIndexSize (s.sliceAt v) ((directAdjustLevel (m + 1) inputs0 s).sliceAt v) := by
  by_cases hmoved : ∃ f ∈ inputs0, f.Has v
  · have hempty : s.sliceAt v (m + 1) = [] := by
      apply sliceAt_of_none hwf hl
      rw [filesFor_of_no_job hj]
      rintro f hf ⟨r, hr, hrv⟩
      obtain ⟨g, hg, r', hr', hrv'⟩ := hmoved
      exact hfree f hf g hg ⟨r, hr, r', hr', hrv.trans hrv'.symm⟩
    obtain ⟨hto, hleft, hother⟩ := sliceAt_moved_of_has (s := s) (m := m) hmoved
    refine Or.inr ⟨m, hl, hleft, ?_, fun l _ h1 h2 => hother l h1 h2⟩
    rw [hto, hempty, List.append_nil]
  · exact Or.inl fun l _ => by rw [sliceAt_moved_of_not hmoved]

section installed

variable {j : Job} {hr : j.rest ≠ []}

theorem sliceAt_installed_of_not (hwf : Wf s) (hwf' : Wf (installed o j hr s))
    (hj : s.job = some j) (hv : ¬ (j.outputFile o hr).Has v) {l : Nat} (hl : l < levelIndexSize) :
    (installed o j hr s).sliceAt v l = s.sliceAt v l :=
  sliceAt_congr hwf hwf' hl fun _ hfv => mem_filesFor_installed hj hv hfv l

theorem filesFor_installed_of_has (hv : (j.outputFile o hr).Has v) (l : Nat) :
    (installed o j hr s).filesFor v l = (installed o j hr s).levels (l + 1) := by
  obtain ⟨fid, hjob⟩ := job_installed o j hr s
  exact filesFor_done hjob (fun h => ((pending_next hr).mp h).2 hv) l

/-- Before the output, the slot of the next level has what its inputs have. -/
theorem sliceAt_next (hwf : Wf s) (hj : s.job = some j) (hp : j.Pending v) :
    s.sliceAt v j.level = j.inputs1.flatMap (·.recordsOf v) := by
  have hjw := hwf.job j hj
  rw [sliceAt_eq_flatMap hwf hjw.level_lt, filesFor_pending hj hp, List.flatMap_append,
    flatMap_recordsOf_eq_nil (hjw.next_free v hp), List.nil_append]
  simp [Job.retiredAt]

/-- The output puts the records of the upper inputs into that slot. -/
theorem sliceAt_installed_next (hwf : Wf s) (hwf' : Wf (installed o j hr s))
    (hj : s.job = some j) (hv : (j.outputFile o hr).Has v) :
    ((installed o j hr s).sliceAt v j.level).Perm
      (j.inputs0.flatMap (·.recordsOf v) ++ s.sliceAt v j.level) := by
  have hjw := hwf.job j hj
  have hp := pending_of_outputFile hv
  have hmem : j.outputFile o hr ∈ (installed o j hr s).filesFor v j.level := by
    rw [filesFor_installed_of_has hv]
    exact mem_installed_levels_next.mpr (Or.inl rfl)
  rw [sliceAt_of_has hwf' hjw.level_lt hmem hv, outputFile_recordsOf hv, sliceAt_next hwf hj hp,
    ← List.flatMap_append]
  exact hjw.rest_records v hp

theorem sliceAt_installed_other (hwf : Wf s) (hwf' : Wf (installed o j hr s))
    (hj : s.job = some j) (hv : (j.outputFile o hr).Has v) {l : Nat} (hl : l < levelIndexSize)
    (h1 : l ≠ j.level) (h2 : l + 1 ≠ j.level) :
    (installed o j hr s).sliceAt v l = s.sliceAt v l := by
  refine sliceAt_congr hwf hwf' hl fun f _ => ?_
  rw [filesFor_installed_of_has hv, installed_levels_other (by omega),
    filesFor_pending hj (pending_of_outputFile hv)]
  simp [Job.retiredAt, h1, h2]

/-- Above, the slot becomes empty when its file was an input, and else keeps its file. -/
theorem sliceAt_installed_above (hwf : Wf s) (hwf' : Wf (installed o j hr s))
    (hj : s.job = some j) (hv : (j.outputFile o hr).Has v) {m : Nat} (hm : j.level = m + 1) :
    s.sliceAt v m = j.inputs0.flatMap (·.recordsOf v) ∧ (installed o j hr s).sliceAt v m = [] ∨
      j.inputs0.flatMap (·.recordsOf v) = [] ∧
        (installed o j hr s).sliceAt v m = s.sliceAt v m := by
  have hjw := hwf.job j hj
  have hp := pending_of_outputFile hv
  have hml : m < levelIndexSize := by have := hjw.level_lt; omega
  have hret : j.retiredAt m = j.inputs0 := by
    unfold Job.retiredAt
    rw [if_neg (by omega), if_pos hm.symm]
  have hfor : s.filesFor v m = s.levels (m + 1) ++ j.inputs0 := by
    rw [filesFor_pending hj hp, hret]
  have hfor' : (installed o j hr s).filesFor v m = s.levels (m + 1) := by
    rw [filesFor_installed_of_has hv, installed_levels_other (by omega)]
  by_cases hin : ∃ g ∈ j.inputs0, g.Has v
  · left
    obtain ⟨g, hg, hgv⟩ := hin
    have hstay : ∀ f ∈ s.levels (m + 1), ¬ f.Has v := by
      intro f hf hfv
      have := filesFor_unique hwf hml (by rw [hfor]; exact List.mem_append_left _ hf)
        (by rw [hfor]; exact List.mem_append_right _ hg) hfv hgv
      exact timeStamp_ne_of_levels hwf (mem_diskLevels hml) hf
        (mem_retired_inputs0 hj (by omega) hg) (by rw [this])
    refine ⟨?_, sliceAt_of_none hwf' hml (by rw [hfor']; exact hstay)⟩
    rw [sliceAt_eq_flatMap hwf hml, hfor, List.flatMap_append, flatMap_recordsOf_eq_nil hstay,
      List.nil_append]
  · right
    have hnone : ∀ g ∈ j.inputs0, ¬ g.Has v := fun g hg hgv => hin ⟨g, hg, hgv⟩
    refine ⟨flatMap_recordsOf_eq_nil hnone, ?_⟩
    rw [sliceAt_eq_flatMap hwf hml, sliceAt_eq_flatMap hwf' hml, hfor, hfor', List.flatMap_append,
      flatMap_recordsOf_eq_nil hnone, List.append_nil]

/-- The output of a compaction below level 0. -/
theorem shifted_installed (hwf : Wf s) (hwf' : Wf (installed o j hr s)) (hj : s.job = some j)
    (h0 : j.level ≠ 0 ∨ ¬ (j.outputFile o hr).Has v) :
    Lib.Shifted levelIndexSize (s.sliceAt v) ((installed o j hr s).sliceAt v) := by
  by_cases hv : (j.outputFile o hr).Has v
  · obtain ⟨m, hm⟩ := Nat.exists_eq_succ_of_ne_zero (h0.resolve_right (not_not_intro hv))
    have hnext := sliceAt_installed_next hwf hwf' hj hv
    have hother := fun l hl h1 h2 => sliceAt_installed_other (l := l) hwf hwf' hj hv hl h1 h2
    have hlt := (hwf.job j hj).level_lt
    rw [hm] at hnext hother hlt
    rcases sliceAt_installed_above hwf hwf' hj hv hm with ⟨hall, hnil⟩ | ⟨hnil, hsame⟩
    · refine Or.inr ⟨m, hlt, hnil, ?_, fun l hl h1 h2 => hother l hl h2 (by omega)⟩
      rw [hall]
      exact hnext
    · rw [hnil, List.nil_append] at hnext
      refine Or.inl fun l hl => ?_
      by_cases h1 : l = m + 1
      · subst h1
        exact hnext
      by_cases h2 : l = m
      · rw [h2, hsame]
      · rw [hother l hl h1 (by omega)]
  · exact Or.inl fun l hl => by rw [sliceAt_installed_of_not hwf hwf' hj hv hl]

end installed

theorem sliceAt_finish (hwf : Wf s) (h : finish s = some s') {l : Nat} (hl : l < levelIndexSize) :
    s'.sliceAt v l = s.sliceAt v l := by
  have hwf' := wf_finish hwf h
  obtain ⟨j, hj, hr, rfl⟩ := finish_cases h
  refine sliceAt_congr hwf hwf' hl fun f _ => ?_
  rw [filesFor_done hj (not_pending_of_rest hr v)]
  simp [filesFor, finished]

/-! ## Everything that is on disk -/

/-- The records of a vertex in level 0 and in the slots of its index. -/
def onDisk (s : Store) (v : Nat) : List EdgeRecord :=
  s.level0.flatMap (·.recordsOf v) ++ (List.range levelIndexSize).flatMap (s.sliceAt v)

theorem mem_onDisk {r : EdgeRecord} : r ∈ s.onDisk v ↔
    (∃ f ∈ s.level0, r ∈ f.recordsOf v) ∨ ∃ l < levelIndexSize, r ∈ s.sliceAt v l := by
  simp [onDisk, List.mem_flatMap]

/-- A selection that is merged changes neither level 0 nor a slot. -/
theorem sliceAt_started {level : Nat} {sel : Selection}
    (hm : (mergeInputs level sel.inputs0 sel.inputs1).Pairwise EdgeRecord.le) (hwf : Wf s)
    (ht : s.currentTime < invalidFileId) (hj : s.job = none) (hl : level < levelIndexSize)
    (hsel : Selected level (s.filesAt level) (s.levels (level + 1)) sel) {l : Nat}
    (hls : l < levelIndexSize) : (started level sel hm s).sliceAt v l = s.sliceAt v l :=
  sliceAt_congr hwf (wf_started hwf ht hj hl hsel) hls
    fun _ hfv => mem_filesFor_started hwf hj hl hsel hfv hls

/-- The start of a compaction leaves level 0 and moves at most one slot. -/
theorem shifted_pick {level : Nat} (hwf : Wf s) (ht : s.currentTime < invalidFileId)
    (h : pick o level s = some s') :
    s'.level0 = s.level0 ∧ Lib.Shifted levelIndexSize (s.sliceAt v) (s'.sliceAt v) := by
  obtain ⟨hj, hl, -, sel, -, hsel, ⟨h0, h1, rfl⟩ | ⟨hm, rfl⟩⟩ := pick_cases h
  · obtain ⟨m, rfl⟩ := Nat.exists_eq_succ_of_ne_zero h0
    have hwf₁ := wf_compactPointer hwf fun l =>
      if l = m + 1 then some sel.largest else s.compactPointer l
    refine ⟨rfl, shifted_moved hwf₁ hj hl fun f hf g hg hs => ?_⟩
    have := hsel.closed1 f hf g hg hs
    rw [h1] at this
    cases this
  · exact ⟨rfl, Or.inl fun l hls => by rw [sliceAt_started hm hwf ht hj hl hsel hls]⟩

/-- The records of level-0 inputs that the compaction has written are in the first slot. -/
def Merged (s : Store) : Prop :=
  ∀ j, s.job = some j → j.level = 0 → ∀ v, ¬ j.Pending v → ∀ f ∈ j.inputs0, ∀ r ∈ f.recordsOf v,
    r ∈ s.sliceAt v 0

theorem mem_onDisk_pick {level : Nat} (hwf : Wf s) (ht : s.currentTime < invalidFileId)
    (h : pick o level s = some s') {r : EdgeRecord} : r ∈ s'.onDisk v ↔ r ∈ s.onDisk v := by
  rw [mem_onDisk, mem_onDisk]
  obtain ⟨hlevel0, hshift⟩ := shifted_pick (v := v) hwf ht h
  rw [hlevel0]
  exact or_congr Iff.rfl (hshift.exists_mem r)

theorem mem_onDisk_installed {j : Job} {hr : j.rest ≠ []} (hwf : Wf s)
    (ht : s.currentTime < invalidFileId) (hj : s.job = some j) {r : EdgeRecord} :
    r ∈ (installed o j hr s).onDisk v ↔ r ∈ s.onDisk v := by
  have hwf' : Wf (installed o j hr s) := wf_installed hwf ht hj
  have hjw := hwf.job j hj
  have hlevel0 : (installed o j hr s).level0 = s.level0 := rfl
  rw [mem_onDisk, mem_onDisk, hlevel0]
  by_cases h0 : j.level ≠ 0 ∨ ¬ (j.outputFile o hr).Has v
  · exact or_congr Iff.rfl ((shifted_installed hwf hwf' hj h0).exists_mem r)
  -- At level 0 the records of the inputs are now in the first slot too.
  push Not at h0
  obtain ⟨h0, hv⟩ := h0
  have hnext := sliceAt_installed_next hwf hwf' hj hv
  rw [h0] at hnext
  have hother := fun l hl h1 => sliceAt_installed_other (l := l) hwf hwf' hj hv hl
    (by rw [h0]; exact h1) (by omega)
  constructor
  · rintro (h | ⟨l, hl, hr'⟩)
    · exact Or.inl h
    by_cases h1 : l = 0
    · subst h1
      rcases List.mem_append.mp (hnext.mem_iff.mp hr') with hin | hold
      · obtain ⟨f, hf, hrf⟩ := List.mem_flatMap.mp hin
        exact Or.inl ⟨f, (hjw.inputs0_level0 h0).mem hf, hrf⟩
      · exact Or.inr ⟨0, hl, hold⟩
    · exact Or.inr ⟨l, hl, by rw [← hother l hl h1]; exact hr'⟩
  · rintro (h | ⟨l, hl, hr'⟩)
    · exact Or.inl h
    by_cases h1 : l = 0
    · subst h1
      exact Or.inr ⟨0, hl, hnext.mem_iff.mpr (List.mem_append_right _ hr')⟩
    · exact Or.inr ⟨l, hl, by rw [hother l hl h1]; exact hr'⟩

theorem mem_onDisk_finish (hwf : Wf s) (hm : Merged s) (h : finish s = some s') {r : EdgeRecord} :
    r ∈ s'.onDisk v ↔ r ∈ s.onDisk v := by
  have hslice := fun {l : Nat} => sliceAt_finish (v := v) (l := l) hwf h
  obtain ⟨j, hj, hrest, rfl⟩ := finish_cases h
  have hjw := hwf.job j hj
  rw [mem_onDisk, mem_onDisk]
  constructor
  · rintro (⟨f, hf, hr⟩ | ⟨l, hl, hr⟩)
    · exact Or.inl ⟨f, (level0_finished j s).mem hf, hr⟩
    · exact Or.inr ⟨l, hl, by rw [← hslice hl]; exact hr⟩
  · rintro (⟨f, hf, hr⟩ | ⟨l, hl, hr⟩)
    · by_cases h0 : j.level = 0
      · by_cases hin : ∀ g ∈ j.inputs0, g.timeStamp ≠ f.timeStamp
        · refine Or.inl ⟨f, ?_, hr⟩
          rw [finished, if_pos h0]
          exact mem_removeCache.mpr ⟨hf, hin⟩
        · push Not at hin
          obtain ⟨g, hg, he⟩ := hin
          have : g = f := eq_of_timeStamp_eq hwf
            (mem_liveFiles_of_level0 ((hjw.inputs0_level0 h0).mem hg))
            (mem_liveFiles_of_level0 hf) he
          subst this
          have hslot := hm j hj h0 v (not_pending_of_rest hrest v) g hg r hr
          exact Or.inr ⟨0, by decide, by rw [hslice (by decide)]; exact hslot⟩
      · exact Or.inl ⟨f, by rw [finished, if_neg h0]; exact hf, hr⟩
    · exact Or.inr ⟨l, hl, by rw [hslice hl]; exact hr⟩

/-- A compaction keeps what is on disk. -/
theorem mem_onDisk_compaction {a : Action} (hwf : Wf s) (hok : NoLoss o s a) (hm : Merged s)
    (h : step o s a = some s') (ha : a.Compacts) {r : EdgeRecord} :
    r ∈ s'.onDisk v ↔ r ∈ s.onDisk v := by
  have ht := hok.1
  cases a with
  | pick level => exact mem_onDisk_pick hwf (by omega) h
  | writeEnd =>
    obtain ⟨j, hr, hj, rfl⟩ := installed_of_noLoss hok h
    exact mem_onDisk_installed hwf (by omega) hj
  | finish => exact mem_onDisk_finish hwf hm h
  | putEdge | sortAdjacency | publish => cases ha

theorem merged_of_no_job (hj : s.job = none) : Merged s := by
  intro j hj'
  rw [hj] at hj'
  cases hj'

theorem merged_of_files (hwf : Wf s) (hwf' : Wf s') (hm : Merged s) (hl : s'.levels = s.levels)
    (hj : s'.job = s.job) : Merged s' := by
  intro j hj' h0 v hp f hf r hr
  rw [sliceAt_of_files hwf hwf' hl hj (by decide)]
  exact hm j (by rw [← hj]; exact hj') h0 v hp f hf r hr

theorem merged_step {a : Action} (hwf : Wf s) (hok : NoLoss o s a) (hm : Merged s)
    (h : step o s a = some s') : Merged s' := by
  have hwf' := wf_step hwf hok h
  have ht := hok.1
  cases a with
  | putEdge src dst payload mode isOut edgeType =>
    obtain ⟨e, -, -, -, -, -, -, rfl | ⟨e', -, -, -, -, -, -, -, rfl⟩⟩ := putEdge_cases h
    · exact merged_of_files hwf hwf' hm (by simp) (by simp)
    · exact merged_of_files hwf hwf' hm (by simp) (by simp)
  | sortAdjacency fid src =>
    simp only [step, sortAdjacency] at h
    split at h
    · cases h
      exact merged_of_files hwf hwf' hm rfl rfl
    · cases h
  | publish fid =>
    obtain ⟨t, f, -, -, -, rfl⟩ := publish_cases h
    exact merged_of_files hwf hwf' hm rfl rfl
  | pick level =>
    obtain ⟨hj, hl, -, sel, -, hsel, ⟨h0, h1, rfl⟩ | ⟨hs, rfl⟩⟩ := pick_cases h
    · exact merged_of_no_job hj
    · -- A vertex of an input waits.
      intro j hj' h0 v hp f hf r hr
      cases hj'
      exact absurd (started_pending (List.mem_append_left _ hf) (SSTable.mem_recordsOf_has hr)) hp
  | writeEnd =>
    obtain ⟨j, hr, hj, rfl⟩ := installed_of_noLoss hok h
    intro j' hj' h0 v hp f hf r hrf
    cases hj'
    have h0 : j.level = 0 := h0
    by_cases hv : (j.outputFile o hr).Has v
    · have hnext := sliceAt_installed_next hwf hwf' hj hv
      rw [h0] at hnext
      refine hnext.mem_iff.mpr (List.mem_append_left _ ?_)
      exact List.mem_flatMap.mpr ⟨f, hf, hrf⟩
    · rw [sliceAt_installed_of_not hwf hwf' hj hv (by decide)]
      have hp' : ¬ j.Pending v := fun h => hp ((pending_next hr).mpr ⟨h, hv⟩)
      exact hm j hj h0 v hp' f hf r hrf
  | finish =>
    obtain ⟨j, -, -, rfl⟩ := finish_cases h
    exact merged_of_no_job rfl

/-! ## The records that were put -/

/-- The key of an edge that was put. -/
def putKey (p : Nat × Edge) : EdgeKey := ⟨p.1, p.2.destination, p.2.isOut, p.2.edgeType⟩

def putSequence (p : Nat × Edge) : Nat := p.2.sequence

/-- Every edge that was put is in a memtable or on disk, and nothing else is. -/
structure Tracked (o : Options) (s : Store) : Prop where
  sequence_lt : ∀ p ∈ s.history, p.2.sequence < s.nextSequence
  below : ∀ p ∈ s.history, p.2.sequence < maxSeqId
  history_newer : s.history.Pairwise fun p q => putKey p = putKey q →
    q.2.sequence < p.2.sequence
  tables : ∀ t ∈ s.menTables, ∀ v, ∀ e ∈ (t.adj v).edges, (v, e) ∈ s.history
  disk : ∀ v, ∀ r ∈ s.onDisk v, ∃ e, (v, e) ∈ s.history ∧ e.toRecord o.propertyLengths v = r
  kept : ∀ v e, (v, e) ∈ s.history → (∃ t ∈ s.menTables, e ∈ (t.adj v).edges) ∨
    e.toRecord o.propertyLengths v ∈ s.onDisk v
  merged : Merged s

/-- The skip lists of the memtables start their searches before every edge. -/
theorem Tracked.tables_below (h : Tracked o s) {t : MemTable} (ht : t ∈ s.menTables) (v : Nat) :
    ∀ e ∈ (t.adj v).edges, e.sequence < maxSeqId :=
  fun e he => h.below _ (h.tables t ht v e he)

/-- A compaction moves records on disk, so it is enough that it keeps them there. -/
theorem tracked_of_compaction (h : Tracked o s) (hm : Merged s')
    (hseq : s'.nextSequence = s.nextSequence) (hhist : s'.history = s.history)
    (htab : s'.menTables = s.menTables) (hdisk : ∀ v r, r ∈ s'.onDisk v ↔ r ∈ s.onDisk v) :
    Tracked o s' := by
  refine
    { sequence_lt := by rw [hseq, hhist]; exact h.sequence_lt
      below := by rw [hhist]; exact h.below
      history_newer := by rw [hhist]; exact h.history_newer
      tables := by rw [htab, hhist]; exact h.tables
      disk := ?_, kept := ?_, merged := hm }
  · intro v r hr
    rw [hhist]
    exact h.disk v r ((hdisk v r).mp hr)
  · intro v e he
    rw [hhist] at he
    rw [htab, hdisk]
    exact h.kept v e he

theorem onDisk_of_files (hwf : Wf s) (hwf' : Wf s') (h0 : s'.level0 = s.level0)
    (hl : s'.levels = s.levels) (hj : s'.job = s.job) (v : Nat) (r : EdgeRecord) :
    r ∈ s'.onDisk v ↔ r ∈ s.onDisk v := by
  rw [mem_onDisk, mem_onDisk, h0]
  refine or_congr Iff.rfl (exists_congr fun l => and_congr_right fun hls => ?_)
  rw [sliceAt_of_files hwf hwf' hl hj hls]

theorem mem_menTables_putRecord {src : Nat} {e : Edge} {t : MemTable}
    (h : t ∈ (putRecord o src e s).menTables) :
    t ∈ s.immutables ∨ t = s.active.putEdge o.reserveNode src e ∨
      t = MemTable.fresh s.currentTime o.maxEdgeNum := by
  rcases putRecord_tables o src e s with ⟨htab, -⟩ | ⟨htab, -⟩
  · rw [htab] at h
    simp only [List.mem_append, List.mem_singleton] at h
    exact h.imp_right Or.inl
  · rw [htab] at h
    simp only [List.mem_append, List.mem_singleton, or_assoc] at h
    exact h

theorem menTables_putRecord_mem (src : Nat) (e : Edge) :
    (∀ t ∈ s.immutables, t ∈ (putRecord o src e s).menTables) ∧
      s.active.putEdge o.reserveNode src e ∈ (putRecord o src e s).menTables := by
  rcases putRecord_tables o src e s with ⟨htab, -⟩ | ⟨htab, -⟩ <;> rw [htab] <;>
    simp +contextual

theorem mem_edges_table_putEdge {t : MemTable} {src v : Nat} {e x : Edge} :
    x ∈ ((t.putEdge o.reserveNode src e).adj v).edges ↔
      v = src ∧ x = e ∨ x ∈ (t.adj v).edges := by
  rw [MemTable.adj_putEdge]
  by_cases h : v = src
  · subst h
    rw [if_pos rfl, NewEdgeSL.mem_edges_putEdge]
    simp
  · rw [if_neg h]
    simp [h]

theorem edges_fresh (fid n v : Nat) : ((MemTable.fresh fid n).adj v).edges = [] := rfl

theorem tracked_putRecord (src : Nat) (e : Edge) (hwf : Wf s) (ht : s.currentTime < invalidFileId)
    (h : Tracked o s) (hseq : e.sequence < s.nextSequence) (hbelow : e.sequence < maxSeqId)
    (hnew : ∀ p ∈ s.history, putKey (src, e) = putKey p → p.2.sequence < e.sequence) :
    Tracked o (putRecord o src e s) := by
  have hwf' := (wf_putRecord (o := o) src e hwf ht).1
  have hdisk := onDisk_of_files hwf hwf' (by simp) (by simp) (by simp)
  refine
    { sequence_lt := ?_, below := ?_, history_newer := ?_, tables := ?_, disk := ?_, kept := ?_
      merged := merged_of_files hwf hwf' h.merged (by simp) (by simp) }
  · rw [putRecord_history, putRecord_nextSequence]
    intro p hp
    rcases List.mem_cons.mp hp with rfl | hp
    · exact hseq
    · exact h.sequence_lt p hp
  · rw [putRecord_history]
    exact List.forall_mem_cons.mpr ⟨hbelow, h.below⟩
  · rw [putRecord_history, List.pairwise_cons]
    exact ⟨hnew, h.history_newer⟩
  · intro t htm v x hx
    rw [putRecord_history]
    rcases mem_menTables_putRecord htm with htm | rfl | rfl
    · exact List.mem_cons_of_mem _ (h.tables t (List.mem_append_left _ htm) v x hx)
    · rcases mem_edges_table_putEdge.mp hx with ⟨rfl, rfl⟩ | hx
      · exact List.mem_cons_self
      · exact List.mem_cons_of_mem _ (h.tables s.active (by simp [menTables]) v x hx)
    · rw [edges_fresh] at hx
      cases hx
  · intro v r hr
    rw [putRecord_history]
    obtain ⟨x, hx, hxr⟩ := h.disk v r ((hdisk v r).mp hr)
    exact ⟨x, List.mem_cons_of_mem _ hx, hxr⟩
  · intro v x hx
    obtain ⟨hold, hactive⟩ := menTables_putRecord_mem (o := o) (s := s) src e
    rw [putRecord_history] at hx
    rcases List.mem_cons.mp hx with hx | hx
    · cases hx
      exact Or.inl ⟨_, hactive, mem_edges_table_putEdge.mpr (Or.inl ⟨rfl, rfl⟩)⟩
    · rcases h.kept v x hx with ⟨t, htm, hxt⟩ | hd
      · rcases List.mem_append.mp htm with htm | htm
        · exact Or.inl ⟨t, hold t htm, hxt⟩
        · rw [List.mem_singleton.mp htm] at hxt
          exact Or.inl ⟨_, hactive, mem_edges_table_putEdge.mpr (Or.inr hxt)⟩
      · exact Or.inr ((hdisk v _).mpr hd)

theorem tracked_nextSequence {n : Nat} (hwf : Wf s) (h : Tracked o s) (hn : s.nextSequence ≤ n) :
    Tracked o { s with nextSequence := n } := by
  have hwf' := wf_nextSequence hwf n
  have hdisk := onDisk_of_files hwf hwf' rfl rfl rfl
  exact
    { h with
      sequence_lt := fun p hp => Nat.lt_of_lt_of_le (h.sequence_lt p hp) hn
      merged := merged_of_files hwf hwf' h.merged rfl rfl
      disk := fun v r hr => h.disk v r ((hdisk v r).mp hr)
      kept := fun v e he => (h.kept v e he).imp_right (hdisk v _).mpr }

theorem tracked_putEdge {src dst : Nat} {payload : Bytes} {mode : EdgeInsertMode} {isOut : Bool}
    {edgeType : UInt8} (hwf : Wf s) (ht : s.currentTime + 2 ≤ invalidFileId) (h : Tracked o s)
    (hput : putEdge o src dst payload mode isOut edgeType s = some s') : Tracked o s' := by
  obtain ⟨e, hseq, -, hout, -, -, -, hs⟩ := putEdge_cases hput
  have hbelow := nextSequence_lt_of_putEdge hput
  have hwf₁ := wf_nextSequence hwf (s.nextSequence + 1)
  have h₁ := tracked_nextSequence (n := s.nextSequence + 1) hwf h (Nat.le_succ _)
  have h₂ := tracked_putRecord src e hwf₁ (by dsimp only; omega) h₁
    (by dsimp only; omega) (by omega) (fun p hp _ => by rw [hseq]; exact h.sequence_lt p hp)
  rcases hs with rfl | ⟨e', hseq', -, hout', -, -, -, -, rfl⟩
  · exact h₂
  · obtain ⟨hwf₂, htime⟩ := wf_putRecord (o := o) src e hwf₁ (by dsimp only; omega)
    dsimp only at htime
    refine tracked_putRecord _ _ hwf₂ (by omega) h₂ ?_ (by omega) ?_
    · rw [putRecord_nextSequence]
      dsimp only
      omega
    · intro p hp hk
      rw [putRecord_history] at hp
      rcases List.mem_cons.mp hp with rfl | hp
      · -- The two records of the put differ in their direction.
        have := congrArg EdgeKey.isOut hk
        simp [putKey, hout, hout'] at this
      · rw [hseq']
        exact h.sequence_lt p hp

theorem sortAdjacency_cases {fid src : Nat} (h : sortAdjacency fid src s = some s') :
    s'.level0 = s.level0 ∧ s'.levels = s.levels ∧ s'.job = s.job ∧ s'.history = s.history ∧
      s'.nextSequence = s.nextSequence ∧ s'.active = s.active ∧
      s'.immutables = s.immutables.map fun t => if t.fid = fid then t.sortAdjacency src else t := by
  unfold sortAdjacency at h
  split at h
  · cases h
    exact ⟨rfl, rfl, rfl, rfl, rfl, rfl, rfl⟩
  · cases h

theorem mem_edges_sortAdjacency {t : MemTable} {src v : Nat} {x : Edge} :
    x ∈ ((t.sortAdjacency src).adj v).edges ↔ x ∈ (t.adj v).edges := by
  rw [MemTable.adj_sortAdjacency]
  split
  · rename_i h
    subst h
    exact (NewEdgeSL.edges_sort_perm _).mem_iff
  · rfl

/-- After a sort the tables are the old ones, with the same edges. -/
theorem tables_sortAdjacency {fid src : Nat} (h : sortAdjacency fid src s = some s') :
    (∀ t' ∈ s'.menTables, ∃ t ∈ s.menTables, t' = t ∨ t' = t.sortAdjacency src ∧
        t ∈ s.immutables ∧ t.fid = fid) ∧
      ∀ t ∈ s.menTables, ∃ t' ∈ s'.menTables, t' = t ∨ t' = t.sortAdjacency src := by
  obtain ⟨-, -, -, -, -, hactive, himm⟩ := sortAdjacency_cases h
  unfold menTables
  rw [hactive, himm]
  constructor
  · intro t' ht'
    rcases List.mem_append.mp ht' with ht' | ht'
    · obtain ⟨t, ht, rfl⟩ := List.mem_map.mp ht'
      refine ⟨t, List.mem_append_left _ ht, ?_⟩
      split
      · exact Or.inr ⟨rfl, ht, ‹_›⟩
      · exact Or.inl rfl
    · exact ⟨t', List.mem_append_right _ ht', Or.inl rfl⟩
  · intro t ht
    rcases List.mem_append.mp ht with ht | ht
    · refine ⟨_, List.mem_append_left _ (List.mem_map_of_mem ht), ?_⟩
      split
      · exact Or.inr rfl
      · exact Or.inl rfl
    · exact ⟨t, List.mem_append_right _ ht, Or.inl rfl⟩

theorem tracked_sortAdjacency {fid src : Nat} (hwf : Wf s) (h : Tracked o s)
    (hsort : sortAdjacency fid src s = some s') : Tracked o s' := by
  have hwf' := wf_sortAdjacency hwf hsort
  obtain ⟨hnew, hold⟩ := tables_sortAdjacency hsort
  obtain ⟨h0, hl, hj, hhist, hseq, -, -⟩ := sortAdjacency_cases hsort
  have hdisk := onDisk_of_files hwf hwf' h0 hl hj
  refine
    { sequence_lt := by rw [hhist, hseq]; exact h.sequence_lt
      below := by rw [hhist]; exact h.below
      history_newer := by rw [hhist]; exact h.history_newer
      tables := ?_, disk := ?_, kept := ?_, merged := merged_of_files hwf hwf' h.merged hl hj }
  · intro t' ht' v x hx
    rw [hhist]
    obtain ⟨t, ht, rfl | ⟨rfl, -⟩⟩ := hnew t' ht'
    · exact h.tables t' ht v x hx
    · exact h.tables t ht v x (mem_edges_sortAdjacency.mp hx)
  · intro v r hr
    rw [hhist]
    exact h.disk v r ((hdisk v r).mp hr)
  · intro v x hx
    rw [hhist] at hx
    rcases h.kept v x hx with ⟨t, ht, hxt⟩ | hd
    · obtain ⟨t', ht', rfl | rfl⟩ := hold t ht
      · exact Or.inl ⟨t', ht', hxt⟩
      · exact Or.inl ⟨_, ht', mem_edges_sortAdjacency.mpr hxt⟩
    · exact Or.inr ((hdisk v _).mpr hd)

/-- A flush brings the records of its table to disk. -/
theorem mem_onDisk_publish {fid : Nat} (hwf : Wf s) (h : publish o fid s = some s') :
    ∃ t ∈ s.immutables, t.fid = fid ∧ ∀ v r, r ∈ s'.onDisk v ↔
      r ∈ t.recordsOf o.propertyLengths v ∨ r ∈ s.onDisk v := by
  have hwf' := wf_publish hwf h
  obtain ⟨t, f, ht, hfid, hf, rfl⟩ := publish_cases h
  refine ⟨t, ht, hfid, fun v r => ?_⟩
  have hrec := (MemTable.save2eSSTable_spec hf).2 v
  rw [mem_onDisk, mem_onDisk, ← hrec.mem_iff, ← or_assoc]
  refine or_congr ?_ (exists_congr fun l => and_congr_right fun hls => ?_)
  · simp [List.mem_orderedInsert]
  · rw [sliceAt_of_files hwf hwf' rfl rfl hls]

theorem tracked_publish {fid : Nat} (hwf : Wf s) (h : Tracked o s)
    (hpub : publish o fid s = some s') : Tracked o s' := by
  have hwf' := wf_publish hwf hpub
  obtain ⟨t, ht, hfid, hdisk⟩ := mem_onDisk_publish hwf hpub
  obtain ⟨_, f, -, -, -, rfl⟩ := publish_cases hpub
  have htm := mem_menTables_of_immutables ht
  refine
    { sequence_lt := h.sequence_lt, below := h.below, history_newer := h.history_newer
      tables := ?_, disk := ?_, kept := ?_, merged := merged_of_files hwf hwf' h.merged rfl rfl }
  · intro t' ht' v x hx
    refine h.tables t' ?_ v x hx
    rcases List.mem_append.mp ht' with ht' | ht'
    · exact mem_menTables_of_immutables (List.mem_of_mem_filter ht')
    · exact List.mem_append_right _ ht'
  · intro v r hr
    rcases (hdisk v r).mp hr with hr | hr
    · obtain ⟨e, he, rfl⟩ := List.mem_map.mp hr
      exact ⟨e, h.tables t htm v e he, rfl⟩
    · exact h.disk v r hr
  · intro v x hx
    rcases h.kept v x hx with ⟨t', ht', hxt⟩ | hd
    · rcases List.mem_append.mp ht' with hi | ha
      · by_cases hne : t'.fid = fid
        · -- Ids are unique, so it is the table that was flushed.
          have : t' = t := List.inj_on_of_nodup_map hwf.mem_nodup ht' htm (hne.trans hfid.symm)
          subst this
          exact Or.inr ((hdisk v _).mpr (Or.inl (List.mem_map_of_mem hxt)))
        · refine Or.inl ⟨t', List.mem_append_left _ (List.mem_filter.mpr ⟨hi, ?_⟩), hxt⟩
          simpa using hne
      · exact Or.inl ⟨t', List.mem_append_right _ ha, hxt⟩
    · exact Or.inr ((hdisk v _).mpr (Or.inr hd))

theorem tracked_step {a : Action} (hwf : Wf s) (hok : NoLoss o s a) (h : Tracked o s)
    (hs : step o s a = some s') : Tracked o s' := by
  have hm := merged_step hwf hok h.merged hs
  cases a with
  | putEdge src dst payload mode isOut edgeType => exact tracked_putEdge hwf hok.1 h hs
  | sortAdjacency fid src => exact tracked_sortAdjacency hwf h hs
  | publish fid => exact tracked_publish hwf h hs
  | pick | writeEnd | finish =>
    have hsame := sameTables_step hs rfl
    exact tracked_of_compaction h hm hsame.nextSequence hsame.history hsame.menTables
      fun v r => mem_onDisk_compaction hwf hok h.merged hs rfl

/-- What is on disk stays there. -/
theorem mem_onDisk_step {a : Action} {v : Nat} {r : EdgeRecord} (hwf : Wf s) (hok : NoLoss o s a)
    (hm : Merged s) (hs : step o s a = some s') (hr : r ∈ s.onDisk v) : r ∈ s'.onDisk v := by
  have hwf' := wf_step hwf hok hs
  cases a with
  | putEdge src dst payload mode isOut edgeType =>
    obtain ⟨e, -, -, -, -, -, -, rfl | ⟨e', -, -, -, -, -, -, -, rfl⟩⟩ := putEdge_cases hs
    · exact (onDisk_of_files hwf hwf' (by simp) (by simp) (by simp) v r).mpr hr
    · exact (onDisk_of_files hwf hwf' (by simp) (by simp) (by simp) v r).mpr hr
  | sortAdjacency fid src =>
    obtain ⟨h0, hl, hj, -⟩ := sortAdjacency_cases hs
    exact (onDisk_of_files hwf hwf' h0 hl hj v r).mpr hr
  | publish fid =>
    obtain ⟨t, -, -, hdisk⟩ := mem_onDisk_publish hwf hs
    exact (hdisk v r).mpr (Or.inr hr)
  | pick | writeEnd | finish => exact (mem_onDisk_compaction hwf hok hm hs rfl).mpr hr

/-- An id that is passed over changes nothing. -/
theorem tracked_currentTime {n : Nat} (hwf : Wf s) (h : Tracked o s) (hle : s.currentTime ≤ n)
    (hn : n ≤ invalidFileId) :
    Wf { s with currentTime := n } ∧ Tracked o { s with currentTime := n } := by
  have hwf' : Wf { s with currentTime := n } :=
    wf_of_memory hwf rfl rfl rfl rfl rfl hle hn hwf.mem_nodup fun _ hi => Or.inl hi
  have hdisk := onDisk_of_files hwf hwf' rfl rfl rfl
  exact ⟨hwf',
    { h with
      merged := merged_of_files hwf hwf' h.merged rfl rfl
      disk := fun v r hr => h.disk v r ((hdisk v r).mp hr)
      kept := fun v e he => (h.kept v e he).imp_right (hdisk v _).mpr }⟩

theorem tracked_initial (o : Options) : Tracked o (initial o) :=
  { sequence_lt := by simp [initial], below := by simp [initial]
    history_newer := by simp [initial]
    tables := by simp [initial, menTables, edges_fresh]
    disk := by simp [mem_onDisk, initial, sliceAt, MulLevelIndex.empty]
    kept := by simp [initial], merged := merged_of_no_job rfl }

end Store

end RichGraph
