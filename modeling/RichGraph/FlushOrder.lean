-- Flushes that end in any order, with compactions between them. A file that is
-- published below the watermark of one of its vertices is hidden at once; when
-- no step does that, scans see every record and `LocateEdge` the newest one.
import RichGraph.Watermark

namespace RichGraph

open Compaction

namespace Store

variable {o : Options} {s s' : Store} {v : Nat}

/-! ## What the watermark hides in a run -/

/-- A compaction runs and has not written the vertex yet. -/
def Waiting (s : Store) (v : Nat) : Prop := ∃ j, s.job = some j ∧ j.Pending v

/-- The watermark of a vertex hides just the inputs that have been merged for it. -/
structure Shown (s : Store) : Prop where
  input_le : ∀ j, s.job = some j → j.level = 0 → ∀ f ∈ j.inputs0, f.timeStamp ≤ j.minLevel0Fid
  hidden_iff : ∀ v, ∀ f ∈ s.level0, f.Has v →
    (f.timeStamp < (s.index v).minLevel0Fid ↔ f ∈ s.picked0 ∧ ¬ s.Waiting v)

/-- The condition under which a step hides nothing else. A flush is published at or above the
watermark of its vertices, and an output file at level 0 has no vertex that another file of
level 0 has too, unless that file is newer than every input. -/
def KeepsShown (o : Options) (s : Store) : Action → Prop
  | .publish fid => ∀ t ∈ s.immutables, t.fid = fid → ∀ v ∈ t.vertexAdjs.keys,
      (s.index v).minLevel0Fid ≤ fid
  | .writeEnd => match s.job with
    | none => True
    | some j => j.level = 0 → ∀ f ∈ removeCache j.inputs0 s.level0,
        (∃ r ∈ f.records, ∃ r' ∈ (j.output o).1, r'.src = r.src) → j.minLevel0Fid < f.timeStamp
  | _ => True

instance (o : Options) (s : Store) (a : Action) : Decidable (KeepsShown o s a) := by
  cases a with
  | writeEnd =>
    unfold KeepsShown
    cases s.job <;> infer_instance
  | _ => unfold KeepsShown; infer_instance

theorem shown_of_files (h : Shown s) (h0 : s'.level0 = s.level0) (hi : s'.index = s.index)
    (hj : s'.job = s.job) : Shown s' := by
  have hpick : s'.picked0 = s.picked0 := by
    unfold picked0
    rw [hj]
  refine ⟨by rw [hj]; exact h.input_le, fun v f hf hv => ?_⟩
  rw [h0] at hf
  unfold Waiting
  rw [hi, hpick, hj]
  exact h.hidden_iff v f hf hv

theorem mem_keys_of_has {t : MemTable} {f : SSTable} {lengths : List Nat} {n : Nat}
    {hn : n ≤ invalidVertexId} (hf : t.save2eSSTable lengths n hn = some f) (hv : f.Has v) :
    v ∈ t.vertexAdjs.keys := by
  obtain ⟨r, hr, hrv⟩ := hv
  have hrec := (MemTable.save2eSSTable_spec hf).2 v
  have hmem : r ∈ t.recordsOf lengths v :=
    hrec.mem_iff.mp (SSTable.mem_recordsOf.mpr ⟨hr, hrv⟩)
  apply AList.mem_keys.mp
  apply AList.lookup_isSome.mp
  by_contra hnone
  rw [recordsOf_eq_nil_of_lookup hnone] at hmem
  cases hmem

theorem shown_publish {fid : Nat} (hwf : Wf s) (h : Shown s) (hok : KeepsShown o s (.publish fid))
    (hs : publish o fid s = some s') : Shown s' := by
  obtain ⟨t, f, ht, hfid, hf, rfl⟩ := publish_cases hs
  have hts := (MemTable.save2eSSTable_spec hf).1
  refine ⟨h.input_le, fun v g hg hv => ?_⟩
  rcases List.mem_orderedInsert _ |>.mp hg with rfl | hg
  · have hmin := hok t ht hfid v (mem_keys_of_has hf hv)
    have hnot : g ∉ s.picked0 := fun hin =>
      hwf.mem_fresh t (mem_menTables_of_immutables ht) g
        (mem_liveFiles_of_level0 (picked0_level0 hwf hin)) hts
    constructor
    · intro hlt
      dsimp only at hlt
      omega
    · exact fun hin => absurd hin.1 hnot
  · exact h.hidden_iff v g hg hv

theorem le_maxInputFid {inputs : List SSTable} {f : SSTable} (h : f ∈ inputs) :
    f.timeStamp ≤ maxInputFid inputs := by
  exact (Lib.le_foldl_max id _ 0).2 _ (List.mem_map_of_mem h)

theorem not_waiting_of_no_job (hj : s.job = none) (v : Nat) : ¬ s.Waiting v := by
  rintro ⟨j, hj', -⟩
  rw [hj] at hj'
  cases hj'

/-- Without a compaction nothing is hidden. -/
theorem shown_of_no_job (h : Shown s) (hj : s.job = none) {f : SSTable} (hf : f ∈ s.level0)
    (hv : f.Has v) : ¬ f.timeStamp < (s.index v).minLevel0Fid := by
  rw [h.hidden_iff v f hf hv, picked0_of_no_job hj]
  simp

theorem shown_of_nothing_hidden (hj : s.job = none)
    (h : ∀ v, ∀ f ∈ s.level0, f.Has v → ¬ f.timeStamp < (s.index v).minLevel0Fid) : Shown s := by
  refine ⟨fun j hj' => ?_, fun v f hf hv => ?_⟩
  · rw [hj] at hj'
    cases hj'
  · rw [picked0_of_no_job hj]
    simpa using h v f hf hv

theorem min_moved {inputs0 : List SSTable} {level : Nat} :
    ((directAdjustLevel level inputs0 s).index v).minLevel0Fid = (s.index v).minLevel0Fid := by
  simp only [directAdjustLevel, MulLevelIndex.moveDown]
  split <;> rfl

theorem shown_pick {level : Nat} (h : Shown s) (hs : pick o level s = some s') : Shown s' := by
  obtain ⟨hj, hl, -, sel, -, hsel, ⟨h0, h1, rfl⟩ | ⟨hm, rfl⟩⟩ := pick_cases hs
  · refine shown_of_nothing_hidden hj fun v f hf hv => ?_
    rw [min_moved]
    exact shown_of_no_job h hj hf hv
  · refine ⟨fun j hj' h0 f hf => ?_, fun v f hf hv => ?_⟩
    · cases hj'
      have hl0 : level = 0 := h0
      simp only [hl0, if_true]
      exact le_maxInputFid hf
    · have hnot := shown_of_no_job h hj hf hv
      refine ⟨fun hlt => absurd hlt hnot, ?_⟩
      rintro ⟨hin, hwait⟩
      -- An input waits for the merge.
      obtain ⟨j, hj', -, hin⟩ := mem_picked0.mp hin
      cases hj'
      exact absurd ⟨_, rfl, started_pending (List.mem_append_left _ hin) hv⟩ hwait

section output

variable {j : Job} {hr : j.rest ≠ []}

theorem picked0_installed (hj : s.job = some j) : (installed o j hr s).picked0 = s.picked0 := by
  obtain ⟨fid, hjob⟩ := job_installed o j hr s
  simp only [picked0, hjob, hj]
  rfl

theorem waiting_installed (hj : s.job = some j) :
    (installed o j hr s).Waiting v ↔ s.Waiting v ∧ ¬ (j.outputFile o hr).Has v := by
  obtain ⟨fid, hjob⟩ := job_installed o j hr s
  unfold Waiting
  rw [hjob, hj]
  constructor
  · rintro ⟨j', hj', hp⟩
    cases hj'
    obtain ⟨hp, hnot⟩ := (pending_next hr).mp hp
    exact ⟨⟨j, rfl, hp⟩, hnot⟩
  · rintro ⟨⟨j', hj', hp⟩, hnot⟩
    cases hj'
    exact ⟨_, rfl, (pending_next hr).mpr ⟨hp, hnot⟩⟩

/-- An output file at level 0 gives its vertices a watermark above the inputs. -/
theorem min_installed_of_has (hv : (j.outputFile o hr).Has v) :
    ((installed o j hr s).index v).minLevel0Fid =
      if j.level = 0 then j.minLevel0Fid + 1 else (s.index v).minLevel0Fid := by
  obtain ⟨p, -, hix⟩ := index_installed_of_has (s := s) hv
  rw [hix]
  rfl

theorem mem_removeCache_of_not_mem (hwf : Wf s) {inputs : List SSTable}
    (hsub : ∀ g ∈ inputs, g ∈ s.level0) {f : SSTable} (hf : f ∈ s.level0) (hnot : f ∉ inputs) :
    f ∈ removeCache inputs s.level0 := by
  refine mem_removeCache.mpr ⟨hf, fun g hg he => hnot ?_⟩
  have := eq_of_timeStamp_eq hwf (mem_liveFiles_of_level0 (hsub g hg))
    (mem_liveFiles_of_level0 hf) he
  rwa [← this]

theorem shown_installed (hwf : Wf s) (hj : s.job = some j) (h : Shown s)
    (hok : KeepsShown o s .writeEnd) : Shown (installed o j hr s) := by
  refine ⟨fun j' hj' h0 f hf => ?_, fun v f hf hv => ?_⟩
  · cases hj'
    exact h.input_le j hj h0 f hf
  rw [picked0_installed hj, waiting_installed hj]
  by_cases hout : (j.outputFile o hr).Has v
  · rw [min_installed_of_has hout]
    by_cases h0 : j.level = 0
    · rw [if_pos h0]
      have hpick : s.picked0 = j.inputs0 := by simp [picked0, hj, h0]
      rw [hpick]
      constructor
      · intro hlt
        refine ⟨?_, fun hw => hw.2 hout⟩
        -- Another file of the vertex has a larger id.
        by_contra hnot
        have hrest := mem_removeCache_of_not_mem hwf
          (fun g hg => ((hwf.job j hj).inputs0_level0 h0).mem hg) hf hnot
        obtain ⟨r, hrf, hrv⟩ := hv
        obtain ⟨r', hr', hrv'⟩ := hout
        unfold KeepsShown at hok
        simp only [hj] at hok
        have := hok h0 f hrest ⟨r, hrf, r', hr', hrv'.trans hrv.symm⟩
        omega
      · rintro ⟨hin, -⟩
        have := h.input_le j hj h0 f hin
        omega
    · have hpick : s.picked0 = [] := by simp [picked0, hj, h0]
      rw [if_neg h0]
      have := h.hidden_iff v f hf hv
      rw [hpick] at this ⊢
      simpa using this
  · rw [index_installed_of_not hout, h.hidden_iff v f hf hv]
    simp [hout]

end output

theorem shown_finish (h : Shown s) (hs : finish s = some s') : Shown s' := by
  obtain ⟨j, hj, -, rfl⟩ := finish_cases hs
  refine shown_of_nothing_hidden rfl fun v f hf hv => ?_
  have hstay := mem_level0_finish hj hf
  intro hlt
  exact hstay.2 ((h.hidden_iff v f hstay.1 hv).mp hlt).1

/-! ## Every record stays visible -/

/-- The records that were put for a vertex. -/
def written (o : Options) (s : Store) (v : Nat) : List EdgeRecord :=
  (s.history.filter (·.1 = v)).map fun p => p.2.toRecord o.propertyLengths v

/-- What is visible depends on the tables, on the files of level 0 and the watermark, and on the
slots. -/
theorem visible_congr (htab : (s'.menTables.flatMap (MemTable.recordsOf o.propertyLengths v)).Perm
      (s.menTables.flatMap (MemTable.recordsOf o.propertyLengths v)))
    (h0 : s'.level0 = s.level0)
    (hmin : (s'.index v).minLevel0Fid = (s.index v).minLevel0Fid)
    (hslots : ((List.range levelIndexSize).flatMap (s'.sliceAt v)).Perm
      ((List.range levelIndexSize).flatMap (s.sliceAt v))) :
    (s'.visible o v).Perm (s.visible o v) := by
  unfold visible shown0
  rw [h0, hmin]
  exact htab.append (hslots.append_left _)

theorem slots_of_files (hwf : Wf s) (hwf' : Wf s') (hl : s'.levels = s.levels)
    (hj : s'.job = s.job) : ((List.range levelIndexSize).flatMap (s'.sliceAt v)).Perm
      ((List.range levelIndexSize).flatMap (s.sliceAt v)) := by
  refine List.Perm.of_eq (List.flatMap_congr fun l hl' => ?_)
  exact sliceAt_of_files hwf hwf' hl hj (List.mem_range.mp hl')

theorem visible_putRecord {src : Nat} {e : Edge} (hwf : Wf s)
    (ht : s.currentTime < invalidFileId) :
    ((putRecord o src e s).visible o v).Perm
      ((if src = v then [e.toRecord o.propertyLengths v] else []) ++ s.visible o v) := by
  have hwf' := (wf_putRecord (o := o) src e hwf ht).1
  have hactive : ((s.active.putEdge o.reserveNode src e).recordsOf o.propertyLengths v).Perm
      ((if src = v then [e.toRecord o.propertyLengths v] else []) ++
        s.active.recordsOf o.propertyLengths v) := by
    by_cases hv : src = v
    · subst hv
      rw [if_pos rfl]
      exact MemTable.recordsOf_putEdge_perm _ _ _ _
    · rw [if_neg hv, List.nil_append, MemTable.recordsOf_putEdge_of_ne (Ne.symm hv)]
  have hfresh : (MemTable.fresh s.currentTime o.maxEdgeNum).recordsOf o.propertyLengths v = [] :=
    rfl
  have htab : ((putRecord o src e s).menTables.flatMap
      (MemTable.recordsOf o.propertyLengths v)).Perm
      ((if src = v then [e.toRecord o.propertyLengths v] else []) ++
        s.menTables.flatMap (MemTable.recordsOf o.propertyLengths v)) := by
    have hold : ((s.immutables ++ [s.active.putEdge o.reserveNode src e]).flatMap
        (MemTable.recordsOf o.propertyLengths v)).Perm
        ((if src = v then [e.toRecord o.propertyLengths v] else []) ++
          s.menTables.flatMap (MemTable.recordsOf o.propertyLengths v)) := by
      unfold menTables
      rw [List.flatMap_append, List.flatMap_append, List.flatMap_singleton, List.flatMap_singleton]
      refine (hactive.append_left _).trans ?_
      rw [← List.append_assoc, ← List.append_assoc]
      exact List.perm_append_comm.append_right _
    rcases putRecord_tables o src e s with ⟨htabs, -⟩ | ⟨htabs, -⟩
    · rw [htabs]
      exact hold
    · rw [htabs, List.flatMap_append, List.flatMap_singleton, hfresh, List.append_nil]
      exact hold
  unfold visible shown0
  rw [putRecord_level0, putRecord_index]
  refine (htab.append ((slots_of_files hwf hwf' (by simp) (by simp)).append_left _)).trans ?_
  rw [List.append_assoc]

theorem visible_sortAdjacency {fid src : Nat} (hwf : Wf s)
    (hs : sortAdjacency fid src s = some s') : (s'.visible o v).Perm (s.visible o v) := by
  have hwf' := wf_sortAdjacency hwf hs
  unfold sortAdjacency at hs
  split at hs
  · cases hs
    refine visible_congr ?_ rfl rfl (slots_of_files hwf hwf' rfl rfl)
    unfold menTables
    rw [List.flatMap_append, List.flatMap_append, List.flatMap_map]
    refine List.Perm.append_right _ (List.Perm.flatMap_left _ fun t _ => ?_)
    split
    · exact MemTable.recordsOf_sortAdjacency_perm _ _ _
    · exact List.Perm.refl _
  · cases hs

theorem immutables_perm {fid : Nat} {t : MemTable} (hwf : Wf s) (ht : t ∈ s.immutables)
    (hfid : t.fid = fid) : s.immutables.Perm (t :: s.immutables.filter (·.fid != fid)) := by
  have hnd : (s.immutables.map MemTable.fid).Nodup :=
    hwf.mem_nodup.sublist ((List.sublist_append_left _ _).map _)
  have hone : s.immutables.filter (fun u => u.fid == fid) = [t] :=
    hfid ▸ Lib.filter_key_eq_singleton hnd ht
  have := (List.filter_append_perm (fun u : MemTable => u.fid == fid) s.immutables).symm
  rw [hone] at this
  exact this

/-- The flushed file is shown for all its vertices. -/
theorem visible_publish {fid : Nat} (hwf : Wf s) (hok : KeepsShown o s (.publish fid))
    (hs : publish o fid s = some s') : (s'.visible o v).Perm (s.visible o v) := by
  have hwf' := wf_publish hwf hs
  obtain ⟨t, f, ht, hfid, hf, rfl⟩ := publish_cases hs
  obtain ⟨hts, hrec⟩ := MemTable.save2eSSTable_spec hf
  have htab : (s.menTables.flatMap (MemTable.recordsOf o.propertyLengths v)).Perm
      (f.recordsOf v ++ (s.immutables.filter (·.fid != fid) ++ [s.active]).flatMap
        (MemTable.recordsOf o.propertyLengths v)) := by
    unfold menTables
    rw [List.flatMap_append, List.flatMap_append, ← List.append_assoc]
    refine List.Perm.append_right _ ?_
    refine ((immutables_perm hwf ht hfid).flatMap_right _).trans ?_
    rw [List.flatMap_cons]
    exact (hrec v).symm.append_right _
  have hlevel0 : ((s.level0.orderedInsert (fun a b => b.timeStamp ≤ a.timeStamp) f).filter
      fun g => (s.index v).minLevel0Fid ≤ g.timeStamp).flatMap (·.recordsOf v) |>.Perm
      (f.recordsOf v ++ (s.shown0 v).flatMap (·.recordsOf v)) := by
    refine (((List.perm_orderedInsert _ f s.level0).filter _).flatMap_right _).trans ?_
    by_cases hv : f.Has v
    · have hmin := hok t ht hfid v (mem_keys_of_has hf hv)
      rw [List.filter_cons_of_pos (by simp only [decide_eq_true_eq]; omega), List.flatMap_cons]
      exact List.Perm.refl _
    · rw [SSTable.recordsOf_eq_nil hv, List.nil_append]
      by_cases hshow : (s.index v).minLevel0Fid ≤ f.timeStamp
      · rw [List.filter_cons_of_pos (by simpa using hshow), List.flatMap_cons,
          SSTable.recordsOf_eq_nil hv, List.nil_append]
        exact List.Perm.refl _
      · rw [List.filter_cons_of_neg (by simpa using hshow)]
        exact List.Perm.refl _
  have hslots := slots_of_files (v := v) hwf hwf' rfl rfl
  refine (List.Perm.append_left _ (hlevel0.append hslots)).trans ?_
  refine List.Perm.trans ?_ (htab.symm.append_right _)
  rw [List.append_assoc, List.append_assoc, ← List.append_assoc,
    ← List.append_assoc (f.recordsOf v)]
  exact List.perm_append_comm.append_right _

theorem visible_pick {level : Nat} (hwf : Wf s) (ht : s.currentTime < invalidFileId)
    (hs : pick o level s = some s') : (s'.visible o v).Perm (s.visible o v) := by
  obtain ⟨h0, hshift⟩ := shifted_pick (v := v) hwf ht hs
  obtain ⟨-, -, -, sel, -, -, ⟨-, -, rfl⟩ | ⟨hm, rfl⟩⟩ := pick_cases hs
  · exact visible_congr (List.Perm.refl _) h0 min_moved hshift.flatMap_perm
  · exact visible_congr (List.Perm.refl _) h0 rfl hshift.flatMap_perm

/-- Files that do not have the vertex may be shown or not. -/
theorem flatMap_filter_congr {files : List SSTable} {p q : SSTable → Bool}
    (h : ∀ f ∈ files, f.Has v → p f = q f) :
    (files.filter p).flatMap (·.recordsOf v) = (files.filter q).flatMap (·.recordsOf v) := by
  induction files with
  | nil => rfl
  | cons f files ih =>
    have ih := ih fun g hg => h g (List.mem_cons_of_mem _ hg)
    by_cases hv : f.Has v
    · have := h f List.mem_cons_self hv
      cases hq : q f <;> simp [this, hq, ih]
    · have hnil := SSTable.recordsOf_eq_nil hv
      cases hp : p f <;> cases hq : q f <;> simp [hp, hq, ih, hnil]

theorem picked0_sublist (hwf : Wf s) : s.picked0.Sublist s.level0 := by
  unfold picked0
  cases hj : s.job with
  | none => exact List.nil_sublist _
  | some j =>
    by_cases h0 : j.level = 0
    · simp only [h0, if_true]
      exact (hwf.job j hj).inputs0_level0 h0
    · simp only [h0, if_false]
      exact List.nil_sublist _

open Classical in
/-- What is visible: of level 0 the files that are not merged, and the others for a vertex that
waits. -/
theorem visible_of_shown (hwf : Wf s) (h : Shown s) :
    (s.visible o v).Perm (s.menTables.flatMap (MemTable.recordsOf o.propertyLengths v) ++
      (((removeCache s.picked0 s.level0).flatMap (·.recordsOf v) ++
        (if s.Waiting v then s.picked0.flatMap (·.recordsOf v) else [])) ++
        (List.range levelIndexSize).flatMap (s.sliceAt v))) := by
  have hsub := picked0_sublist hwf
  have hall : ∀ files : List SSTable, files.flatMap (·.recordsOf v) =
      (files.filter fun _ => true).flatMap (·.recordsOf v) := by
    intro files
    rw [List.filter_true]
  have hothers : ((removeCache s.picked0 s.level0).filter fun f =>
      (s.index v).minLevel0Fid ≤ f.timeStamp).flatMap (·.recordsOf v) =
      (removeCache s.picked0 s.level0).flatMap (·.recordsOf v) := by
    rw [hall (removeCache _ _)]
    apply flatMap_filter_congr
    intro f hf hv
    obtain ⟨hf0, hne⟩ := mem_removeCache.mp hf
    have hnot : f ∉ s.picked0 := fun hin => hne f hin rfl
    have := h.hidden_iff v f hf0 hv
    simp only [hnot, false_and, iff_false, Nat.not_lt] at this
    simp [this]
  have hinputs : (s.picked0.filter fun f => (s.index v).minLevel0Fid ≤ f.timeStamp).flatMap
      (·.recordsOf v) = if s.Waiting v then s.picked0.flatMap (·.recordsOf v) else [] := by
    split
    · rename_i hwait
      rw [hall s.picked0]
      apply flatMap_filter_congr
      intro f hf hv
      have := h.hidden_iff v f (hsub.mem hf) hv
      simp only [hwait, not_true_eq_false, and_false, iff_false, Nat.not_lt] at this
      simp [this]
    · rename_i hdone
      rw [flatMap_filter_eq_nil_iff]
      intro f hf hv
      have := (h.hidden_iff v f (hsub.mem hf) hv).mpr ⟨hf, hdone⟩
      simpa using this
  have hperm := visible_perm (o := o) (v := v) hwf hsub
  rwa [hothers, hinputs, ← slots_split] at hperm

theorem visible_installed {j : Job} {hr : j.rest ≠ []} (hwf : Wf s)
    (ht : s.currentTime < invalidFileId) (hj : s.job = some j) (h : Shown s)
    (hok : KeepsShown o s .writeEnd) :
    ((installed o j hr s).visible o v).Perm (s.visible o v) := by
  have hwf' : Wf (installed o j hr s) := wf_installed hwf ht hj
  by_cases hcase : j.level ≠ 0 ∨ ¬ (j.outputFile o hr).Has v
  · refine visible_congr (List.Perm.refl _) rfl ?_
      (shifted_installed hwf hwf' hj hcase).flatMap_perm
    by_cases hout : (j.outputFile o hr).Has v
    · rw [min_installed_of_has hout, if_neg (hcase.resolve_right (not_not_intro hout))]
    · rw [index_installed_of_not hout]
  -- At level 0 the records of the inputs come to the first slot as the inputs are hidden.
  push Not at hcase
  obtain ⟨h0, hout⟩ := hcase
  have hwait : s.Waiting v := ⟨j, hj, pending_of_outputFile hout⟩
  have hdone : ¬ (installed o j hr s).Waiting v := fun hw => ((waiting_installed hj).mp hw).2 hout
  have hpick : s.picked0 = j.inputs0 := by simp [picked0, hj, h0]
  have hbefore := visible_of_shown (o := o) (v := v) hwf h
  have hafter := visible_of_shown (o := o) (v := v) hwf' (shown_installed hwf hj h hok)
  rw [if_pos hwait] at hbefore
  rw [if_neg hdone, picked0_installed hj, List.append_nil] at hafter
  have hslots : ((List.range levelIndexSize).flatMap ((installed o j hr s).sliceAt v)).Perm
      (s.picked0.flatMap (·.recordsOf v) ++ (List.range levelIndexSize).flatMap (s.sliceAt v)) := by
    have hfirst := sliceAt_installed_next hwf hwf' hj hout
    rw [h0] at hfirst
    have hdeep : [1, 2, 3].flatMap ((installed o j hr s).sliceAt v) =
        [1, 2, 3].flatMap (s.sliceAt v) := by
      apply List.flatMap_congr
      intro l hl
      simp only [List.mem_cons, List.not_mem_nil, or_false] at hl
      refine sliceAt_installed_other hwf hwf' hj hout ?_ (by omega) (by omega)
      simp only [levelIndexSize, maxLevel]
      omega
    rw [slots_split, slots_split, hdeep, hpick, ← List.append_assoc]
    exact hfirst.append_right _
  refine hafter.trans (List.Perm.trans ?_ hbefore.symm)
  rw [List.append_assoc (List.flatMap _ (removeCache _ _))]
  exact (hslots.append_left _).append_left _

theorem visible_finish (hwf : Wf s) (h : Shown s) (hs : finish s = some s') :
    (s'.visible o v).Perm (s.visible o v) := by
  have hwf' := wf_finish hwf hs
  have hshown' := shown_finish h hs
  have hslots : (List.range levelIndexSize).flatMap (s'.sliceAt v) =
      (List.range levelIndexSize).flatMap (s.sliceAt v) :=
    List.flatMap_congr fun l hl => sliceAt_finish hwf hs (List.mem_range.mp hl)
  obtain ⟨j, hj, hrest, rfl⟩ := finish_cases hs
  by_cases h0 : j.level = 0
  · have hdone : ¬ s.Waiting v := by
      rintro ⟨j', hj', hp⟩
      rw [hj] at hj'
      cases hj'
      exact not_pending_of_rest hrest v hp
    have hpick : s.picked0 = j.inputs0 := by simp [picked0, hj, h0]
    have hbefore := visible_of_shown (o := o) (v := v) hwf h
    have hafter := visible_of_shown (o := o) (v := v) hwf' hshown'
    rw [if_neg hdone, List.append_nil, hpick] at hbefore
    rw [if_neg (not_waiting_of_no_job rfl v), List.append_nil, hslots] at hafter
    refine hafter.trans (List.Perm.trans (List.Perm.of_eq ?_) hbefore.symm)
    simp only [finished, picked0, removeCache, if_pos h0, List.map_nil, List.contains_nil,
      Bool.not_false, List.filter_true]
    rfl
  · exact visible_congr (List.Perm.refl _) (if_neg h0) rfl (List.Perm.of_eq hslots)

/-! ## Runs -/

/-- In every state: nothing is hidden that is not merged, and a vertex shows just the records
that were put for it. -/
structure Scanned (o : Options) (s : Store) : Prop where
  wf : Wf s
  tracked : Tracked o s
  levels : LevelsReached s
  shown : Shown s
  visible : ∀ v, (s.visible o v).Perm (s.written o v)

/-- A step that loses no file and hides nothing. -/
def HidesNothing (o : Options) (s : Store) (a : Action) : Prop := NoLoss o s a ∧ KeepsShown o s a

instance (o : Options) (s : Store) (a : Action) : Decidable (HidesNothing o s a) :=
  inferInstanceAs (Decidable (_ ∧ _))

/-- Moreover the places are in order. -/
structure AllShown (o : Options) (s : Store) : Prop extends Scanned o s where
  order : InOrder o s

/-- A step that keeps the order, loses no file and hides nothing. -/
def ShownStep (o : Options) (s : Store) (a : Action) : Prop := OrderedStep o s a ∧ KeepsShown o s a

instance (o : Options) (s : Store) (a : Action) : Decidable (ShownStep o s a) :=
  inferInstanceAs (Decidable (_ ∧ _))

theorem written_cons {src : Nat} {e : Edge} (hh : s'.history = (src, e) :: s.history) (v : Nat) :
    s'.written o v =
      (if src = v then [e.toRecord o.propertyLengths v] else []) ++ s.written o v := by
  unfold written
  rw [hh]
  by_cases hv : src = v
  · rw [List.filter_cons_of_pos (by simpa using hv), if_pos hv]
    rfl
  · rw [List.filter_cons_of_neg (by simpa using hv), if_neg hv, List.nil_append]

theorem visible_written_putRecord {src : Nat} {e : Edge} (hwf : Wf s)
    (ht : s.currentTime < invalidFileId) (h : (s.visible o v).Perm (s.written o v)) :
    ((putRecord o src e s).visible o v).Perm ((putRecord o src e s).written o v) := by
  rw [written_cons (putRecord_history o src e s)]
  exact (visible_putRecord hwf ht).trans (h.append_left _)

theorem visible_written_nextSequence (n : Nat) (hwf : Wf s)
    (h : (s.visible o v).Perm (s.written o v)) :
    (({ s with nextSequence := n } : Store).visible o v).Perm
      (({ s with nextSequence := n } : Store).written o v) := by
  have hslots := slots_of_files (v := v) hwf (wf_nextSequence hwf n) rfl rfl
  exact ((hslots.append_left _).append_left _).trans h

theorem visible_written_putEdge {src dst : Nat} {payload : Bytes} {mode : EdgeInsertMode}
    {isOut : Bool} {edgeType : UInt8} (hwf : Wf s) (ht : s.currentTime + 2 ≤ invalidFileId)
    (h : (s.visible o v).Perm (s.written o v))
    (hs : putEdge o src dst payload mode isOut edgeType s = some s') :
    (s'.visible o v).Perm (s'.written o v) := by
  have hwf₁ := wf_nextSequence hwf (s.nextSequence + 1)
  have h₁ := visible_written_nextSequence (s.nextSequence + 1) hwf h
  obtain ⟨e, -, -, -, -, -, -, rfl | ⟨e', -, -, -, -, -, -, -, rfl⟩⟩ := putEdge_cases hs
  · exact visible_written_putRecord hwf₁ (by dsimp only; omega) h₁
  · obtain ⟨hwf₂, htime⟩ := wf_putRecord (o := o) src e hwf₁ (by dsimp only; omega)
    dsimp only at htime
    exact visible_written_putRecord hwf₂ (by omega)
      (visible_written_putRecord hwf₁ (by dsimp only; omega) h₁)

theorem shown_putEdge {src dst : Nat} {payload : Bytes} {mode : EdgeInsertMode} {isOut : Bool}
    {edgeType : UInt8} (h : Shown s)
    (hs : putEdge o src dst payload mode isOut edgeType s = some s') : Shown s' := by
  obtain ⟨e, -, -, -, -, -, -, rfl | ⟨e', -, -, -, -, -, -, -, rfl⟩⟩ := putEdge_cases hs
  · exact shown_of_files h (by simp) (by simp) (by simp)
  · exact shown_of_files h (by simp) (by simp) (by simp)

theorem written_compaction {a : Action} (hs : step o s a = some s') (ha : a.Compacts) (v : Nat) :
    s'.written o v = s.written o v := by
  unfold written
  rw [(sameTables_step hs ha).history]

theorem scanned_step {a : Action} (h : Scanned o s) (hok : HidesNothing o s a)
    (hs : step o s a = some s') : Scanned o s' := by
  have hwf := h.wf
  have hwf' := wf_step hwf hok.1 hs
  have htr := tracked_step hwf hok.1 h.tracked hs
  have hlev := levelsReached_step h.levels hs
  have ht : s.currentTime + 2 ≤ invalidFileId := hok.1.1
  cases a with
  | putEdge src dst payload mode isOut edgeType =>
    exact ⟨hwf', htr, hlev, shown_putEdge h.shown hs,
      fun v => visible_written_putEdge hwf ht (h.visible v) hs⟩
  | sortAdjacency fid src =>
    have hvis := fun v => (visible_sortAdjacency hwf hs).trans (h.visible v)
    simp only [step, sortAdjacency] at hs
    split at hs
    · cases hs
      exact ⟨hwf', htr, hlev, shown_of_files h.shown rfl rfl rfl, hvis⟩
    · cases hs
  | publish fid =>
    have hshown := shown_publish hwf h.shown hok.2 hs
    have hvis := fun v => (visible_publish hwf hok.2 hs).trans (h.visible v)
    obtain ⟨t, f, -, -, -, rfl⟩ := publish_cases hs
    exact ⟨hwf', htr, hlev, hshown, hvis⟩
  | pick level =>
    exact ⟨hwf', htr, hlev, shown_pick h.shown hs, fun v =>
      (written_compaction hs rfl v).symm ▸ (visible_pick hwf (by omega) hs).trans (h.visible v)⟩
  | writeEnd =>
    obtain ⟨j, hr, hj, rfl⟩ := installed_of_noLoss hok.1 hs
    exact ⟨hwf', htr, hlev, shown_installed hwf hj h.shown hok.2,
      fun v => (visible_installed hwf (by omega) hj h.shown hok.2).trans (h.visible v)⟩
  | finish =>
    exact ⟨hwf', htr, hlev, shown_finish h.shown hs, fun v =>
      (written_compaction hs rfl v).symm ▸ (visible_finish hwf h.shown hs).trans (h.visible v)⟩

/-- The next sequence may be any that is not used. -/
theorem scanned_nextSequence {n : Nat} (h : Scanned o s) (hn : s.nextSequence ≤ n) :
    Scanned o { s with nextSequence := n } := by
  have hwf' := wf_nextSequence h.wf n
  exact
    { wf := hwf', tracked := tracked_nextSequence h.wf h.tracked hn
      levels := { h.levels with }
      shown := shown_of_files h.shown rfl rfl rfl
      visible := fun v => visible_written_nextSequence n h.wf (h.visible v) }

theorem scanned_initial (o : Options) : Scanned o (initial o) := by
  refine ⟨wf_initial o, tracked_initial o, levelsReached_initial o,
    shown_of_nothing_hidden rfl (fun v f hf => by cases hf), fun v => List.Perm.of_eq ?_⟩
  have hslice : ∀ l, (initial o).sliceAt v l = [] := by
    simp [sliceAt, initial, MulLevelIndex.empty]
  have hslots : (List.range levelIndexSize).flatMap ((initial o).sliceAt v) = [] := by
    simp [List.flatMap_eq_nil_iff, hslice]
  unfold visible shown0
  rw [hslots]
  rfl

theorem scanned_of_reach (h : Lib.Reach (step o) (HidesNothing o) (initial o) s) : Scanned o s :=
  h.invariant (scanned_initial o) fun _ _ _ hinv hok hs => scanned_step hinv hok hs

theorem allShown_step {a : Action} (h : AllShown o s) (hok : ShownStep o s a)
    (hs : step o s a = some s') : AllShown o s' :=
  ⟨scanned_step h.toScanned ⟨hok.1.1, hok.2⟩ hs, inOrder_step h.order hok.1 hs⟩

theorem allShown_nextSequence {n : Nat} (h : AllShown o s) (hn : s.nextSequence ≤ n) :
    AllShown o { s with nextSequence := n } :=
  ⟨scanned_nextSequence h.toScanned hn, inOrder_nextSequence h.order hn⟩

theorem allShown_initial (o : Options) : AllShown o (initial o) :=
  ⟨scanned_initial o, inOrder_initial o⟩

theorem allShown_of_reach (h : Lib.Reach (step o) (ShownStep o) (initial o) s) : AllShown o s :=
  h.invariant (allShown_initial o) fun _ _ _ hinv hok hs => allShown_step hinv hok hs

/-! ## `LocateEdge` -/

variable {k : EdgeKey}

/-- A hit in a shown file is as new as everything in the slots. -/
theorem shown0_covers_slots (h : AllShown o s) (k : EdgeKey)
    (hold : HoldsKey k ((s.shown0 k.src).flatMap (·.recordsOf k.src))) :
    Lib.Covers EdgeRecord.key EdgeRecord.seq ((s.shown0 k.src).flatMap (·.recordsOf k.src))
      ((List.range levelIndexSize).flatMap (s.sliceAt k.src)) k := by
  refine Lib.Newer.covers ?_ hold
  intro x hx r hr hxk hk
  obtain ⟨l, hl, hr⟩ := List.mem_flatMap.mp hr
  have hl := List.mem_range.mp hl
  obtain ⟨f, hf, hxf⟩ := List.mem_flatMap.mp hx
  obtain ⟨hf0, hmin⟩ := List.mem_filter.mp hf
  have hmin : (s.index k.src).minLevel0Fid ≤ f.timeStamp := of_decide_eq_true hmin
  by_cases hpick : f ∈ s.picked0
  · -- A shown input waits.
    have hwait : s.Waiting k.src := by
      by_contra hdone
      have := (h.shown.hidden_iff k.src f hf0 (SSTable.mem_recordsOf_has hxf)).mpr ⟨hpick, hdone⟩
      omega
    obtain ⟨j, hj, hp⟩ := hwait
    exact (h.order.files k).picked_slots j hj hp f hpick l hl x hxf r hr hxk hk
  · exact (h.order.files k).outside_slots f hf0 hpick l hl x hxf r hr hxk hk

theorem newest_findForLocate (h : AllShown o s) (k : EdgeKey) :
    NewestOf k (s.visible o k.src)
      ((s.findForLocate k).map (Found.record o.propertyLengths k.src)) := by
  unfold findForLocate
  rw [Option.map_or, Option.map_or]
  refine (newest_findEdgeInMemtable h.order k).append ?_ (tables_cover_disk h.order k ?_)
  · exact (newest_level0 h.order k List.filter_sublist).append
      (newest_findEdgeByLevelindex h.order k) (shown0_covers_slots h k)
  · intro r hr
    rw [mem_onDisk]
    rcases List.mem_append.mp hr with hr | hr
    · obtain ⟨f, hf, hrf⟩ := List.mem_flatMap.mp hr
      exact Or.inl ⟨f, List.mem_of_mem_filter hf, hrf⟩
    · obtain ⟨l, hl, hrl⟩ := List.mem_flatMap.mp hr
      exact Or.inr ⟨l, List.mem_range.mp hl, hrl⟩

/-- `LocateEdge` names the put: the sequence of a live edge, and that an edge is deleted. -/
def Locates : Option (Nat × Edge) → Status × Location → Prop
  | none, loc => loc = (.kNotFound, {})
  | some p, loc =>
    if p.2.marker then loc.1 = .kDelete else loc.1 = .kOk ∧ loc.2.sequence = p.2.sequence

theorem mem_written {r : EdgeRecord} : r ∈ s.written o v ↔
    ∃ e, (v, e) ∈ s.history ∧ e.toRecord o.propertyLengths v = r := by
  unfold written
  constructor
  · intro hr
    obtain ⟨p, hp, rfl⟩ := List.mem_map.mp hr
    obtain ⟨hp, hv⟩ := List.mem_filter.mp hp
    have hv : p.1 = v := of_decide_eq_true hv
    exact ⟨p.2, by rw [← hv]; exact hp, rfl⟩
  · rintro ⟨e, he, rfl⟩
    exact List.mem_map.mpr ⟨(v, e), List.mem_filter.mpr ⟨he, by simp⟩, rfl⟩

theorem locates_lastPut (h : AllShown o s) (k : EdgeKey) :
    Locates (s.lastPut k) (s.locateEdge k) := by
  have htr := h.order.tracked
  have hmem : ∀ fid e, s.findForLocate k = some (.inMemtable fid e) → (k.src, e) ∈ s.history :=
    fun fid e hf => mem_history_of_memtable htr (fun _ _ => disk_ne_inMemtable) hf
  have hfound := found_is_lastPut htr
    (fun r => ((h.visible k.src).mem_iff).trans mem_written) hmem (newest_findForLocate h k)
  unfold locateEdge
  rcases hfound with ⟨hnone, hlast⟩ | ⟨e, hlast, ⟨fid, hf⟩ | ⟨fid, hf⟩⟩
  · rw [hnone, hlast]
    rfl
  · rw [hf, hlast]
    cases hm : e.marker <;> simp [Locates, locate, Found.marker, Found.location, hm]
  · rw [hf, hlast]
    cases hm : e.marker <;> simp [Locates, locate, Found.marker, Found.location, Edge.toRecord, hm]

/-- In every run whose steps keep the order, lose no file and hide nothing: a scan of a vertex
sees just the records that were put for it, and `LocateEdge` and `GetEdge` answer from the put of
the key with the greatest sequence. -/
theorem every_flushed_record_stays_readable {o : Options} {s : Store}
    (h : Lib.Reach (step o) (ShownStep o) (initial o) s) :
    (∀ v, (s.scanSources o v).flatten.Perm (s.written o v)) ∧
      ∀ k, Lib.Newest putKey putSequence s.history k (s.lastPut k) ∧
        Locates (s.lastPut k) (s.locateEdge k) ∧
        ∀ propertyId, Answers o.propertyLengths propertyId (s.lastPut k)
          (s.getEdge noDeltas k propertyId) := by
  have hall := allShown_of_reach h
  refine ⟨fun v => ?_, fun k => ⟨newest_lastPut hall.order.tracked k, locates_lastPut hall k,
    fun propertyId => getEdge_answers hall.order k propertyId⟩⟩
  rw [scanSources_flatten hall.levels]
  exact hall.visible v

/-- A put and a deletion are flushed in the order of their tables, and compacted. -/
theorem flushed_records_stay_readable_in_order :
    ∃ s, (Lib.Reach (step smallStore) (ShownStep smallStore) (initial smallStore) s ∧
        s.levels 1 ≠ [] ∧ (s.locateEdge ⟨1, 2, true, 0⟩).1 = .kDelete) ∧
      (∀ v, (s.scanSources smallStore v).flatten.Perm (s.written smallStore v)) ∧
      ∀ k, Lib.Newest putKey putSequence s.history k (s.lastPut k) ∧
        Locates (s.lastPut k) (s.locateEdge k) ∧
        ∀ propertyId, Answers [4] propertyId (s.lastPut k) (s.getEdge noDeltas k propertyId) := by
  obtain ⟨s, hs, hp⟩ := Lib.exists_reach_of_run (step smallStore) (ShownStep smallStore)
    (initial smallStore)
    [putOneTwo (bytes "a"), .publish 0, putOneTwo deletedPayload, .publish 1, .pick 0, .writeEnd,
      .finish]
    (fun s => s.levels 1 ≠ [] ∧ (s.locateEdge ⟨1, 2, true, 0⟩).1 = .kDelete)
    (by decide)
  exact ⟨s, ⟨hs, hp⟩, every_flushed_record_stays_readable hs⟩

/-- The second table is flushed and merged first. When the first table is published, its file is
below the watermark of vertex 1, and neither `LocateEdge` nor a scan finds its record. -/
theorem a_late_flush_is_hidden :
    ∃ s, Lib.Reach (step smallStore) (OrderedStep smallStore) (initial smallStore) s ∧
      s.lastPut ⟨1, 2, true, 0⟩ ≠ none ∧ (s.locateEdge ⟨1, 2, true, 0⟩).1 = .kNotFound ∧
      ¬ (s.scanSources smallStore 1).flatten.Perm (s.written smallStore 1) :=
  Lib.exists_reach_of_run (step smallStore) (OrderedStep smallStore) (initial smallStore)
    [putOneTwo (bytes "a"), .putEdge 1 3 (bytes "b") .kSingle true 0, .publish 1, .pick 0,
      .writeEnd, .finish, .publish 0]
    (fun s => s.lastPut ⟨1, 2, true, 0⟩ ≠ none ∧
      (s.locateEdge ⟨1, 2, true, 0⟩).1 = .kNotFound ∧
      ¬ (s.scanSources smallStore 1).flatten.Perm (s.written smallStore 1))
    (by decide)

end Store

end RichGraph
