-- The watermark of a vertex. A compaction of level 0 writes it for every vertex
-- of its output, also for those that only the next level has. When that hides a
-- record, and when not; and runs in which nothing is hidden.
import RichGraph.Visible
import RichGraph.PointReads

namespace RichGraph

open Compaction

namespace Store

variable {o : Options} {s s' : Store} {v : Nat}

/-! ## A whole compaction of level 0 -/

/-- The writer's loop: output files until no record is left. -/
def writeFiles (o : Options) : Nat → Store → Store
  | 0, s => s
  | n + 1, s =>
    match writeEnd o s with
    | none => s
    | some s' => writeFiles o n s'

/-- `BackgroundCompaction` of level 0, with no other step in between. -/
def compactLevel0 (o : Options) (s : Store) : Option Store := do
  let s₁ ← pick o 0 s
  let j ← s₁.job
  finish (writeFiles o j.rest.length s₁)

/-- The records of the last output file, when the writer does not close it. -/
def lostAtEnd (o : Options) : Nat → List EdgeRecord → List EdgeRecord
  | 0, _ => []
  | n + 1, rest =>
    let out := takeFile o.maxEFileSize 0 0 none rest
    if out.2.isEmpty then
      if out.1.length % (o.bodyBufferSize - 1) = 0 then out.1 else []
    else lostAtEnd o n out.2

/-- How far the writer has come: of the vertices of the job `j₁`, those that no longer wait are
in the first slot and have the new watermark. -/
structure Written (s₁ : Store) (j₁ : Job) (t : Store) (j : Job) : Prop where
  tables : t.menTables = s₁.menTables
  level0 : t.level0 = s₁.level0
  inputs0 : j.inputs0 = j₁.inputs0
  inputs1 : j.inputs1 = j₁.inputs1
  level : j.level = 0
  fid : j.minLevel0Fid = j₁.minLevel0Fid
  pending : ∀ v, j.Pending v → j₁.Pending v
  same : ∀ v, j.Pending v ∨ ¬ j₁.Pending v → t.index v = s₁.index v ∧
    ∀ l < levelIndexSize, t.sliceAt v l = s₁.sliceAt v l
  done : ∀ v, j₁.Pending v → ¬ j.Pending v →
    (t.index v).minLevel0Fid = j₁.minLevel0Fid + 1 ∧
    (t.sliceAt v 0).Perm (j₁.inputs0.flatMap (·.recordsOf v) ++ s₁.sliceAt v 0) ∧
    ∀ l < levelIndexSize, l ≠ 0 → t.sliceAt v l = s₁.sliceAt v l

theorem written_refl {s₁ : Store} {j₁ : Job} (h0 : j₁.level = 0) : Written s₁ j₁ s₁ j₁ :=
  { tables := rfl, level0 := rfl, inputs0 := rfl, inputs1 := rfl, level := h0, fid := rfl
    pending := fun _ h => h, same := fun _ _ => ⟨rfl, fun _ _ => rfl⟩
    done := fun _ h h' => absurd h h' }

theorem written_installed {s₁ t : Store} {j₁ j : Job} {hr : j.rest ≠ []} (hwf : Wf t)
    (ht : t.currentTime < invalidFileId) (hj : t.job = some j) (h : Written s₁ j₁ t j) (fid : Nat) :
    Written s₁ j₁ (installed o j hr t) (j.next o fid) := by
  have hwf' : Wf (installed o j hr t) := wf_installed hwf ht hj
  have hpend : ∀ v, (j.next o fid).Pending v ↔ j.Pending v ∧ ¬ (j.outputFile o hr).Has v :=
    fun v => pending_next hr
  refine
    { tables := h.tables, level0 := h.level0, inputs0 := h.inputs0, inputs1 := h.inputs1
      level := h.level, fid := h.fid, pending := fun v hp => h.pending v ((hpend v).mp hp).1
      same := ?_, done := ?_ }
  · intro v hv
    have hnot : ¬ (j.outputFile o hr).Has v := by
      intro hf
      rcases hv with hp | hp
      · exact ((hpend v).mp hp).2 hf
      · exact hp (h.pending v (pending_of_outputFile hf))
    obtain ⟨hix, hsl⟩ := h.same v (hv.imp_left fun hp => ((hpend v).mp hp).1)
    refine ⟨(index_installed_of_not hnot).trans hix, fun l hl => ?_⟩
    rw [sliceAt_installed_of_not hwf hwf' hj hnot hl, hsl l hl]
  · intro v hp₁ hp
    by_cases hf : (j.outputFile o hr).Has v
    · -- The vertex is in this output file.
      obtain ⟨-, hsl⟩ := h.same v (Or.inl (pending_of_outputFile hf))
      obtain ⟨p, -, hix⟩ := index_installed_of_has (s := t) hf
      have hnext := sliceAt_installed_next hwf hwf' hj hf
      rw [h.level, h.inputs0, hsl 0 (by decide)] at hnext
      refine ⟨?_, hnext, fun l hl h0 => ?_⟩
      · rw [hix]
        simp only [MulLevelIndex.install, h.level, if_true, h.fid]
      · have hlev := h.level
        rw [sliceAt_installed_other hwf hwf' hj hf hl (by omega) (by omega), hsl l hl]
    · have hdone : ¬ j.Pending v := fun hp' => hp ((hpend v).mpr ⟨hp', hf⟩)
      obtain ⟨hmin, hfirst, hother⟩ := h.done v hp₁ hdone
      refine ⟨by rw [index_installed_of_not hf]; exact hmin, ?_, fun l hl h0 => ?_⟩
      · rw [sliceAt_installed_of_not hwf hwf' hj hf (by decide)]
        exact hfirst
      · rw [sliceAt_installed_of_not hwf hwf' hj hf hl, hother l hl h0]

theorem output_length_lt {j : Job} (hr : j.rest ≠ []) :
    (j.output o).2.length < j.rest.length := by
  have hne : (j.output o).1 ≠ [] := (j.outputFile o hr).nonempty
  have := congrArg List.length (j.output_append o)
  rw [List.length_append] at this
  have := List.length_pos_iff.mpr hne
  omega

theorem writeEnd_of_rest {j : Job} (hj : s.job = some j) (hr : j.rest = []) :
    writeEnd o s = none := by
  simp [writeEnd, hj, hr]

theorem writeFiles_of_rest {j : Job} (hj : s.job = some j) (hr : j.rest = []) (n : Nat) :
    writeFiles o n s = s := by
  cases n with
  | zero => rfl
  | succ n => simp [writeFiles, writeEnd_of_rest hj hr]

/-- The loop ends with every vertex written except those of a last file that is lost. -/
theorem writeFiles_spec {s₁ : Store} {j₁ : Job} (n : Nat) {t : Store} {j : Job} (hwf : Wf t)
    (hj : t.job = some j) (hn : j.rest.length ≤ n)
    (ht : t.currentTime + j.rest.length ≤ invalidFileId) (h : Written s₁ j₁ t j)
    (hlev : LevelsReached t) :
    ∃ t' j' j'', Wf t' ∧ LevelsReached t' ∧ t'.job = some j' ∧ Written s₁ j₁ t' j' ∧
      j'.rest = lostAtEnd o n j.rest ∧ j''.rest = [] ∧ j''.level = 0 ∧
      j''.inputs0 = j₁.inputs0 ∧ j''.inputs1 = j₁.inputs1 ∧
      writeFiles o n t = { t' with job := some j'' } := by
  induction n generalizing t j with
  | zero =>
    have hr : j.rest = [] := List.eq_nil_of_length_eq_zero (by omega)
    refine ⟨t, j, j, hwf, hlev, hj, h, hr, hr, h.level, h.inputs0, h.inputs1, ?_⟩
    rw [← hj]
    rfl
  | succ n ih =>
    by_cases hr : j.rest = []
    · refine ⟨t, j, j, hwf, hlev, hj, h, ?_, hr, h.level, h.inputs0, h.inputs1, ?_⟩
      · simp [lostAtEnd, hr, takeFile]
      · rw [writeFiles_of_rest hj hr, ← hj]
    have hlen := output_length_lt (o := o) hr
    have hpos := List.length_pos_iff.mpr hr
    by_cases hlost : j.lost o = true
    · -- The last file is dropped, and the loop stops.
      have hend : writeEnd o t = some { t with job := some (j.next o j.fid) } := by
        simp [writeEnd, hj, hr, hlost]
      have hlast : (j.output o).2 = [] := by
        simp only [Job.lost, Bool.and_eq_true] at hlost
        exact List.isEmpty_iff.mp hlost.1
      have hmod : (j.output o).1.length % (o.bodyBufferSize - 1) = 0 := by
        simp only [Job.lost, Bool.and_eq_true, beq_iff_eq] at hlost
        exact hlost.2
      have hrest : (j.next o j.fid).rest = [] := hlast
      refine ⟨t, j, j.next o j.fid, hwf, hlev, hj, h, ?_, hrest, h.level, h.inputs0, h.inputs1, ?_⟩
      · have happ := j.output_append o
        rw [hlast, List.append_nil] at happ
        have h1 : (takeFile o.maxEFileSize 0 0 none j.rest).2 = [] := hlast
        have h2 : (takeFile o.maxEFileSize 0 0 none j.rest).1.length % (o.bodyBufferSize - 1) = 0 :=
          hmod
        simp only [lostAtEnd, h1, List.isEmpty_nil, if_true, h2]
        exact happ.symm
      · simp only [writeFiles, hend]
        exact writeFiles_of_rest rfl hrest n
    · have hend : writeEnd o t = some (installed o j hr t) := by
        unfold writeEnd
        simp only [hj]
        rw [dif_neg hr, if_neg hlost]
      have ht' : t.currentTime < invalidFileId := by omega
      have hwf' : Wf (installed o j hr t) := wf_installed hwf ht' hj
      obtain ⟨fid, hjob⟩ := job_installed o j hr t
      have htime : (installed o j hr t).currentTime + (j.next o fid).rest.length ≤
          invalidFileId := by
        have h1 : (j.next o fid).rest = (j.output o).2 := rfl
        rw [h1]
        simp only [installed]
        split <;> omega
      have hlen' : (j.next o fid).rest.length ≤ n := by
        have h1 : (j.next o fid).rest = (j.output o).2 := rfl
        rw [h1]
        omega
      obtain ⟨t', j', j'', hw, hlev', hj', hwr, hrest, hr'', hl'', h0'', h1'', heq⟩ :=
        ih hwf' hjob hlen' htime (written_installed hwf ht' hj h fid)
          (levelsReached_installed hj hlev)
      refine ⟨t', j', j'', hw, hlev', hj', hwr, ?_, hr'', hl'', h0'', h1'', ?_⟩
      · rw [hrest]
        have hnext : (j.next o fid).rest = (takeFile o.maxEFileSize 0 0 none j.rest).2 := rfl
        rw [hnext]
        simp only [lostAtEnd]
        split
        · rename_i hemp
          have hnil := List.isEmpty_iff.mp hemp
          rw [hnil]
          have hmod : ¬ (takeFile o.maxEFileSize 0 0 none j.rest).1.length %
              (o.bodyBufferSize - 1) = 0 := by
            intro hmod
            apply hlost
            simp only [Job.lost, Bool.and_eq_true, beq_iff_eq]
            exact ⟨hemp, hmod⟩
          rw [if_neg hmod]
          cases n <;> simp [lostAtEnd, takeFile]
        · rfl
      · simp only [writeFiles, hend]
        exact heq

/-! ### The end -/

/-- The state after the inputs of a job at level 0 have been released. -/
def released (inputs0 inputs1 : List SSTable) (t : Store) : Store :=
  { t with
    level0 := removeCache inputs0 t.level0
    sstData := fun i =>
      if ((inputs0 ++ inputs1).map SSTable.timeStamp).contains i then none else t.sstData i
    job := none }

section released

variable {t : Store} {j : Job}

theorem released_data (hwf : Wf t) (hj : t.job = some j) (h0 : j.level = 0) {l : Nat}
    (hl : l < levelIndexSize) {f : SSTable} (hf : f ∈ t.levels (l + 1)) :
    (released j.inputs0 j.inputs1 t).sstData f.timeStamp = t.sstData f.timeStamp := by
  have hnot : ((j.inputs0 ++ j.inputs1).map SSTable.timeStamp).contains f.timeStamp = false := by
    rw [Bool.eq_false_iff, ne_eq, List.contains_iff_mem]
    intro hin
    obtain ⟨g, hg, he⟩ := List.mem_map.mp hin
    have hflat := (levels_sublist (s := t) (mem_diskLevels hl)).mem hf
    rcases List.mem_append.mp hg with hg | hg
    · exact timeStamp_ne_of_level0 hwf (((hwf.job j hj).inputs0_level0 h0).mem hg) (Or.inl hflat) he
    · exact timeStamp_ne_of_levels hwf (mem_diskLevels hl) hf (mem_retired_inputs1 hj hg) he.symm
  simp only [released, hnot, Bool.false_eq_true, if_false]

theorem sliceAt_released_of_has (hwf : Wf t) (hj : t.job = some j) (h0 : j.level = 0) {l : Nat}
    (hl : l < levelIndexSize) {f : SSTable} (hf : f ∈ t.levels (l + 1)) (hv : f.Has v) :
    (released j.inputs0 j.inputs1 t).sliceAt v l = t.sliceAt v l := by
  obtain ⟨p, -, he⟩ := (hwf.index v l hl).points f (List.mem_append_left _ hf) hv
  have hdata := released_data hwf hj h0 hl hf
  have hix : (released j.inputs0 j.inputs1 t).index = t.index := rfl
  simp only [sliceAt, hix, he, hdata]

/-- A slot that is left without a file of its level points at a released file, or nowhere. -/
theorem sliceAt_released_of_none (hwf : Wf t) (hj : t.job = some j) (h0 : j.level = 0) {l : Nat}
    (hl : l < levelIndexSize) (hnone : ∀ f ∈ t.levels (l + 1), ¬ f.Has v) :
    (released j.inputs0 j.inputs1 t).sliceAt v l = [] := by
  have hix : (released j.inputs0 j.inputs1 t).index = t.index := rfl
  unfold sliceAt
  rw [hix]
  by_cases he : ((t.index v).levels l).fileID = invalidFileId
  · simp [he]
  obtain ⟨f, hf, hv⟩ := (hwf.index v l hl).backed he
  obtain ⟨p, -, hentry⟩ := (hwf.index v l hl).points f hf hv
  have hin : f ∈ j.inputs1 := by
    unfold filesFor at hf
    rcases List.mem_append.mp hf with hf | hf
    · exact absurd hv (hnone f hf)
    · simp only [hj] at hf
      split at hf
      · unfold Job.retiredAt at hf
        split at hf
        · exact hf
        · rw [if_neg (by omega)] at hf
          cases hf
      · cases hf
  have hgone : (released j.inputs0 j.inputs1 t).sstData f.timeStamp = none := by
    have : ((j.inputs0 ++ j.inputs1).map SSTable.timeStamp).contains f.timeStamp = true := by
      rw [List.contains_iff_mem]
      exact List.mem_map_of_mem (List.mem_append_right _ hin)
    simp only [released, this, if_true]
  simp [hentry, hgone]

theorem sliceAt_released_done (hwf : Wf t) (hj : t.job = some j) (h0 : j.level = 0)
    {l : Nat} (hl : l < levelIndexSize) (h : ¬ j.Pending v ∨ l ≠ 0) :
    (released j.inputs0 j.inputs1 t).sliceAt v l = t.sliceAt v l := by
  have hfor : ∀ f, f ∈ t.filesFor v l → f ∈ t.levels (l + 1) := by
    intro f hf
    by_cases hp : j.Pending v
    · rw [filesFor_pending hj hp] at hf
      have hl0 := h.resolve_left (not_not_intro hp)
      simpa [Job.retiredAt, h0, hl0] using hf
    · rwa [filesFor_done hj hp] at hf
  by_cases hex : ∃ f ∈ t.levels (l + 1), f.Has v
  · obtain ⟨f, hf, hv⟩ := hex
    exact sliceAt_released_of_has hwf hj h0 hl hf hv
  · rw [sliceAt_released_of_none hwf hj h0 hl fun f hf hv => hex ⟨f, hf, hv⟩,
      sliceAt_of_none hwf hl fun f hf hv => hex ⟨f, hfor f hf, hv⟩]

theorem sliceAt_released_lost (hwf : Wf t) (hj : t.job = some j) (h0 : j.level = 0)
    (hp : j.Pending v) : (released j.inputs0 j.inputs1 t).sliceAt v 0 = [] := by
  apply sliceAt_released_of_none hwf hj h0 (by decide)
  have := (hwf.job j hj).next_free v hp
  rwa [h0] at this

end released

/-- The whole compaction: the state `s₁` and job `j₁` with which it starts to merge, and the
state `t` and job `j` before its end. -/
structure Compacted (o : Options) (s : Store) (sel : Selection) (s₁ t : Store) (j₁ j : Job) :
    Prop where
  selected : Selected 0 s.level0 (s.levels 1) sel
  wf : Wf t
  levels : LevelsReached t
  job : t.job = some j
  written : Written s₁ j₁ t j
  rest₁ : j₁.rest = mergeInputs 0 sel.inputs0 sel.inputs1
  inputs0 : j₁.inputs0 = sel.inputs0
  inputs1 : j₁.inputs1 = sel.inputs1
  fid : j₁.minLevel0Fid = maxInputFid sel.inputs0
  rest : j.rest = lostAtEnd o (mergeInputs 0 sel.inputs0 sel.inputs1).length
    (mergeInputs 0 sel.inputs0 sel.inputs1)
  tables : s₁.menTables = s.menTables
  level0 : s₁.level0 = s.level0
  index : s₁.index = s.index
  slices : ∀ v, ∀ l < levelIndexSize, s₁.sliceAt v l = s.sliceAt v l

theorem compactLevel0_spec {s₁ : Store} {sel : Selection} (hwf : Wf s) (hlev : LevelsReached s)
    (hpick : pick o 0 s = some s₁)
    (hsel : pickCompactioFile 0 true s.level0 (s.levels 1) (s.compactPointer 0) = some sel)
    (ht : s.currentTime + (mergeInputs 0 sel.inputs0 sel.inputs1).length < invalidFileId) :
    ∃ t j₁ j, compactLevel0 o s = some (released sel.inputs0 sel.inputs1 t) ∧
      Compacted o s sel s₁ t j₁ j := by
  obtain ⟨hj, hl, -, sel', hsel', hselected, ⟨hne, -, -⟩ | ⟨hm, rfl⟩⟩ := pick_cases hpick
  · exact absurd rfl hne
  have heq : sel' = sel := Option.some.inj (hsel'.symm.trans hsel)
  subst heq
  have hwf₁ : Wf (started 0 sel' hm s) := wf_started hwf (by omega) hj hl hselected
  obtain ⟨t, j, j'', hwft, hlevt, hjt, hwr, hrest, hr'', hl'', h0'', h1'', hwrite⟩ :=
    writeFiles_spec (o := o) (mergeInputs 0 sel'.inputs0 sel'.inputs1).length hwf₁
      (j := _) rfl (Nat.le_refl _) (by simp only [started]; omega) (written_refl rfl)
      (levelsReached_pick hlev hpick)
  refine ⟨t, _, j, ?_,
    { selected := hselected, wf := hwft, levels := hlevt, job := hjt, written := hwr, rest₁ := rfl
      inputs0 := rfl, inputs1 := rfl, fid := rfl, rest := hrest, tables := rfl, level0 := rfl
      index := rfl
      slices := fun v l hls => sliceAt_started hm hwf (by omega) hj hl hselected hls }⟩
  have hfinish : finish { t with job := some j'' } =
      some (released sel'.inputs0 sel'.inputs1 t) := by
    have h0 : j''.inputs0 = sel'.inputs0 := h0''
    have h1 : j''.inputs1 = sel'.inputs1 := h1''
    simp only [finish, finished, hr'', if_true, hl'', h0, h1, released]
  unfold compactLevel0
  rw [hpick]
  simp only [Option.bind_eq_bind, Option.bind_some]
  rw [← hfinish, ← hwrite]
  rfl

/-! ### What the watermark hides -/

/-- Of two tests of which one is stronger, the files that pass give the same records of a vertex
just when no file of the vertex passes only one of them. -/
theorem flatMap_filter_perm_iff {files : List SSTable} {p q : SSTable → Bool}
    (hpq : ∀ f ∈ files, p f = true → q f = true) :
    ((files.filter p).flatMap (·.recordsOf v)).Perm ((files.filter q).flatMap (·.recordsOf v)) ↔
      ∀ f ∈ files, f.Has v → (p f = true ↔ q f = true) := by
  have hsplit : (files.filter q).Perm
      (files.filter p ++ (files.filter q).filter fun f => !p f) := by
    have hp : (files.filter q).filter p = files.filter p := by
      rw [List.filter_filter]
      apply List.filter_congr
      intro f hf
      cases hpf : p f with
      | true => simp [hpq f hf hpf]
      | false => rfl
    rw [← hp]
    exact (List.filter_append_perm p (files.filter q)).symm
  have hperm := hsplit.flatMap_right (·.recordsOf v)
  rw [List.flatMap_append] at hperm
  constructor
  · intro h f hf hv
    refine ⟨hpq f hf, fun hq => ?_⟩
    -- The records of a file that passes only the weaker test would be too many.
    have hnil : ((files.filter q).filter fun f => !p f).flatMap (·.recordsOf v) = [] := by
      have hlen := (h.trans hperm).length_eq
      rw [List.length_append] at hlen
      exact List.eq_nil_of_length_eq_zero (by omega)
    by_contra hp
    have hmem : f ∈ (files.filter q).filter fun f => !p f :=
      List.mem_filter.mpr ⟨List.mem_filter.mpr ⟨hf, hq⟩, by simpa using hp⟩
    obtain ⟨r, hr, hrv⟩ := hv
    have := (List.flatMap_eq_nil_iff.mp hnil) f hmem
    exact List.not_mem_nil (this ▸ SSTable.mem_recordsOf.mpr ⟨hr, hrv⟩)
  · intro h
    have hnil : ((files.filter q).filter fun f => !p f).flatMap (·.recordsOf v) = [] := by
      apply flatMap_recordsOf_eq_nil
      intro f hf hv
      obtain ⟨hfq, hp⟩ := List.mem_filter.mp hf
      obtain ⟨hf, hq⟩ := List.mem_filter.mp hfq
      rw [(h f hf hv).mpr hq] at hp
      cases hp
    rw [hnil, List.append_nil] at hperm
    exact hperm.symm

/-- Two watermarks show the same records of a vertex just when every file of the vertex is on the
same side of both. -/
theorem shown_perm_iff {files : List SSTable} (a b : Nat) :
    ((files.filter fun f => a ≤ f.timeStamp).flatMap (·.recordsOf v)).Perm
        ((files.filter fun f => b ≤ f.timeStamp).flatMap (·.recordsOf v)) ↔
      ∀ f ∈ files, f.Has v → (a ≤ f.timeStamp ↔ b ≤ f.timeStamp) := by
  rcases Nat.le_total a b with hab | hab
  · rw [List.perm_comm, flatMap_filter_perm_iff (fun f _ h => by simp at h ⊢; omega)]
    simp only [decide_eq_true_eq]
    exact forall₂_congr fun f _ => imp_congr_right fun _ => Iff.comm
  · rw [flatMap_filter_perm_iff (fun f _ h => by simp at h ⊢; omega)]
    simp only [decide_eq_true_eq]

/-- When a compaction of level 0 keeps what is visible of a vertex, by the layout before it. -/
def KeepsVisible (o : Options) (s : Store) (sel : Selection) (v : Nat) : Prop :=
  if ∃ r ∈ lostAtEnd o (mergeInputs 0 sel.inputs0 sel.inputs1).length
      (mergeInputs 0 sel.inputs0 sel.inputs1), r.src = v then
    -- The output of the vertex is lost, so its inputs have to show nothing.
    s.sliceAt v 0 = [] ∧ ∀ f ∈ sel.inputs0, f.Has v → f.timeStamp < (s.index v).minLevel0Fid
  else (∃ f ∈ sel.inputs0 ++ sel.inputs1, f.Has v) →
    -- The inputs of the vertex are shown, and the other files of the vertex are on the same side
    -- of the new watermark as of the old one.
    (∀ f ∈ sel.inputs0, f.Has v → (s.index v).minLevel0Fid ≤ f.timeStamp) ∧
      ∀ f ∈ removeCache sel.inputs0 s.level0, f.Has v →
        ((s.index v).minLevel0Fid ≤ f.timeStamp ↔ maxInputFid sel.inputs0 < f.timeStamp)

theorem slots_split (g : Nat → List EdgeRecord) :
    (List.range levelIndexSize).flatMap g = g 0 ++ [1, 2, 3].flatMap g := by
  simp [levelIndexSize, maxLevel, List.range_succ]

/-- What is visible, with level 0 parted into inputs and other files. -/
theorem visible_perm {inputs0 : List SSTable} (hwf : Wf s) (hsub : inputs0.Sublist s.level0) :
    (s.visible o v).Perm (s.menTables.flatMap (MemTable.recordsOf o.propertyLengths v) ++
      ((((removeCache inputs0 s.level0).filter fun f =>
        (s.index v).minLevel0Fid ≤ f.timeStamp).flatMap
          (·.recordsOf v) ++
        (inputs0.filter fun f => (s.index v).minLevel0Fid ≤ f.timeStamp).flatMap (·.recordsOf v)) ++
        (s.sliceAt v 0 ++ [1, 2, 3].flatMap (s.sliceAt v)))) := by
  unfold visible
  rw [slots_split]
  refine List.Perm.append_left _ (List.Perm.append_right _ ?_)
  have hparts := (perm_removeCache hsub (level0_nodup hwf)).filter
    fun f => decide ((s.index v).minLevel0Fid ≤ f.timeStamp)
  have := hparts.flatMap_right (·.recordsOf v)
  rwa [List.filter_append, List.flatMap_append] at this

/-- Parts that are the same before and after do not matter. -/
theorem perm_parts_iff {T A B S D A' S' : List EdgeRecord} :
    (T ++ (A' ++ (S' ++ D))).Perm (T ++ ((A ++ B) ++ (S ++ D))) ↔
      (A' ++ S').Perm (A ++ (B ++ S)) := by
  rw [List.perm_append_left_iff, ← List.append_assoc, ← List.append_assoc (A ++ B),
    List.perm_append_right_iff, List.append_assoc]

theorem flatMap_filter_eq_nil_iff {files : List SSTable} {p : SSTable → Bool} :
    (files.filter p).flatMap (·.recordsOf v) = [] ↔ ∀ f ∈ files, f.Has v → p f = false := by
  constructor
  · intro h f hf hv
    by_contra hp
    have hmem : f ∈ files.filter p := List.mem_filter.mpr ⟨hf, by simpa using hp⟩
    obtain ⟨r, hr, hrv⟩ := hv
    have := (List.flatMap_eq_nil_iff.mp h) f hmem
    exact List.not_mem_nil (this ▸ SSTable.mem_recordsOf.mpr ⟨hr, hrv⟩)
  · intro h
    apply flatMap_recordsOf_eq_nil
    intro f hf hv
    obtain ⟨hf, hp⟩ := List.mem_filter.mp hf
    rw [h f hf hv] at hp
    cases hp

/-- The records of the inputs replace what the inputs showed. -/
theorem merged_perm_iff {inputs0 : List SSTable} {S : List EdgeRecord} {a b : Nat}
    (hclosed : ∀ f ∈ s.level0, ∀ g ∈ inputs0, Share f g → f ∈ inputs0) :
    (((removeCache inputs0 s.level0).filter fun f => b ≤ f.timeStamp).flatMap (·.recordsOf v) ++
        (inputs0.flatMap (·.recordsOf v) ++ S)).Perm
      (((removeCache inputs0 s.level0).filter fun f => a ≤ f.timeStamp).flatMap (·.recordsOf v) ++
        ((inputs0.filter fun f => a ≤ f.timeStamp).flatMap (·.recordsOf v) ++ S)) ↔
    (∀ f ∈ inputs0, f.Has v → a ≤ f.timeStamp) ∧
      ∀ f ∈ removeCache inputs0 s.level0, f.Has v → (a ≤ f.timeStamp ↔ b ≤ f.timeStamp) := by
  by_cases hin : ∃ g ∈ inputs0, g.Has v
  · -- Then no file outside the selection has the vertex.
    obtain ⟨g, hg, hgv⟩ := hin
    have hout : ∀ f ∈ removeCache inputs0 s.level0, ¬ f.Has v := by
      intro f hf hfv
      obtain ⟨r, hr, hrv⟩ := hfv
      obtain ⟨r', hr', hrv'⟩ := hgv
      obtain ⟨hf0, hne⟩ := mem_removeCache.mp hf
      exact hne f (hclosed f hf0 g hg ⟨r, hr, r', hr', hrv.trans hrv'.symm⟩) rfl
    have hnil : ∀ c : Nat, ((removeCache inputs0 s.level0).filter
        fun f => c ≤ f.timeStamp).flatMap (·.recordsOf v) = [] :=
      fun c => flatMap_recordsOf_eq_nil fun f hf => hout f (List.mem_of_mem_filter hf)
    rw [hnil, hnil, List.nil_append, List.nil_append, List.perm_append_right_iff, List.perm_comm]
    have hall : inputs0.flatMap (·.recordsOf v) =
        (inputs0.filter fun _ => true).flatMap (·.recordsOf v) := by
      rw [List.filter_true]
    rw [hall, flatMap_filter_perm_iff fun _ _ _ => rfl]
    constructor
    · exact fun h => ⟨fun f hf hv => by simpa using h f hf hv, fun f hf hv => absurd hv (hout f hf)⟩
    · rintro ⟨h, -⟩ f hf hv
      simpa using h f hf hv
  · have hnot : ∀ f ∈ inputs0, ¬ f.Has v := fun f hf hv => hin ⟨f, hf, hv⟩
    rw [flatMap_recordsOf_eq_nil hnot, flatMap_recordsOf_eq_nil fun f hf =>
      hnot f (List.mem_of_mem_filter hf), List.nil_append, List.perm_append_right_iff,
        shown_perm_iff]
    constructor
    · exact fun h => ⟨fun f hf hv => absurd hv (hnot f hf), fun f hf hv => (h f hf hv).symm⟩
    · rintro ⟨-, h⟩ f hf hv
      exact (h f hf hv).symm

section compacted

variable {sel : Selection} {s₁ t : Store} {j₁ j : Job}

theorem Compacted.inputs (h : Compacted o s sel s₁ t j₁ j) :
    j.inputs0 = sel.inputs0 ∧ j.inputs1 = sel.inputs1 :=
  ⟨h.written.inputs0.trans h.inputs0, h.written.inputs1.trans h.inputs1⟩

/-- The slots below the first are not touched. -/
theorem Compacted.deep (h : Compacted o s sel s₁ t j₁ j) {l : Nat} (hl : l < levelIndexSize)
    (h0 : l ≠ 0) : (released sel.inputs0 sel.inputs1 t).sliceAt v l = s.sliceAt v l := by
  have hrel := sliceAt_released_done (v := v) h.wf h.job h.written.level hl (Or.inr h0)
  rw [h.inputs.1, h.inputs.2] at hrel
  rw [hrel, ← h.slices v l hl]
  by_cases hp : j.Pending v ∨ ¬ j₁.Pending v
  · exact (h.written.same v hp).2 l hl
  · push Not at hp
    exact (h.written.done v hp.2 hp.1).2.2 l hl h0

/-- What is visible afterwards, in the parts of `visible_perm`. -/
theorem Compacted.visible (h : Compacted o s sel s₁ t j₁ j) :
    (released sel.inputs0 sel.inputs1 t).visible o v =
      s.menTables.flatMap (MemTable.recordsOf o.propertyLengths v) ++
        (((removeCache sel.inputs0 s.level0).filter
            fun f => (t.index v).minLevel0Fid ≤ f.timeStamp).flatMap (·.recordsOf v) ++
          ((released sel.inputs0 sel.inputs1 t).sliceAt v 0 ++
            [1, 2, 3].flatMap (s.sliceAt v))) := by
  have hdeep : [1, 2, 3].flatMap ((released sel.inputs0 sel.inputs1 t).sliceAt v) =
      [1, 2, 3].flatMap (s.sliceAt v) := by
    apply List.flatMap_congr
    intro l hl
    simp only [List.mem_cons, List.not_mem_nil, or_false] at hl
    exact h.deep (by simp only [levelIndexSize, maxLevel]; omega) (by omega)
  have htabs : (released sel.inputs0 sel.inputs1 t).menTables = s.menTables :=
    h.written.tables.trans h.tables
  have hl0 : (released sel.inputs0 sel.inputs1 t).level0 = removeCache sel.inputs0 s.level0 := by
    simp only [released, h.written.level0, h.level0]
  have hidx : (released sel.inputs0 sel.inputs1 t).index v = t.index v := rfl
  unfold Store.visible
  rw [slots_split, hdeep, htabs, shown0, hl0, hidx]

theorem Compacted.pending_iff (h : Compacted o s sel s₁ t j₁ j) :
    (j.Pending v ↔ ∃ r ∈ lostAtEnd o (mergeInputs 0 sel.inputs0 sel.inputs1).length
      (mergeInputs 0 sel.inputs0 sel.inputs1), r.src = v) ∧
    (j₁.Pending v ↔ ∃ f ∈ sel.inputs0 ++ sel.inputs1, f.Has v) := by
  unfold Job.Pending
  rw [h.rest, h.rest₁]
  exact ⟨Iff.rfl, exists_input_of_pending, fun ⟨f, hf, hv⟩ => started_pending hf hv⟩

theorem Compacted.visible_perm_iff (hwf : Wf s) (h : Compacted o s sel s₁ t j₁ j) :
    ((released sel.inputs0 sel.inputs1 t).visible o v).Perm (s.visible o v) ↔
      KeepsVisible o s sel v := by
  rw [h.visible, (visible_perm hwf h.selected.sub0).congr_right, perm_parts_iff]
  obtain ⟨hpend, hpend₁⟩ := h.pending_iff (v := v)
  have hfirst : s.sliceAt v 0 = s₁.sliceAt v 0 := (h.slices v 0 (by decide)).symm
  unfold KeepsVisible
  by_cases hp : j.Pending v
  · -- The output is lost, and the index still points at a released input.
    have hlost := sliceAt_released_lost h.wf h.job h.written.level hp
    rw [h.inputs.1, h.inputs.2] at hlost
    rw [if_pos (hpend.mp hp), hlost, (h.written.same v (Or.inl hp)).1, h.index, List.append_nil]
    constructor
    · intro hperm
      have hlen := hperm.length_eq
      rw [List.length_append] at hlen
      have hnil := List.eq_nil_of_length_eq_zero (Nat.left_eq_add.mp hlen)
      obtain ⟨hB, hS⟩ := List.append_eq_nil_iff.mp hnil
      refine ⟨hS, fun f hf hv => ?_⟩
      simpa using flatMap_filter_eq_nil_iff.mp hB f hf hv
    · rintro ⟨hS, hB⟩
      have hnil : (sel.inputs0.filter fun f => (s.index v).minLevel0Fid ≤ f.timeStamp).flatMap
          (·.recordsOf v) = [] :=
        flatMap_filter_eq_nil_iff.mpr fun f hf hv => by simpa using hB f hf hv
      rw [hS, hnil, List.append_nil, List.append_nil]
  · have hrel := sliceAt_released_done (v := v) (l := 0) h.wf h.job h.written.level (by decide)
      (Or.inl hp)
    rw [h.inputs.1, h.inputs.2] at hrel
    rw [if_neg fun hl => hp (hpend.mpr hl), hrel]
    by_cases hp₁ : j₁.Pending v
    · obtain ⟨hmin, hperm, -⟩ := h.written.done v hp₁ hp
      rw [(hperm.append_left _).congr_left, hmin, h.fid, h.inputs0, ← hfirst,
        merged_perm_iff fun f hf g hg => h.selected.closed0 rfl f hf g hg]
      exact ⟨fun hk _ => hk, fun hk => hk (hpend₁.mp hp₁)⟩
    · obtain ⟨hix, hsl⟩ := h.written.same v (Or.inr hp₁)
      have hnone : ∀ f ∈ sel.inputs0, ¬ f.Has v := fun f hf hv =>
        hp₁ (hpend₁.mpr ⟨f, List.mem_append_left _ hf, hv⟩)
      rw [hsl 0 (by decide), ← hfirst, hix, h.index,
        flatMap_recordsOf_eq_nil fun f hf => hnone f (List.mem_of_mem_filter hf), List.nil_append]
      exact ⟨fun _ hk => absurd (hpend₁.mpr hk) hp₁, fun _ => List.Perm.refl _⟩

end compacted

/-- A compaction of level 0 runs to its end, and a vertex keeps what scans and `LocateEdge` see of
it just when the layout before it says so. -/
theorem level0_compaction_keeps_a_vertex_visible_iff {o : Options} {s s₁ : Store} {sel : Selection}
    (hwf : Wf s) (hlev : LevelsReached s) (hpick : pick o 0 s = some s₁)
    (hsel : pickCompactioFile 0 true s.level0 (s.levels 1) (s.compactPointer 0) = some sel)
    (ht : s.currentTime + (mergeInputs 0 sel.inputs0 sel.inputs1).length < invalidFileId) :
    ∃ s', compactLevel0 o s = some s' ∧ ∀ v,
      ((s'.scanSources o v).flatten.Perm (s.scanSources o v).flatten ∧
        (s'.visible o v).Perm (s.visible o v)) ↔ KeepsVisible o s sel v := by
  obtain ⟨t, j₁, j, hrun, h⟩ := compactLevel0_spec hwf hlev hpick hsel ht
  refine ⟨_, hrun, fun v => ?_⟩
  have hend : LevelsReached (released sel.inputs0 sel.inputs1 t) :=
    ⟨h.levels.le_max, h.levels.tables,
      fun f hf v hv => h.levels.level0 f (mem_removeCache.mp hf).1 v hv, h.levels.slots,
      fun _ hj => by cases hj⟩
  rw [scanSources_flatten hlev, scanSources_flatten hend, and_self]
  exact h.visible_perm_iff hwf

/-- A store in which two edges fill a memtable. -/
def pairStore : Options := { smallStore with maxEdgeNum := 2, maxEdgeNum_pos := by decide }

/-- A put of one edge of a source. -/
def putFrom (src : Nat) : Action := .putEdge src 1 (bytes "p") .kSingle true 0

/-- Level 1 has the files of `2, 8` and `9, 10`, and level 0 those of `8, 9` and then `1, 2`. -/
def crossingLayout : List Action :=
  [putFrom 2, putFrom 8, putFrom 9, putFrom 10, .publish 0, .publish 1, .pick 0, .writeEnd, .finish,
    .pick 0, .writeEnd, .finish, putFrom 8, putFrom 9, putFrom 1, putFrom 2, .publish 2, .publish 5]

theorem level0_compaction_of_the_crossing_layout :
    ∃ s s₁ sel, (Wf s ∧ LevelsReached s ∧ pick pairStore 0 s = some s₁ ∧
        pickCompactioFile 0 true s.level0 (s.levels 1) (s.compactPointer 0) = some sel ∧
        s.currentTime + (mergeInputs 0 sel.inputs0 sel.inputs1).length < invalidFileId) ∧
      ∃ s', compactLevel0 pairStore s = some s' ∧ ∀ v,
        ((s'.scanSources pairStore v).flatten.Perm (s.scanSources pairStore v).flatten ∧
          (s'.visible pairStore v).Perm (s.visible pairStore v)) ↔
            KeepsVisible pairStore s sel v := by
  obtain ⟨s, hs, hp, hany⟩ := Lib.exists_reach_of_run (step pairStore) (NoLoss pairStore)
    (initial pairStore) crossingLayout
    (fun s => (pick pairStore 0 s).isSome = true ∧
      (pickCompactioFile 0 true s.level0 (s.levels 1) (s.compactPointer 0)).any (fun sel =>
        s.currentTime + (mergeInputs 0 sel.inputs0 sel.inputs1).length < invalidFileId) = true)
    (by decide)
  have hwf := wf_of_reach hs
  have hlev := levelsReached_of_reach hs
  obtain ⟨s₁, hs₁⟩ := Option.isSome_iff_exists.mp hp
  obtain ⟨sel, hsel, ht⟩ := Option.any_eq_true .. |>.mp hany
  have ht := of_decide_eq_true ht
  exact ⟨s, s₁, sel, ⟨hwf, hlev, hs₁, hsel, ht⟩,
    level0_compaction_keeps_a_vertex_visible_iff hwf hlev hs₁ hsel ht⟩

/-- The compaction of `1, 2` in level 0 with `2, 8` in level 1 does not take the file of `8, 9`
along, but hides it for vertex 8. -/
theorem level0_compaction_hides_an_unmerged_file :
    ∃ s, Lib.Reach (step pairStore) (NoLoss pairStore) (initial pairStore) s ∧
      (compactLevel0 pairStore s).any (fun s' =>
        ¬ (s'.scanSources pairStore 8).flatten.Perm (s.scanSources pairStore 8).flatten) = true :=
  Lib.exists_reach_of_run (step pairStore) (NoLoss pairStore) (initial pairStore) crossingLayout
    (fun s => (compactLevel0 pairStore s).any (fun s' =>
      ¬ (s'.scanSources pairStore 8).flatten.Perm (s.scanSources pairStore 8).flatten) = true)
    (by decide)

end Store

end RichGraph
