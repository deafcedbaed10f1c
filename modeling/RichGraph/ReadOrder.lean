-- Which of two places has the newer records of a key: memtables before level 0,
-- level 0 by file id, level 0 before the slots, and the slots in order. A read
-- that stops at the first hit depends on it.
import RichGraph.Contents
import RichGraph.Lib.NewestFirst

namespace RichGraph

open Compaction

/-- No record of `k` in the second list is newer than one in the first. -/
abbrev NewerFor (k : EdgeKey) (es es' : List EdgeRecord) : Prop :=
  Lib.Newer EdgeRecord.key EdgeRecord.seq es es' k

abbrev HoldsKey (k : EdgeKey) (es : List EdgeRecord) : Prop := Lib.Holds EdgeRecord.key es k

namespace Store

variable {o : Options} {s s' : Store} {k : EdgeKey}

/-- The files of level 0 that the running compaction merges. -/
def picked0 (s : Store) : List SSTable :=
  match s.job with
  | none => []
  | some j => if j.level = 0 then j.inputs0 else []

theorem mem_picked0 {f : SSTable} :
    f ∈ s.picked0 ↔ ∃ j, s.job = some j ∧ j.level = 0 ∧ f ∈ j.inputs0 := by
  unfold picked0
  cases s.job with
  | none => simp
  | some j => by_cases h : j.level = 0 <;> simp [h]

theorem picked0_level0 (hwf : Wf s) {f : SSTable} (h : f ∈ s.picked0) : f ∈ s.level0 := by
  obtain ⟨j, hj, h0, hf⟩ := mem_picked0.mp h
  exact ((hwf.job j hj).inputs0_level0 h0).mem hf

/-! ## The order on disk -/

/-- The order of the places on disk for one key. -/
structure FilesOrder (s : Store) (k : EdgeKey) : Prop where
  /-- in level 0 the larger id is newer -/
  level0 : ∀ f ∈ s.level0, ∀ g ∈ s.level0, g.timeStamp < f.timeStamp →
    NewerFor k (f.recordsOf k.src) (g.recordsOf k.src)
  /-- files that stay in level 0 are newer than files that are being merged -/
  outside_picked : ∀ f ∈ s.level0, f ∉ s.picked0 → ∀ g ∈ s.picked0,
    NewerFor k (f.recordsOf k.src) (g.recordsOf k.src)
  outside_slots : ∀ f ∈ s.level0, f ∉ s.picked0 → ∀ l < levelIndexSize,
    NewerFor k (f.recordsOf k.src) (s.sliceAt k.src l)
  /-- before the merge comes to the vertex, its inputs are newer than the slots -/
  picked_slots : ∀ j, s.job = some j → j.Pending k.src → ∀ f ∈ s.picked0, ∀ l < levelIndexSize,
    NewerFor k (f.recordsOf k.src) (s.sliceAt k.src l)
  /-- afterwards the first slot has their records, and nothing newer -/
  picked_covers : ∀ l < levelIndexSize, HoldsKey k (s.picked0.flatMap (·.recordsOf k.src)) →
    Lib.Covers EdgeRecord.key EdgeRecord.seq (s.picked0.flatMap (·.recordsOf k.src))
      (s.sliceAt k.src l) k
  slots : Lib.Layered EdgeRecord.key EdgeRecord.seq levelIndexSize (s.sliceAt k.src) k

/-- The slots and the inputs of the merge stay: what is left is about the files of level 0. -/
theorem FilesOrder.of_slices (h : FilesOrder s k) (hpick : s'.picked0 = s.picked0)
    (hslice : ∀ l < levelIndexSize, s'.sliceAt k.src l = s.sliceAt k.src l)
    (hjob : ∀ j', s'.job = some j' → j'.Pending k.src → ∃ j, s.job = some j ∧ j.Pending k.src)
    (h0 : ∀ f ∈ s'.level0, ∀ g ∈ s'.level0, g.timeStamp < f.timeStamp →
      NewerFor k (f.recordsOf k.src) (g.recordsOf k.src))
    (houtside : ∀ f ∈ s'.level0, f ∉ s.picked0 →
      (∀ g ∈ s.picked0, NewerFor k (f.recordsOf k.src) (g.recordsOf k.src)) ∧
      ∀ l < levelIndexSize, NewerFor k (f.recordsOf k.src) (s.sliceAt k.src l)) :
    FilesOrder s' k := by
  rw [← hpick] at houtside
  refine
    { level0 := h0, outside_picked := fun f hf hnot => (houtside f hf hnot).1
      outside_slots := ?_, picked_slots := ?_, picked_covers := ?_, slots := ?_ }
  · intro f hf hnot l hls
    rw [hslice l hls]
    exact (houtside f hf hnot).2 l hls
  · intro j' hj' hp f hf l hls
    obtain ⟨j, hj, hp⟩ := hjob j' hj' hp
    rw [hslice l hls]
    exact h.picked_slots j hj hp f (by rwa [hpick] at hf) l hls
  · intro l hls
    rw [hslice l hls, hpick]
    exact h.picked_covers l hls
  · exact h.slots.congr fun l hls r hr => by rwa [hslice l hls] at hr

theorem FilesOrder.outside (h : FilesOrder s k) (f : SSTable) (hf : f ∈ s.level0)
    (hnot : f ∉ s.picked0) :
    (∀ g ∈ s.picked0, NewerFor k (f.recordsOf k.src) (g.recordsOf k.src)) ∧
      ∀ l < levelIndexSize, NewerFor k (f.recordsOf k.src) (s.sliceAt k.src l) :=
  ⟨h.outside_picked f hf hnot, h.outside_slots f hf hnot⟩

theorem picked0_of_job (hj : s'.job = s.job) : s'.picked0 = s.picked0 := by
  unfold picked0
  rw [hj]

theorem filesOrder_of_files (hwf : Wf s) (hwf' : Wf s') (h : FilesOrder s k)
    (h0 : s'.level0 = s.level0) (hl : s'.levels = s.levels) (hj : s'.job = s.job) :
    FilesOrder s' k := by
  refine h.of_slices (picked0_of_job hj) (fun l => sliceAt_of_files hwf hwf' hl hj)
    (fun j' hj' hp => ⟨j', hj ▸ hj', hp⟩) (h0 ▸ h.level0) ?_
  rw [h0]
  exact h.outside

/-- A newer file may come to level 0, when its id is the largest of those that hold the key. -/
theorem filesOrder_publish (f₀ : SSTable) (hwf : Wf s) (hwf' : Wf s') (h : FilesOrder s k)
    (h0 : ∀ f, f ∈ s'.level0 ↔ f = f₀ ∨ f ∈ s.level0) (hl : s'.levels = s.levels)
    (hj : s'.job = s.job) (hnew : NewerFor k (f₀.recordsOf k.src) (s.onDisk k.src))
    (hfid : HoldsKey k (f₀.recordsOf k.src) → ∀ g ∈ s.level0, HoldsKey k (g.recordsOf k.src) →
      g.timeStamp < f₀.timeStamp) : FilesOrder s' k := by
  have hfile : ∀ g ∈ s.level0, NewerFor k (f₀.recordsOf k.src) (g.recordsOf k.src) :=
    fun g hg => hnew.mono (fun _ he => he) fun r hr => mem_onDisk.mpr (Or.inl ⟨g, hg, hr⟩)
  have hslot : ∀ l < levelIndexSize, NewerFor k (f₀.recordsOf k.src) (s.sliceAt k.src l) :=
    fun l hls => hnew.mono (fun _ he => he) fun r hr => mem_onDisk.mpr (Or.inr ⟨l, hls, hr⟩)
  refine h.of_slices (picked0_of_job hj) (fun l => sliceAt_of_files hwf hwf' hl hj)
    (fun j' hj' hp => ⟨j', hj ▸ hj', hp⟩) ?_ fun f hf hnot => ?_
  · intro f hf g hg hlt
    rcases (h0 f).mp hf with rfl | hf
    · rcases (h0 g).mp hg with rfl | hg
      · omega
      · exact hfile g hg
    · rcases (h0 g).mp hg with rfl | hg
      · by_cases hold : HoldsKey k (f.recordsOf k.src)
        · apply Lib.Newer.of_not_holds_right
          intro hold'
          have := hfid hold' f hf hold
          omega
        · exact Lib.Newer.of_not_holds hold
      · exact h.level0 f hf g hg hlt
  · rcases (h0 f).mp hf with rfl | hf
    · exact ⟨fun g hg => hfile g (picked0_level0 hwf hg), hslot⟩
    · exact h.outside f hf hnot

/-- What is newer than every slot stays so when slots shift. -/
theorem newer_of_shifted {es : List EdgeRecord} {slots slots' : Nat → List EdgeRecord} {n : Nat}
    (h : ∀ l < n, NewerFor k es (slots l)) (hs : Lib.Shifted n slots slots') :
    ∀ l < n, NewerFor k es (slots' l) := by
  intro l hl e he e' he'
  obtain ⟨i, hi, hei⟩ := (hs.exists_mem e').mp ⟨l, hl, he'⟩
  exact h i hi e he e' hei

theorem picked0_of_no_job (hj : s.job = none) : s.picked0 = [] := by
  simp [picked0, hj]

theorem filesOrder_of_shifted (h : FilesOrder s k) (h0 : s'.level0 = s.level0)
    (hpick : s.picked0 = []) (hpick' : s'.picked0 = [])
    (hs : Lib.Shifted levelIndexSize (s.sliceAt k.src) (s'.sliceAt k.src)) :
    FilesOrder s' k := by
  have hnone : ∀ f, f ∉ s.picked0 := fun f => by simp [hpick]
  refine
    { level0 := by rw [h0]; exact h.level0
      outside_picked := fun f hf _ g hg => by rw [hpick'] at hg; cases hg
      outside_slots := ?_
      picked_slots := fun j _ _ f hf => by rw [hpick'] at hf; cases hf
      picked_covers := ?_
      slots := h.slots.shifted hs }
  · intro f hf _
    exact newer_of_shifted (h.outside_slots f (by rwa [h0] at hf) (hnone f)) hs
  · intro l _ hold
    obtain ⟨r, hr, -⟩ := hold
    simp [hpick'] at hr

theorem has_of_holdsKey {f : SSTable} (h : HoldsKey k (f.recordsOf k.src)) : f.Has k.src := by
  obtain ⟨r, hr, -⟩ := h
  exact SSTable.mem_recordsOf_has hr

/-- A selection at level 0 leaves no file behind that shares a vertex with it. -/
theorem filesOrder_started0 {sel : Selection}
    {hm : (mergeInputs 0 sel.inputs0 sel.inputs1).Pairwise EdgeRecord.le} (hwf : Wf s)
    (ht : s.currentTime < invalidFileId) (hj : s.job = none)
    (hsel : Selected 0 (s.filesAt 0) (s.levels 1) sel) (h : FilesOrder s k) :
    FilesOrder (started 0 sel hm s) k := by
  have hslice := fun l hls => sliceAt_started (v := k.src) (l := l) hm hwf ht hj (by decide)
    hsel hls
  have hpick : (started 0 sel hm s).picked0 = sel.inputs0 := rfl
  have hsub : ∀ f ∈ sel.inputs0, f ∈ s.level0 := fun f hf => hsel.sub0.mem hf
  have hnone : ∀ f, f ∉ s.picked0 := fun f => by simp [picked0_of_no_job hj]
  refine
    { level0 := h.level0, outside_picked := ?_, outside_slots := ?_, picked_slots := ?_
      picked_covers := ?_, slots := ?_ }
  · intro f hf hnot g hg
    rw [hpick] at hnot hg
    by_cases hold : HoldsKey k (f.recordsOf k.src)
    · apply Lib.Newer.of_not_holds_right
      intro hold'
      obtain ⟨r, hr, hrv⟩ := has_of_holdsKey hold
      obtain ⟨r', hr', hrv'⟩ := has_of_holdsKey hold'
      exact hnot (hsel.closed0 rfl f hf g hg ⟨r, hr, r', hr', hrv.trans hrv'.symm⟩)
    · exact Lib.Newer.of_not_holds hold
  · intro f hf _ l hls
    rw [hslice l hls]
    exact h.outside_slots f hf (hnone f) l hls
  · intro j _ _ f hf l hls
    rw [hslice l hls]
    exact h.outside_slots f (hsub f hf) (hnone f) l hls
  · intro l hls hold
    rw [hslice l hls]
    refine Lib.Newer.covers ?_ hold
    intro r hr
    obtain ⟨f, hf, hrf⟩ := List.mem_flatMap.mp hr
    exact h.outside_slots f (hsub f hf) (hnone f) l hls r hrf
  · exact h.slots.congr fun l hls r hr => by rwa [hslice l hls] at hr

theorem filesOrder_pick {level : Nat} (hwf : Wf s) (ht : s.currentTime < invalidFileId)
    (h : FilesOrder s k) (hs : pick o level s = some s') : FilesOrder s' k := by
  obtain ⟨h0, hshift⟩ := shifted_pick (v := k.src) hwf ht hs
  obtain ⟨hj, -, -, sel, -, hsel, ⟨hne, -, rfl⟩ | ⟨hm, rfl⟩⟩ := pick_cases hs
  · exact filesOrder_of_shifted h h0 (picked0_of_no_job hj) (picked0_of_no_job hj) hshift
  · by_cases hl0 : level = 0
    · subst hl0
      exact filesOrder_started0 hwf ht hj hsel h
    · exact filesOrder_of_shifted h h0 (picked0_of_no_job hj) (by simp [picked0, started, hl0])
        hshift

/-- An output file at level 0 puts the records of the inputs into the first slot. -/
theorem filesOrder_installed0 {j : Job} {hr : j.rest ≠ []} (hwf : Wf s)
    (hwf' : Wf (installed o j hr s)) (hj : s.job = some j) (h0 : j.level = 0)
    (hv : (j.outputFile o hr).Has k.src) (h : FilesOrder s k) :
    FilesOrder (installed o j hr s) k := by
  obtain ⟨fid, hjob⟩ := job_installed o j hr s
  have hpick : s.picked0 = j.inputs0 := by simp [picked0, hj, h0]
  have hpick' : (installed o j hr s).picked0 = j.inputs0 := by
    simp only [picked0, hjob]
    rw [if_pos (by exact h0)]
    rfl
  have hfirst : ∀ r, r ∈ (installed o j hr s).sliceAt k.src 0 ↔
      r ∈ j.inputs0.flatMap (·.recordsOf k.src) ∨ r ∈ s.sliceAt k.src 0 := by
    intro r
    have := (sliceAt_installed_next hwf hwf' hj hv).mem_iff (a := r)
    rwa [h0, List.mem_append] at this
  have hother : ∀ l < levelIndexSize, l ≠ 0 →
      (installed o j hr s).sliceAt k.src l = s.sliceAt k.src l :=
    fun l hl h1 => sliceAt_installed_other hwf hwf' hj hv hl (by omega) (by omega)
  refine
    { level0 := h.level0, outside_picked := ?_, outside_slots := ?_, picked_slots := ?_
      picked_covers := ?_, slots := ?_ }
  · intro f hf hnot g hg
    rw [hpick', ← hpick] at hnot hg
    exact h.outside_picked f hf hnot g hg
  · intro f hf hnot l hls e he e' he' hk hk'
    rw [hpick', ← hpick] at hnot
    by_cases hl0 : l = 0
    · subst hl0
      rcases (hfirst e').mp he' with hin | hold
      · obtain ⟨g, hg, hge⟩ := List.mem_flatMap.mp hin
        exact h.outside_picked f hf hnot g (by rwa [hpick]) e he e' hge hk hk'
      · exact h.outside_slots f hf hnot 0 hls e he e' hold hk hk'
    · rw [hother l hls hl0] at he'
      exact h.outside_slots f hf hnot l hls e he e' he' hk hk'
  · -- The vertex is done.
    intro j' hj' hp
    rw [hjob] at hj'
    cases hj'
    exact absurd hv ((pending_next hr).mp hp).2
  · intro l hls hold
    rw [hpick', ← hpick] at hold ⊢
    by_cases hl0 : l = 0
    · subst hl0
      intro e he hk
      rcases (hfirst e).mp he with hin | hin
      · exact ⟨e, by rwa [hpick], hk, Nat.le_refl _⟩
      · exact h.picked_covers 0 hls hold e hin hk
    · rw [hother l hls hl0]
      exact h.picked_covers l hls hold
  · refine h.slots.putFirst ?_
      (fun e he => (hfirst e).mp he) hother
    intro l _ hls e he e' he'
    obtain ⟨f, hf, hef⟩ := List.mem_flatMap.mp he
    exact h.picked_slots j hj (pending_of_outputFile hv) f (by rwa [hpick]) l hls e hef e' he'

theorem filesOrder_installed {j : Job} {hr : j.rest ≠ []} (hwf : Wf s)
    (ht : s.currentTime < invalidFileId) (hj : s.job = some j) (h : FilesOrder s k) :
    FilesOrder (installed o j hr s) k := by
  have hwf' : Wf (installed o j hr s) := wf_installed hwf ht hj
  obtain ⟨fid, hjob⟩ := job_installed o j hr s
  have hpick : (installed o j hr s).picked0 = s.picked0 := by
    simp only [picked0, hjob, hj]
    rfl
  by_cases hv : (j.outputFile o hr).Has k.src
  · by_cases h0 : j.level = 0
    · exact filesOrder_installed0 hwf hwf' hj h0 hv h
    · have hnone : s.picked0 = [] := by simp [picked0, hj, h0]
      exact filesOrder_of_shifted h rfl hnone (by rw [hpick]; exact hnone)
        (shifted_installed hwf hwf' hj (Or.inl h0))
  · refine h.of_slices hpick (fun l => sliceAt_installed_of_not hwf hwf' hj hv) ?_
      h.level0 h.outside
    intro j' hj' hp
    rw [hjob] at hj'
    cases hj'
    exact ⟨j, hj, ((pending_next hr).mp hp).1⟩

/-- What stays in level 0 was not an input. -/
theorem mem_level0_finish {j : Job} (hj : s.job = some j) {f : SSTable}
    (hf : f ∈ (finished j s).level0) : f ∈ s.level0 ∧ f ∉ s.picked0 := by
  unfold finished at hf
  by_cases h0 : j.level = 0
  · rw [if_pos h0, mem_removeCache] at hf
    refine ⟨hf.1, fun hin => ?_⟩
    simp only [picked0, hj, h0, if_true] at hin
    exact hf.2 f hin rfl
  · rw [if_neg h0] at hf
    exact ⟨hf, by simp [picked0, hj, h0]⟩

theorem filesOrder_finish (hwf : Wf s) (h : FilesOrder s k) (hs : finish s = some s') :
    FilesOrder s' k := by
  have hslice := fun {l : Nat} => sliceAt_finish (v := k.src) (l := l) hwf hs
  obtain ⟨j, hj, -, rfl⟩ := finish_cases hs
  have hstay := fun f (hf : f ∈ (finished j s).level0) => mem_level0_finish hj hf
  refine
    { level0 := fun f hf g hg => h.level0 f (hstay f hf).1 g (hstay g hg).1
      outside_picked := fun f _ _ g hg => by cases hg
      outside_slots := ?_
      picked_slots := fun j' _ _ f hf => by cases hf
      picked_covers := fun l _ hpicked => by
          obtain ⟨r, hr, -⟩ := hpicked
          cases hr
      slots := h.slots.congr fun l hls r hr => by rwa [hslice hls] at hr }
  intro f hf _ l hls
  rw [hslice hls]
  exact h.outside_slots f (hstay f hf).1 (hstay f hf).2 l hls

theorem filesOrder_compaction {a : Action} (hwf : Wf s) (hok : NoLoss o s a) (h : FilesOrder s k)
    (hs : step o s a = some s') (ha : a.Compacts) : FilesOrder s' k := by
  have ht := hok.1
  cases a with
  | pick level => exact filesOrder_pick hwf (by omega) h hs
  | writeEnd =>
    obtain ⟨j, hr, hj, rfl⟩ := installed_of_noLoss hok hs
    exact filesOrder_installed hwf (by omega) hj h
  | finish => exact filesOrder_finish hwf h hs
  | putEdge | sortAdjacency | publish => cases ha

/-! ## The order of file ids -/

/-- Ids are handed out to memtables in the order in which they become active. -/
structure FidOrder (s : Store) : Prop where
  immutables_lt : ∀ t ∈ s.immutables, t.fid < s.active.fid
  level0_lt : ∀ f ∈ s.level0, f.timeStamp < s.active.fid
  level0_sorted : s.level0.Pairwise fun f g => g.timeStamp ≤ f.timeStamp

theorem mem_immutables_putRecord {src : Nat} {e : Edge} {t : MemTable}
    (h : t ∈ (putRecord o src e s).immutables) :
    t ∈ s.immutables ∨ t = s.active.putEdge o.reserveNode src e ∧ s.active.remainCapacity ≤ 1 := by
  unfold putRecord at h
  dsimp only at h
  split at h
  · rename_i hfull
    rcases List.mem_append.mp h with h | h
    · exact Or.inl h
    · refine Or.inr ⟨List.mem_singleton.mp h, ?_⟩
      have : s.active.remainCapacity - 1 = 0 := hfull
      omega
  · exact Or.inl h

theorem active_putRecord (src : Nat) (e : Edge) :
    (putRecord o src e s).active = s.active.putEdge o.reserveNode src e ∧
        (putRecord o src e s).immutables = s.immutables ∨
      (putRecord o src e s).active = MemTable.fresh s.currentTime o.maxEdgeNum := by
  unfold putRecord
  dsimp only
  split
  · exact Or.inr rfl
  · exact Or.inl ⟨rfl, rfl⟩

theorem fidOrder_putRecord {src : Nat} {e : Edge} (hwf : Wf s) (h : FidOrder s) :
    FidOrder (putRecord o src e s) := by
  have hactive := hwf.mem_lt s.active (List.mem_append_right _ List.mem_cons_self)
  rcases active_putRecord (o := o) (s := s) src e with ⟨ha, hi⟩ | ha
  · refine ⟨?_, ?_, by rw [putRecord_level0]; exact h.level0_sorted⟩
    · rw [ha, hi]
      exact h.immutables_lt
    · rw [ha, putRecord_level0]
      exact h.level0_lt
  · refine ⟨?_, ?_, by rw [putRecord_level0]; exact h.level0_sorted⟩
    · intro t ht
      rw [ha]
      rcases mem_immutables_putRecord ht with ht | ⟨rfl, -⟩
      · exact hwf.mem_lt t (mem_menTables_of_immutables ht)
      · exact hactive
    · intro f hf
      rw [putRecord_level0] at hf
      rw [ha]
      exact hwf.live_lt f (mem_liveFiles_of_level0 hf)

theorem fidOrder_of_level0 (h : FidOrder s) (hi : s'.immutables = s.immutables)
    (ha : s'.active = s.active) (h0 : s'.level0.Sublist s.level0) : FidOrder s' :=
  ⟨by rw [hi, ha]; exact h.immutables_lt, fun f hf => by rw [ha]; exact h.level0_lt f (h0.mem hf),
    h.level0_sorted.sublist h0⟩

theorem fidOrder_publish {fid : Nat} (h : FidOrder s) (hs : publish o fid s = some s') :
    FidOrder s' := by
  obtain ⟨t, f, ht, -, hf, rfl⟩ := publish_cases hs
  have hts := (MemTable.save2eSSTable_spec hf).1
  refine ⟨fun t' ht' => h.immutables_lt t' (List.mem_of_mem_filter ht'), ?_, ?_⟩
  · intro g hg
    rcases List.mem_orderedInsert _ |>.mp hg with rfl | hg
    · rw [hts]
      exact h.immutables_lt t ht
    · exact h.level0_lt g hg
  · have : Std.Total fun a b : SSTable => b.timeStamp ≤ a.timeStamp :=
      ⟨fun a b => Nat.le_total _ _⟩
    have : IsTrans SSTable fun a b => b.timeStamp ≤ a.timeStamp :=
      ⟨fun a b c hab hbc => Nat.le_trans hbc hab⟩
    exact h.level0_sorted.orderedInsert f s.level0

/-! ## The order of the memtables -/

/-- The condition under which a step keeps the newest record of every key in front. A put finds
its key in no table that waits for its flush, and a table is sorted only where no key has two
versions in an array. -/
def KeepsOrder (s : Store) : Action → Prop
  | .putEdge src dst _ mode isOut edgeType =>
    (∀ t ∈ s.immutables, t.get ⟨src, dst, isOut, edgeType⟩ = none) ∧
      (mode = .kBidirectional →
        (∀ t ∈ s.immutables, t.get ⟨dst, src, !isOut, edgeType⟩ = none) ∧
        -- The first record may fill the active table.
        (s.active.remainCapacity ≤ 1 → s.active.get ⟨dst, src, !isOut, edgeType⟩ = none))
  | .sortAdjacency fid src => ∀ t ∈ s.immutables, t.fid = fid → (t.adj src).OneVersionEach
  | _ => True

instance (s : Store) : (a : Action) → Decidable (KeepsOrder s a)
  | .putEdge .. => inferInstanceAs (Decidable (_ ∧ (_ → _ ∧ (_ → _))))
  | .sortAdjacency fid src => inferInstanceAs
      (Decidable (∀ t ∈ s.immutables, t.fid = fid → (t.adj src).OneVersionEach))
  | .publish _ | .pick _ | .writeEnd | .finish => inferInstanceAs (Decidable True)

/-- The order of the memtables for one key. -/
structure TablesOrder (o : Options) (s : Store) (k : EdgeKey) : Prop where
  rising : ∀ t ∈ s.menTables, (t.adj k.src).Rising
  one_table : ∀ t ∈ s.menTables, ∀ t' ∈ s.menTables,
    HoldsKey k (t.recordsOf o.propertyLengths k.src) →
    HoldsKey k (t'.recordsOf o.propertyLengths k.src) → t.fid = t'.fid
  newer : ∀ t ∈ s.menTables,
    NewerFor k (t.recordsOf o.propertyLengths k.src) (s.onDisk k.src)
  fid : ∀ t ∈ s.menTables, HoldsKey k (t.recordsOf o.propertyLengths k.src) →
    ∀ f ∈ s.level0, HoldsKey k (f.recordsOf k.src) → f.timeStamp < t.fid

theorem holdsKey_recordsOf {lengths : List Nat} {t : MemTable} :
    HoldsKey k (t.recordsOf lengths k.src) ↔
      ∃ e ∈ (t.adj k.src).edges, putKey (k.src, e) = k := by
  constructor
  · rintro ⟨r, hr, hk⟩
    obtain ⟨e, he, rfl⟩ := List.mem_map.mp hr
    exact ⟨e, he, hk⟩
  · rintro ⟨e, he, hk⟩
    exact ⟨_, List.mem_map_of_mem he, hk⟩

theorem get_eq_none_iff {lengths : List Nat} {t : MemTable}
    (hseq : ∀ e ∈ (t.adj k.src).edges, e.sequence < maxSeqId) :
    t.get k = none ↔ ¬ HoldsKey k (t.recordsOf lengths k.src) := by
  unfold MemTable.get
  rw [NewEdgeSL.get_eq_none_iff lengths hseq, HoldsKey, MemTable.recordsOf]
  simp [Lib.Holds]

theorem holdsKey_putEdge {lengths : List Nat} {t : MemTable} {src : Nat} {e : Edge} :
    HoldsKey k ((t.putEdge o.reserveNode src e).recordsOf lengths k.src) ↔
      k = putKey (src, e) ∨ HoldsKey k (t.recordsOf lengths k.src) := by
  rw [holdsKey_recordsOf, holdsKey_recordsOf]
  constructor
  · rintro ⟨x, hx, hk⟩
    rcases mem_edges_table_putEdge.mp hx with ⟨hv, rfl⟩ | hx
    · rw [hv] at hk
      exact Or.inl hk.symm
    · exact Or.inr ⟨x, hx, hk⟩
  · rintro (rfl | ⟨x, hx, hk⟩)
    · exact ⟨e, mem_edges_table_putEdge.mpr (Or.inl ⟨rfl, rfl⟩), rfl⟩
    · exact ⟨x, mem_edges_table_putEdge.mpr (Or.inr hx), hk⟩

theorem not_holdsKey_fresh {lengths : List Nat} {fid n : Nat} :
    ¬ HoldsKey k ((MemTable.fresh fid n).recordsOf lengths k.src) := by
  rw [holdsKey_recordsOf, edges_fresh]
  simp

theorem tablesOrder_putRecord {src : Nat} {e : Edge} (hwf : Wf s)
    (ht : s.currentTime < invalidFileId) (htr : Tracked o s) (hfid : FidOrder s)
    (h : TablesOrder o s k) (hbelow : e.sequence < maxSeqId)
    (hseq : ∀ p ∈ s.history, p.2.sequence ≤ e.sequence)
    (hfree : k = putKey (src, e) → ∀ t ∈ s.immutables,
      ¬ HoldsKey k (t.recordsOf o.propertyLengths k.src)) :
    TablesOrder o (putRecord o src e s) k := by
  have hwf' := (wf_putRecord (o := o) src e hwf ht).1
  have hdisk := onDisk_of_files hwf hwf' (by simp) (by simp) (by simp)
  have hactive : s.active ∈ s.menTables := List.mem_append_right _ List.mem_cons_self
  -- A table that waits holds the key only if the active table, with the new record, does not.
  have hone : ∀ t ∈ s.immutables, HoldsKey k (t.recordsOf o.propertyLengths k.src) →
      ¬ HoldsKey k ((s.active.putEdge o.reserveNode src e).recordsOf o.propertyLengths k.src) := by
    intro t htm hold hold'
    rcases holdsKey_putEdge.mp hold' with hk | hold'
    · exact hfree hk t htm hold
    · have := h.one_table t (mem_menTables_of_immutables htm) s.active hactive hold hold'
      have := hfid.immutables_lt t htm
      omega
  refine { rising := ?_, one_table := ?_, newer := ?_, fid := ?_ }
  · intro t htm
    rcases mem_menTables_putRecord htm with htm | rfl | rfl
    · exact h.rising t (mem_menTables_of_immutables htm)
    · rw [MemTable.adj_putEdge]
      split
      · rename_i hv
        rw [← hv]
        refine NewEdgeSL.rising_putEdge (h.rising _ hactive) hbelow ?_
        exact fun x hx => hseq _ (htr.tables _ hactive k.src x hx)
      · exact h.rising _ hactive
    · exact NewEdgeSL.rising_nil
  · intro t htm t' htm' hold hold'
    rcases mem_menTables_putRecord htm with hi | rfl | rfl
    · rcases mem_menTables_putRecord htm' with hi' | rfl | rfl
      · exact h.one_table t (mem_menTables_of_immutables hi) t' (mem_menTables_of_immutables hi')
          hold hold'
      · exact absurd hold' (hone t hi hold)
      · exact absurd hold' not_holdsKey_fresh
    · rcases mem_menTables_putRecord htm' with hi' | rfl | rfl
      · exact absurd hold (hone t' hi' hold')
      · rfl
      · exact absurd hold' not_holdsKey_fresh
    · exact absurd hold not_holdsKey_fresh
  · intro t htm
    rcases mem_menTables_putRecord htm with hi | rfl | rfl
    · exact (h.newer t (mem_menTables_of_immutables hi)).mono (fun _ hr => hr)
        fun r hr => (hdisk _ r).mp hr
    · intro r hr r' hr' hk hk'
      rw [hdisk] at hr'
      obtain ⟨x, hx, rfl⟩ := List.mem_map.mp hr
      rcases mem_edges_table_putEdge.mp hx with ⟨-, rfl⟩ | hx
      · obtain ⟨y, hy, rfl⟩ := htr.disk k.src r' hr'
        exact hseq _ hy
      · exact h.newer _ hactive _ (List.mem_map_of_mem hx) r' hr' hk hk'
    · exact Lib.Newer.of_not_holds not_holdsKey_fresh
  · intro t htm hold f hf hold'
    rw [putRecord_level0] at hf
    rcases mem_menTables_putRecord htm with hi | rfl | rfl
    · exact h.fid t (mem_menTables_of_immutables hi) hold f hf hold'
    · exact hfid.level0_lt f hf
    · exact absurd hold not_holdsKey_fresh

theorem tablesOrder_nextSequence (hwf : Wf s) (n : Nat) (h : TablesOrder o s k) :
    TablesOrder o { s with nextSequence := n } k :=
  { rising := h.rising, one_table := h.one_table, fid := h.fid
    newer := fun t ht => (h.newer t ht).mono (fun _ hr => hr) fun r hr =>
      (onDisk_of_files hwf (wf_nextSequence hwf n) rfl rfl rfl _ r).mp hr }

theorem holdsKey_sortAdjacency {lengths : List Nat} {t : MemTable} {src : Nat} :
    HoldsKey k ((t.sortAdjacency src).recordsOf lengths k.src) ↔
      HoldsKey k (t.recordsOf lengths k.src) := by
  rw [holdsKey_recordsOf, holdsKey_recordsOf]
  simp only [mem_edges_sortAdjacency]

theorem tablesOrder_sortAdjacency {fid src : Nat} (hwf : Wf s) (h : TablesOrder o s k)
    (hok : KeepsOrder s (.sortAdjacency fid src)) (hs : sortAdjacency fid src s = some s') :
    TablesOrder o s' k := by
  have hwf' := wf_sortAdjacency hwf hs
  obtain ⟨h0, hl, hj, -, -, -, -⟩ := sortAdjacency_cases hs
  have hdisk := onDisk_of_files hwf hwf' h0 hl hj
  -- Every table is an old one, perhaps sorted, with the same id and the same records.
  have hold : ∀ t' ∈ s'.menTables, ∃ t ∈ s.menTables, t'.fid = t.fid ∧
      (∀ r, r ∈ t'.recordsOf o.propertyLengths k.src → r ∈ t.recordsOf o.propertyLengths k.src) ∧
      (HoldsKey k (t'.recordsOf o.propertyLengths k.src) →
        HoldsKey k (t.recordsOf o.propertyLengths k.src)) ∧ (t'.adj k.src).Rising := by
    intro t' ht'
    obtain ⟨t, htm, rfl | ⟨rfl, hi, hfid⟩⟩ := (tables_sortAdjacency hs).1 t' ht'
    · exact ⟨t', htm, rfl, fun _ hr => hr, fun hk => hk, h.rising t' htm⟩
    · refine ⟨t, htm, t.fid_sortAdjacency src, ?_, holdsKey_sortAdjacency.mp, ?_⟩
      · exact fun r hr => (MemTable.recordsOf_sortAdjacency_perm _ src _).mem_iff.mp hr
      · rw [MemTable.adj_sortAdjacency]
        split
        · rename_i hv
          exact NewEdgeSL.rising_sort (hv ▸ (h.rising t htm).below) (hok t hi hfid)
        · exact h.rising t htm
  refine { rising := ?_, one_table := ?_, newer := ?_, fid := ?_ }
  · intro t' ht'
    obtain ⟨_, -, -, -, -, hr⟩ := hold t' ht'
    exact hr
  · intro t₁ h₁ t₂ h₂ hk₁ hk₂
    obtain ⟨u₁, hu₁, he₁, -, hh₁, -⟩ := hold t₁ h₁
    obtain ⟨u₂, hu₂, he₂, -, hh₂, -⟩ := hold t₂ h₂
    rw [he₁, he₂]
    exact h.one_table u₁ hu₁ u₂ hu₂ (hh₁ hk₁) (hh₂ hk₂)
  · intro t' ht'
    obtain ⟨u, hu, -, hmem, -, -⟩ := hold t' ht'
    exact (h.newer u hu).mono hmem fun r hr => (hdisk _ r).mp hr
  · intro t' ht' hk f hf hkf
    obtain ⟨u, hu, he, -, hh, -⟩ := hold t' ht'
    rw [he]
    exact h.fid u hu (hh hk) f (by rwa [h0] at hf) hkf

/-- The tables that a flush leaves, and what it leaves of the order. -/
theorem tablesOrder_publish {fid : Nat} (hwf : Wf s) (h : TablesOrder o s k)
    (hs : publish o fid s = some s') : TablesOrder o s' k := by
  obtain ⟨t, f, ht, hfid, hf, rfl⟩ := publish_cases hs
  have hwf' := wf_publish hwf hs
  have htm := mem_menTables_of_immutables ht
  have hrec := (MemTable.save2eSSTable_spec hf).2 k.src
  have hleft : ∀ t' ∈ s.immutables.filter (·.fid != fid) ++ [s.active],
      t' ∈ s.menTables ∧ t'.fid ≠ t.fid := by
    intro t' ht'
    rcases List.mem_append.mp ht' with ht' | ht'
    · refine ⟨mem_menTables_of_immutables (List.mem_of_mem_filter ht'), ?_⟩
      rw [hfid]
      simpa using List.of_mem_filter ht'
    · refine ⟨List.mem_append_right _ ht', ?_⟩
      have hnd := hwf.mem_nodup
      rw [menTables, List.map_append, List.nodup_append] at hnd
      exact (hnd.2.2 _ (List.mem_map_of_mem ht) _ (List.mem_map_of_mem ht')).symm
  -- No table that is left holds the key when the flushed one does.
  have hother : ∀ t' ∈ s.immutables.filter (·.fid != fid) ++ [s.active],
      HoldsKey k (t'.recordsOf o.propertyLengths k.src) → ¬ HoldsKey k (f.recordsOf k.src) := by
    rintro t' ht' hk ⟨r, hr, hrk⟩
    obtain ⟨hm, hne⟩ := hleft t' ht'
    exact hne (h.one_table t' hm t htm hk ⟨r, hrec.mem_iff.mp hr, hrk⟩)
  refine
    { rising := fun t' ht' => h.rising t' (hleft t' ht').1
      one_table := fun t₁ h₁ t₂ h₂ => h.one_table t₁ (hleft t₁ h₁).1 t₂ (hleft t₂ h₂).1
      newer := ?_, fid := ?_ }
  · intro t' ht' r hr r' hr' hk hk'
    rcases mem_onDisk.mp hr' with ⟨g, hg, hrg⟩ | ⟨l, hl, hrl⟩
    · rcases List.mem_orderedInsert _ |>.mp hg with rfl | hg
      · exact absurd ⟨r', hrg, hk'⟩ (hother t' ht' ⟨r, hr, hk⟩)
      · exact h.newer t' (hleft t' ht').1 r hr r' (mem_onDisk.mpr (Or.inl ⟨g, hg, hrg⟩)) hk hk'
    · rw [sliceAt_of_files hwf hwf' rfl rfl hl] at hrl
      exact h.newer t' (hleft t' ht').1 r hr r' (mem_onDisk.mpr (Or.inr ⟨l, hl, hrl⟩)) hk hk'
  · intro t' ht' hk g hg hkg
    rcases List.mem_orderedInsert _ |>.mp hg with rfl | hg
    · exact absurd hkg (hother t' ht' hk)
    · exact h.fid t' (hleft t' ht').1 hk g hg hkg

theorem tablesOrder_of_compaction (h : TablesOrder o s k) (htab : s'.menTables = s.menTables)
    (h0 : ∀ f ∈ s'.level0, f ∈ s.level0) (hdisk : ∀ r, r ∈ s'.onDisk k.src ↔ r ∈ s.onDisk k.src) :
    TablesOrder o s' k :=
  { rising := by rw [htab]; exact h.rising
    one_table := by rw [htab]; exact h.one_table
    newer := fun t ht => (h.newer t (by rwa [htab] at ht)).mono (fun _ hr => hr)
      fun r hr => (hdisk r).mp hr
    fid := fun t ht hk f hf => h.fid t (by rwa [htab] at ht) hk f (h0 f hf) }

/-! ## Runs -/

/-- Everything that holds for the reads of a key. -/
structure InOrder (o : Options) (s : Store) : Prop where
  wf : Wf s
  tracked : Tracked o s
  fids : FidOrder s
  tables : ∀ k, TablesOrder o s k
  files : ∀ k, FilesOrder s k

/-- A step that loses nothing and keeps the order. -/
def OrderedStep (o : Options) (s : Store) (a : Action) : Prop := NoLoss o s a ∧ KeepsOrder s a

instance (o : Options) (s : Store) (a : Action) : Decidable (OrderedStep o s a) :=
  inferInstanceAs (Decidable (_ ∧ _))

theorem inOrder_putRecord {src : Nat} {e : Edge} (ht : s.currentTime < invalidFileId)
    (h : InOrder o s) (hseq : e.sequence < s.nextSequence) (hbelow : e.sequence < maxSeqId)
    (hle : ∀ p ∈ s.history, p.2.sequence ≤ e.sequence)
    (hnew : ∀ p ∈ s.history, putKey (src, e) = putKey p → p.2.sequence < e.sequence)
    (hfree : ∀ t ∈ s.immutables, ¬ HoldsKey (putKey (src, e)) (t.recordsOf o.propertyLengths src)) :
    InOrder o (putRecord o src e s) := by
  have hwf' := (wf_putRecord (o := o) src e h.wf ht).1
  refine
    { wf := hwf', tracked := tracked_putRecord src e h.wf ht h.tracked hseq hbelow hnew
      fids := fidOrder_putRecord h.wf h.fids, tables := ?_
      files := fun k => filesOrder_of_files h.wf hwf' (h.files k) (by simp) (by simp) (by simp) }
  intro k
  refine tablesOrder_putRecord h.wf ht h.tracked h.fids (h.tables k) hbelow hle ?_
  rintro rfl
  exact hfree

theorem inOrder_nextSequence {n : Nat} (h : InOrder o s) (hn : s.nextSequence ≤ n) :
    InOrder o { s with nextSequence := n } := by
  have hwf' := wf_nextSequence h.wf n
  exact
    { wf := hwf', tracked := tracked_nextSequence h.wf h.tracked hn
      fids := ⟨h.fids.immutables_lt, h.fids.level0_lt, h.fids.level0_sorted⟩
      tables := fun k => tablesOrder_nextSequence h.wf _ (h.tables k)
      files := fun k => filesOrder_of_files h.wf hwf' (h.files k) rfl rfl rfl }

theorem inOrder_putEdge {src dst : Nat} {payload : Bytes} {mode : EdgeInsertMode} {isOut : Bool}
    {edgeType : UInt8} (h : InOrder o s)
    (hok : OrderedStep o s (.putEdge src dst payload mode isOut edgeType))
    (hs : putEdge o src dst payload mode isOut edgeType s = some s') : InOrder o s' := by
  obtain ⟨⟨ht, -⟩, hfree, hback⟩ := hok
  have hnone : ∀ k, ∀ t ∈ s.menTables, t.get k = none →
      ¬ HoldsKey k (t.recordsOf o.propertyLengths k.src) :=
    fun k t htm => (get_eq_none_iff (h.tracked.tables_below htm k.src)).mp
  obtain ⟨e, hseq, hdst, hout, htype, -, -, hcases⟩ := putEdge_cases hs
  have hkey : putKey (src, e) = ⟨src, dst, isOut, edgeType⟩ := by
    simp [putKey, hdst, hout, htype]
  have h₁ := inOrder_nextSequence (n := s.nextSequence + 1) h (Nat.le_succ _)
  have hlt := h.tracked.sequence_lt
  have hbelow := nextSequence_lt_of_putEdge hs
  have h₂ : InOrder o (putRecord o src e { s with nextSequence := s.nextSequence + 1 }) := by
    refine inOrder_putRecord (by dsimp only; omega) h₁ (by dsimp only; omega) (by omega) ?_ ?_ ?_
    · intro p hp
      have := hlt p hp
      omega
    · intro p hp _
      rw [hseq]
      exact hlt p hp
    · intro t htm
      rw [hkey]
      exact hnone _ t (mem_menTables_of_immutables htm) (hfree t htm)
  rcases hcases with rfl | ⟨e', hseq', hdst', hout', htype', -, -, hmode, rfl⟩
  · exact h₂
  have htime := (wf_putRecord (o := o) src e h₁.wf (by dsimp only; omega)).2
  dsimp only at htime
  have hkey' : putKey (dst, e') = ⟨dst, src, !isOut, edgeType⟩ := by
    simp [putKey, hdst', hout', htype']
  -- The two records of the put differ in their direction.
  have hne : putKey (dst, e') ≠ putKey (src, e) := by
    rw [hkey, hkey']
    intro heq
    have := congrArg EdgeKey.isOut heq
    simp at this
  obtain ⟨hfree', hfull⟩ := hback hmode
  refine inOrder_putRecord (by omega) h₂ ?_ (by omega) ?_ ?_ ?_
  · rw [putRecord_nextSequence]
    dsimp only
    omega
  · intro p hp
    rw [putRecord_history] at hp
    rcases List.mem_cons.mp hp with rfl | hp
    · dsimp only
      omega
    · have := hlt p hp
      omega
  · intro p hp hk
    rw [putRecord_history] at hp
    rcases List.mem_cons.mp hp with rfl | hp
    · exact absurd hk hne
    · rw [hseq']
      exact hlt p hp
  · intro t htm
    rw [hkey']
    rcases mem_immutables_putRecord htm with hi | ⟨rfl, hcap⟩
    · exact hnone _ t (mem_menTables_of_immutables hi) (hfree' t hi)
    · intro hold
      rcases holdsKey_putEdge.mp hold with hk | hold
      · exact hne (hkey'.trans hk)
      · exact hnone _ s.active (List.mem_append_right _ List.mem_cons_self) (hfull hcap) hold

theorem inOrder_publish {fid : Nat} (h : InOrder o s) (hs : publish o fid s = some s') :
    InOrder o s' := by
  have hwf' := wf_publish h.wf hs
  refine
    { wf := hwf', tracked := tracked_publish h.wf h.tracked hs, fids := fidOrder_publish h.fids hs
      tables := fun k => tablesOrder_publish h.wf (h.tables k) hs, files := ?_ }
  intro k
  obtain ⟨t, f, ht, -, hf, rfl⟩ := publish_cases hs
  obtain ⟨hts, hrec⟩ := MemTable.save2eSSTable_spec hf
  have htm := mem_menTables_of_immutables ht
  refine filesOrder_publish f h.wf hwf' (h.files k) ?_ rfl rfl ?_ ?_
  · exact fun g => List.mem_orderedInsert _
  · exact ((h.tables k).newer t htm).mono (fun r hr => (hrec k.src).mem_iff.mp hr) fun _ hr => hr
  · rintro ⟨r, hr, hk⟩ g hg hold
    rw [hts]
    exact (h.tables k).fid t htm ⟨r, (hrec k.src).mem_iff.mp hr, hk⟩ g hg hold

theorem inOrder_step {a : Action} (h : InOrder o s) (hok : OrderedStep o s a)
    (hs : step o s a = some s') : InOrder o s' := by
  have hwf' := wf_step h.wf hok.1 hs
  have htr := tracked_step h.wf hok.1 h.tracked hs
  have ht : s.currentTime < invalidFileId := by have := hok.1.1; omega
  cases a with
  | putEdge src dst payload mode isOut edgeType => exact inOrder_putEdge h hok hs
  | sortAdjacency fid src =>
    obtain ⟨h0, hl, hj, -, -, ha, hi⟩ := sortAdjacency_cases hs
    refine
      { wf := hwf', tracked := htr, fids := ⟨?_, ?_, by rw [h0]; exact h.fids.level0_sorted⟩
        tables := fun k => tablesOrder_sortAdjacency h.wf (h.tables k) hok.2 hs
        files := fun k => filesOrder_of_files h.wf hwf' (h.files k) h0 hl hj }
    · intro t htm
      rw [hi] at htm
      obtain ⟨t₀, ht₀, rfl⟩ := List.mem_map.mp htm
      rw [ha]
      have := h.fids.immutables_lt t₀ ht₀
      split
      · rwa [MemTable.fid_sortAdjacency]
      · exact this
    · rw [h0, ha]
      exact h.fids.level0_lt
  | publish fid => exact inOrder_publish h hs
  | pick | writeEnd | finish =>
    have hsame := sameTables_step hs rfl
    exact ⟨hwf', htr, fidOrder_of_level0 h.fids hsame.immutables hsame.active hsame.level0,
      fun k => tablesOrder_of_compaction (h.tables k) hsame.menTables
        (fun _ hf => hsame.level0.mem hf)
        fun r => mem_onDisk_compaction h.wf hok.1 h.tracked.merged hs rfl,
      fun k => filesOrder_compaction h.wf hok.1 (h.files k) hs rfl⟩

theorem inOrder_initial (o : Options) : InOrder o (initial o) := by
  have hslice : ∀ v l, (initial o).sliceAt v l = [] := by
    simp [sliceAt, initial, MulLevelIndex.empty]
  refine
    { wf := wf_initial o, tracked := tracked_initial o
      fids := ⟨by simp [initial], by simp [initial], List.Pairwise.nil⟩, tables := ?_, files := ?_ }
  · intro k
    have hnone : ∀ t ∈ (initial o).menTables,
        ¬ HoldsKey k (t.recordsOf o.propertyLengths k.src) := by
      intro t ht
      simp only [initial, menTables, List.nil_append, List.mem_singleton] at ht
      subst ht
      exact not_holdsKey_fresh
    refine ⟨?_, fun t ht _ _ hk => absurd hk (hnone t ht),
      fun t ht => Lib.Newer.of_not_holds (hnone t ht), fun t ht hk => absurd hk (hnone t ht)⟩
    intro t ht
    simp only [initial, menTables, List.nil_append, List.mem_singleton] at ht
    subst ht
    exact NewEdgeSL.rising_nil
  · intro k
    refine
      { level0 := fun f hf => by cases hf
        outside_picked := fun f hf => by cases hf
        outside_slots := fun f hf => by cases hf
        picked_slots := fun j hj => by cases hj
        picked_covers := fun l _ hpicked => by
          obtain ⟨r, hr, -⟩ := hpicked
          cases hr
        slots := ?_ }
    intro i j _ _ e he
    rw [hslice] at he
    cases he

/-- In every run whose steps keep the order, the places of every key are in order. -/
theorem inOrder_of_reach (h : Lib.Reach (step o) (OrderedStep o) (initial o) s) : InOrder o s :=
  h.invariant (inOrder_initial o) fun _ _ _ hinv hok hs => inOrder_step hinv hok hs

end Store

end RichGraph
