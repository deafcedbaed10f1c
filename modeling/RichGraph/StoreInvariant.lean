-- What holds in every state of the store: which files are in use, that the
-- index of a vertex points at the files that hold it, and what a running
-- compaction still has to write.
import RichGraph.Store

namespace RichGraph

open Compaction Store

/-! ## Files in use -/

/-- The file holds a record of the vertex. -/
def SSTable.Has (f : SSTable) (v : Nat) : Prop := ∃ r ∈ f.records, r.src = v

theorem SSTable.mem_recordsOf_has {f : SSTable} {v : Nat} {r : EdgeRecord}
    (h : r ∈ f.recordsOf v) : f.Has v :=
  ⟨r, (SSTable.mem_recordsOf.mp h).1, (SSTable.mem_recordsOf.mp h).2⟩

theorem SSTable.recordsOf_eq_nil {f : SSTable} {v : Nat} (h : ¬ f.Has v) : f.recordsOf v = [] := by
  rw [List.eq_nil_iff_forall_not_mem]
  exact fun r hr => h (mem_recordsOf_has hr)

theorem SSTable.Has.offsets {f : SSTable} {v : Nat} (h : f.Has v) :
    ∃ p, f.offsets v = some p :=
  Option.isSome_iff_exists.mp (f.offsets_isSome_iff.mpr h)

theorem SSTable.has_of_offsets {f : SSTable} {v : Nat} {p : Nat × Nat}
    (h : f.offsets v = some p) : f.Has v :=
  f.offsets_isSome_iff.mp (by rw [h]; rfl)

/-- The compaction has not yet written the records of the vertex. -/
def Job.Pending (j : Job) (v : Nat) : Prop := ∃ r ∈ j.rest, r.src = v

instance (j : Job) (v : Nat) : Decidable (j.Pending v) :=
  inferInstanceAs (Decidable (∃ r ∈ j.rest, r.src = v))

/-- The inputs that are no longer in the list of the level of a slot. -/
def Job.retiredAt (j : Job) (slot : Nat) : List SSTable :=
  if slot = j.level then j.inputs1 else if slot + 1 = j.level then j.inputs0 else []

namespace Store

/-- The files to which a slot of the index of a vertex can point: those of the level, and the
inputs of a compaction that has not come to the vertex. -/
def filesFor (s : Store) (v slot : Nat) : List SSTable :=
  s.levels (slot + 1) ++ match s.job with
    | none => []
    | some j => if j.Pending v then j.retiredAt slot else []

/-- The inputs of the running compaction that are in no list. -/
def retired (s : Store) : List SSTable :=
  match s.job with
  | none => []
  | some j => j.inputs1 ++ if j.level = 0 then [] else j.inputs0

def diskLevels : List Nat := [1, 2, 3, 4]

def liveFiles (s : Store) : List SSTable :=
  s.level0 ++ (diskLevels.flatMap s.levels ++ s.retired)

theorem mem_liveFiles_of_level0 {s : Store} {f : SSTable} (h : f ∈ s.level0) : f ∈ s.liveFiles :=
  List.mem_append_left _ h

theorem mem_liveFiles_of_levels {s : Store} {f : SSTable} {slot : Nat} (hs : slot < levelIndexSize)
    (h : f ∈ s.levels (slot + 1)) : f ∈ s.liveFiles := by
  refine List.mem_append_right _ (List.mem_append_left _ (List.mem_flatMap.mpr ⟨slot + 1, ?_, h⟩))
  simp only [levelIndexSize, maxLevel] at hs
  simp only [diskLevels, List.mem_cons, List.not_mem_nil, or_false]
  omega

theorem mem_liveFiles_of_retired {s : Store} {f : SSTable} (h : f ∈ s.retired) :
    f ∈ s.liveFiles :=
  List.mem_append_right _ (List.mem_append_right _ h)

/-- An entry of the index is about the file of the list that holds the vertex, and is empty
when there is none. -/
structure EntryOf (files : List SSTable) (v : Nat) (e : LevelEntry) : Prop where
  points : ∀ f ∈ files, f.Has v → ∃ p, f.offsets v = some p ∧ e = ⟨f.timeStamp, p.1, p.2⟩
  backed : e.fileID ≠ invalidFileId → ∃ f ∈ files, f.Has v

theorem EntryOf.congr {files files' : List SSTable} {v : Nat} {e : LevelEntry}
    (h : EntryOf files v e) (hmem : ∀ f, f.Has v → (f ∈ files ↔ f ∈ files')) :
    EntryOf files' v e := by
  refine ⟨fun f hf hv => h.points f ((hmem f hv).mpr hf) hv, fun hne => ?_⟩
  obtain ⟨f, hf, hv⟩ := h.backed hne
  exact ⟨f, (hmem f hv).mp hf, hv⟩

/-! ## The invariant -/

/-- A running compaction. -/
structure JobWf (s : Store) (j : Job) : Prop where
  level_lt : j.level < levelIndexSize
  inputs0_level0 : j.level = 0 → j.inputs0.Sublist s.level0
  /-- what is left to write for a vertex are its records in the inputs -/
  rest_records : ∀ v, j.Pending v →
    (j.rest.filter (·.src = v)).Perm ((j.inputs0 ++ j.inputs1).flatMap (·.recordsOf v))
  /-- no file of the next level holds a vertex that is still to come -/
  next_free : ∀ v, j.Pending v → ∀ f ∈ s.levels (j.level + 1), ¬ f.Has v
  fid_lt : j.rest ≠ [] → j.fid < s.currentTime
  fid_fresh : j.rest ≠ [] → ∀ f ∈ s.liveFiles, f.timeStamp ≠ j.fid
  fid_mem : j.rest ≠ [] → ∀ t ∈ s.menTables, t.fid ≠ j.fid

structure Wf (s : Store) : Prop where
  time_le : s.currentTime ≤ invalidFileId
  live_nodup : (s.liveFiles.map SSTable.timeStamp).Nodup
  live_lt : ∀ f ∈ s.liveFiles, f.timeStamp < s.currentTime
  live_data : ∀ f ∈ s.liveFiles, s.sstData f.timeStamp = some f
  mem_nodup : (s.menTables.map MemTable.fid).Nodup
  mem_lt : ∀ t ∈ s.menTables, t.fid < s.currentTime
  mem_fresh : ∀ t ∈ s.menTables, ∀ f ∈ s.liveFiles, f.timeStamp ≠ t.fid
  index : ∀ v, ∀ slot < levelIndexSize, EntryOf (s.filesFor v slot) v ((s.index v).levels slot)
  job : ∀ j, s.job = some j → JobWf s j

/-! ## Reading through the index -/

variable {s : Store}

theorem mem_liveFiles_of_filesFor {v slot : Nat} {f : SSTable} (hs : slot < levelIndexSize)
    (h : f ∈ s.filesFor v slot) : f ∈ s.liveFiles := by
  unfold filesFor at h
  rcases List.mem_append.mp h with h | h
  · exact mem_liveFiles_of_levels hs h
  · cases hj : s.job with
    | none => simp [hj] at h
    | some j =>
      simp only [hj] at h
      split at h
      · unfold Job.retiredAt at h
        split at h
        · apply mem_liveFiles_of_retired
          simp [retired, hj, h]
        · split at h
          · rename_i hslot
            by_cases h0 : j.level = 0
            · omega
            · apply mem_liveFiles_of_retired
              simp [retired, hj, h0, h]
          · cases h
      · cases h

/-- Live files of one id are one file. -/
theorem eq_of_timeStamp_eq (hwf : Wf s) {f g : SSTable} (hf : f ∈ s.liveFiles)
    (hg : g ∈ s.liveFiles) (h : f.timeStamp = g.timeStamp) : f = g := by
  have h1 := hwf.live_data f hf
  have h2 := hwf.live_data g hg
  rw [h, h2] at h1
  exact (Option.some.inj h1).symm

/-- At most one file of a level holds a vertex. -/
theorem filesFor_unique (hwf : Wf s) {v slot : Nat} (hs : slot < levelIndexSize) {f g : SSTable}
    (hf : f ∈ s.filesFor v slot) (hg : g ∈ s.filesFor v slot) (hfv : f.Has v) (hgv : g.Has v) :
    f = g := by
  obtain ⟨p, -, hp⟩ := (hwf.index v slot hs).points f hf hfv
  obtain ⟨q, -, hq⟩ := (hwf.index v slot hs).points g hg hgv
  rw [hp] at hq
  exact eq_of_timeStamp_eq hwf (mem_liveFiles_of_filesFor hs hf)
    (mem_liveFiles_of_filesFor hs hg) (congrArg LevelEntry.fileID hq)

/-- A slot gives the records of the file that holds the vertex. -/
theorem sliceAt_of_has (hwf : Wf s) {v slot : Nat} (hs : slot < levelIndexSize) {f : SSTable}
    (hf : f ∈ s.filesFor v slot) (hv : f.Has v) : s.sliceAt v slot = f.recordsOf v := by
  obtain ⟨p, hp, he⟩ := (hwf.index v slot hs).points f hf hv
  have hlive := mem_liveFiles_of_filesFor hs hf
  have hne : f.timeStamp ≠ invalidFileId := by
    have := hwf.live_lt f hlive
    have := hwf.time_le
    omega
  unfold sliceAt
  simp only [he, if_neg hne, hwf.live_data f hlive, Option.map_some, Option.getD_some]
  exact SSTable.slice_of_offsets (by rw [hp])

theorem sliceAt_of_none (hwf : Wf s) {v slot : Nat} (hs : slot < levelIndexSize)
    (h : ∀ f ∈ s.filesFor v slot, ¬ f.Has v) : s.sliceAt v slot = [] := by
  unfold sliceAt
  by_cases he : ((s.index v).levels slot).fileID = invalidFileId
  · simp [he]
  · obtain ⟨f, hf, hv⟩ := (hwf.index v slot hs).backed he
    exact absurd hv (h f hf)

/-- A slot holds the records that the files of its level hold. -/
theorem mem_sliceAt (hwf : Wf s) {v slot : Nat} (hs : slot < levelIndexSize) {r : EdgeRecord} :
    r ∈ s.sliceAt v slot ↔ ∃ f ∈ s.filesFor v slot, r ∈ f.recordsOf v := by
  by_cases h : ∃ f ∈ s.filesFor v slot, f.Has v
  · obtain ⟨f, hf, hv⟩ := h
    rw [sliceAt_of_has hwf hs hf hv]
    constructor
    · exact fun hr => ⟨f, hf, hr⟩
    · rintro ⟨g, hg, hr⟩
      rw [filesFor_unique hwf hs hf hg hv (SSTable.mem_recordsOf_has hr)]
      exact hr
  · have hnone : ∀ f ∈ s.filesFor v slot, ¬ f.Has v := fun f hf hv => h ⟨f, hf, hv⟩
    rw [sliceAt_of_none hwf hs hnone]
    constructor
    · intro hr
      cases hr
    · rintro ⟨f, hf, hr⟩
      exact absurd (SSTable.mem_recordsOf_has hr) (hnone f hf)

theorem pairwise_recordsOf (f : SSTable) (v : Nat) : (f.recordsOf v).Pairwise EdgeRecord.le :=
  f.sorted.filter _

theorem sliceAt_sorted (hwf : Wf s) {v slot : Nat} (hs : slot < levelIndexSize) :
    (s.sliceAt v slot).Pairwise EdgeRecord.le ∧ ∀ r ∈ s.sliceAt v slot, r.src = v := by
  by_cases h : ∃ f ∈ s.filesFor v slot, f.Has v
  · obtain ⟨f, hf, hv⟩ := h
    rw [sliceAt_of_has hwf hs hf hv]
    exact ⟨pairwise_recordsOf f v, fun r hr => (SSTable.mem_recordsOf.mp hr).2⟩
  · rw [sliceAt_of_none hwf hs fun f hf hv => h ⟨f, hf, hv⟩]
    exact ⟨List.Pairwise.nil, by simp⟩

end Store

end RichGraph
