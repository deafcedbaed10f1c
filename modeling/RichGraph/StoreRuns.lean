-- What holds in every state of a run of the store, also while a compaction is
-- at work: no record is lost and none is made up, the index of a vertex leads
-- to its records, and file ids are never shared.
import RichGraph.PointReads
import RichGraph.Visible

namespace RichGraph

namespace Store

variable {o : Options} {s : Store}

theorem wf_and_tracked_of_reach (h : Lib.Reach (step o) (NoLoss o) (initial o) s) :
    Wf s ∧ Tracked o s := by
  apply h.invariant
  · exact ⟨wf_initial o, tracked_initial o⟩
  · intro s a s' hinv hok hs
    exact ⟨wf_step hinv.1 hok hs, tracked_step hinv.1 hok hinv.2 hs⟩

/-- Two flushes, and a compaction that has written its file and still has its inputs. -/
theorem reach_writing : ∃ s,
    Lib.Reach (step smallStore) (NoLoss smallStore) (initial smallStore) s ∧
    s.job.isSome = true ∧ ((s.index 1).levels 0).fileID ≠ invalidFileId :=
  Lib.exists_reach_of_run (step smallStore) (NoLoss smallStore) (initial smallStore)
    [putOneTwo (bytes "a"), .putEdge 1 3 (bytes "b") .kSingle true 0, .publish 0, .publish 1,
      .pick 0, .writeEnd]
    (fun s => s.job.isSome = true ∧ ((s.index 1).levels 0).fileID ≠ invalidFileId)
    (by decide +kernel)

/-- Flushes and compactions move records and keep them: what is in the memtables and on disk are
the records of the puts. -/
theorem the_store_holds_the_records_put (h : Lib.Reach (step o) (NoLoss o) (initial o) s) (v : Nat)
    (r : EdgeRecord) :
    r ∈ s.menTables.flatMap (MemTable.recordsOf o.propertyLengths v) ∨ r ∈ s.onDisk v ↔
      ∃ e, (v, e) ∈ s.history ∧ e.toRecord o.propertyLengths v = r := by
  have htracked := (wf_and_tracked_of_reach h).2
  constructor
  · rintro (hr | hr)
    · obtain ⟨t, ht, hr⟩ := List.mem_flatMap.mp hr
      obtain ⟨e, he, rfl⟩ := List.mem_map.mp hr
      exact ⟨e, htracked.tables t ht v e he, rfl⟩
    · exact htracked.disk v r hr
  · rintro ⟨e, he, rfl⟩
    refine (htracked.kept v e he).imp_left ?_
    rintro ⟨t, ht, hmem⟩
    exact List.mem_flatMap.mpr ⟨t, ht, List.mem_map_of_mem hmem⟩

theorem two_records_are_held_while_a_compaction_writes : ∃ s : Store, s.job.isSome = true ∧
    ∀ r, r ∈ s.menTables.flatMap (MemTable.recordsOf [4] 1) ∨
      r ∈ s.onDisk 1 ↔ ∃ e, (1, e) ∈ s.history ∧ e.toRecord [4] 1 = r := by
  obtain ⟨s, hs, hjob, -⟩ := reach_writing
  exact ⟨s, hjob, the_store_holds_the_records_put hs 1⟩

/-- An entry of the index names a file whose data is there, and its offsets cut out the records of
the vertex. Where there is no entry, no file of the level has the vertex. -/
theorem the_index_leads_to_the_records (h : Lib.Reach (step o) (NoLoss o) (initial o) s) (v : Nat)
    {slot : Nat} (hslot : slot < levelIndexSize) :
    (((s.index v).levels slot).fileID ≠ invalidFileId →
      ∃ f ∈ s.filesFor v slot, s.sstData ((s.index v).levels slot).fileID = some f ∧
        f.recordsOf v ≠ [] ∧
        f.slice ((s.index v).levels slot).offset ((s.index v).levels slot).nextOffset =
          f.recordsOf v) ∧
    (((s.index v).levels slot).fileID = invalidFileId →
      ∀ f ∈ s.filesFor v slot, f.recordsOf v = []) := by
  have hwf := wf_of_reach h
  have hentry := hwf.index v slot hslot
  constructor
  · intro hid
    obtain ⟨f, hf, hv⟩ := hentry.backed hid
    obtain ⟨p, hp, he⟩ := hentry.points f hf hv
    obtain ⟨r, hr, hrv⟩ := hv
    refine ⟨f, hf, ?_, List.ne_nil_of_mem (SSTable.mem_recordsOf.mpr ⟨hr, hrv⟩), ?_⟩
    · rw [he]
      exact hwf.live_data f (mem_liveFiles_of_filesFor hslot hf)
    · rw [he]
      exact SSTable.slice_of_offsets hp
  · intro hid f hf
    refine SSTable.recordsOf_eq_nil fun hv => ?_
    -- an entry for the file would have the id of the file, which is in range
    obtain ⟨p, -, he⟩ := hentry.points f hf hv
    have hlt := hwf.live_lt f (mem_liveFiles_of_filesFor hslot hf)
    rw [he] at hid
    exact absurd (hid ▸ hlt) (Nat.not_lt.mpr hwf.time_le)

theorem the_index_leads_on_while_a_compaction_writes : ∃ s : Store, s.job.isSome = true ∧
    ∃ f, s.sstData ((s.index 1).levels 0).fileID = some f ∧ f.recordsOf 1 ≠ [] := by
  obtain ⟨s, hs, hjob, hid⟩ := reach_writing
  obtain ⟨f, -, hdata, hne, -⟩ := (the_index_leads_to_the_records hs 1 (by decide)).1 hid
  exact ⟨s, hjob, f, hdata, hne⟩

/-- A scan that stops at the deepest level of the vertex reads as much as one of all levels. -/
theorem scans_may_stop_at_the_deepest_level (h : Lib.Reach (step o) (NoLoss o) (initial o) s)
    (v : Nat) : (s.scanSources o v).flatten =
      s.menTables.flatMap (MemTable.recordsOf o.propertyLengths v) ++
        ((s.level0.filter fun f =>
          (s.index v).minLevel0Fid ≤ f.timeStamp).flatMap (·.recordsOf v) ++
          (List.range levelIndexSize).flatMap (s.sliceAt v)) :=
  scanSources_flatten (levelsReached_of_reach h)

theorem a_scan_stops_while_a_compaction_writes : ∃ s : Store, s.job.isSome = true ∧
    (s.scanSources smallStore 1).flatten = s.visible smallStore 1 := by
  obtain ⟨s, hs, hjob, -⟩ := reach_writing
  exact ⟨s, hjob, scans_may_stop_at_the_deepest_level hs 1⟩

/-- Memtables, the files of all levels and the inputs of a running compaction have ids of their
own, and the next id is none of them. -/
theorem file_ids_are_not_shared (h : Lib.Reach (step o) (NoLoss o) (initial o) s) :
    (s.menTables.map MemTable.fid ++ s.liveFiles.map SSTable.timeStamp).Nodup ∧
    ∀ id ∈ s.menTables.map MemTable.fid ++ s.liveFiles.map SSTable.timeStamp,
      id < s.currentTime := by
  have hwf := wf_of_reach h
  constructor
  · refine List.nodup_append.mpr ⟨hwf.mem_nodup, hwf.live_nodup, ?_⟩
    intro id hid id' hid' heq
    obtain ⟨t, ht, rfl⟩ := List.mem_map.mp hid
    obtain ⟨f, hf, rfl⟩ := List.mem_map.mp hid'
    exact hwf.mem_fresh t ht f hf heq.symm
  · intro id hid
    rcases List.mem_append.mp hid with hid | hid
    · obtain ⟨t, ht, rfl⟩ := List.mem_map.mp hid
      exact hwf.mem_lt t ht
    · obtain ⟨f, hf, rfl⟩ := List.mem_map.mp hid
      exact hwf.live_lt f hf

theorem no_id_is_shared_while_a_compaction_writes : ∃ s : Store, s.job.isSome = true ∧
    (s.liveFiles.map SSTable.timeStamp).Nodup := by
  obtain ⟨s, hs, hjob, -⟩ := reach_writing
  exact ⟨s, hjob, (List.nodup_append.mp (file_ids_are_not_shared hs).1).2.1⟩

end Store

end RichGraph
