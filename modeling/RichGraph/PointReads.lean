-- `GetEdge`: each place gives its newest record of a key, and the places are
-- asked from new to old, so the answer comes from the newest record that was
-- put. This needs the order of the places, and without it an old record wins.
import RichGraph.ReadOrder

namespace RichGraph

open Compaction

namespace Store

variable {o : Options} {s s' : Store} {k : EdgeKey}

/-- `r` is the newest record of the key in the list. -/
abbrev NewestOf (k : EdgeKey) (es : List EdgeRecord) (r : Option EdgeRecord) : Prop :=
  Lib.Newest EdgeRecord.key EdgeRecord.seq es k r

/-! ## Each place gives its newest record -/

theorem newest_findInFile (f : SSTable) :
    NewestOf k (f.recordsOf k.src)
      ((findInFile k f).map (Found.record o.propertyLengths k.src)) := by
  have hmiss : ¬ f.Has k.src → NewestOf k (f.recordsOf k.src) none := by
    intro hv r hr
    exact absurd (SSTable.mem_recordsOf_has hr) hv
  unfold findInFile
  split
  · cases hoff : f.offsets k.src with
    | none =>
      apply hmiss
      intro hv
      obtain ⟨p, hp⟩ := hv.offsets
      rw [hoff] at hp
      cases hp
    | some p =>
      simp only [Option.bind_some, Option.map_map]
      rw [SSTable.slice_of_offsets hoff]
      have := newest_findEdgeByDstDirectionAndType (k := k)
        (fun r hr => (SSTable.mem_recordsOf.mp hr).2) (pairwise_recordsOf f k.src)
      simpa [Function.comp_def, Found.record] using this
  · rename_i hrange
    apply hmiss
    rintro ⟨r, hr, hrv⟩
    have h1 := SSTable.minKey_le hr
    have h2 := SSTable.le_maxKey hr
    omega

theorem newest_sliceAt (hwf : Wf s) {l : Nat} (hl : l < levelIndexSize) :
    NewestOf k (s.sliceAt k.src l)
      (findEdgeByDstDirectionAndType (s.sliceAt k.src l) k.dst k.isOut k.edgeType) := by
  obtain ⟨hsorted, hsrc⟩ := sliceAt_sorted hwf (v := k.src) hl
  exact newest_findEdgeByDstDirectionAndType hsrc hsorted

/-! ## The places in the order in which they are asked -/

theorem newest_findEdgeInMemtable (h : InOrder o s) (k : EdgeKey) :
    NewestOf k (s.menTables.flatMap (MemTable.recordsOf o.propertyLengths k.src))
      ((s.findEdgeInMemtable k).map (Found.record o.propertyLengths k.src)) := by
  have hfind : (s.findEdgeInMemtable k).map (Found.record o.propertyLengths k.src) =
      s.menTables.findSome? fun t => (t.get k).map (Edge.toRecord o.propertyLengths k.src) := by
    unfold findEdgeInMemtable
    rw [List.map_findSome?]
    simp only [Function.comp_def, Option.map_map, Found.record]
  rw [hfind]
  apply Lib.newest_findSome?
  · exact fun t ht => MemTable.newest_get k ((h.tables k).rising t ht)
  · -- At most one table holds the key.
    apply Lib.firstLeads_of_pairwise
    rw [List.pairwise_map]
    refine (List.pairwise_map.mp h.wf.mem_nodup).imp_of_mem ?_
    intro t t' ht ht' hne
    by_cases hold : HoldsKey k (t.recordsOf o.propertyLengths k.src)
    · exact Lib.Newer.of_not_holds_right fun hold' =>
        hne ((h.tables k).one_table t ht t' ht' hold hold')
    · exact Lib.Newer.of_not_holds hold

theorem level0_pairwise (h : InOrder o s) :
    s.level0.Pairwise fun f g => g.timeStamp < f.timeStamp := by
  have hnd := List.pairwise_map.mp (level0_nodup h.wf)
  refine (hnd.and h.fids.level0_sorted).imp ?_
  rintro f g ⟨hne, hle⟩
  omega

theorem newest_level0 (h : InOrder o s) (k : EdgeKey) {files : List SSTable}
    (hsub : files.Sublist s.level0) :
    NewestOf k (files.flatMap (·.recordsOf k.src))
      ((files.findSome? (findInFile k)).map (Found.record o.propertyLengths k.src)) := by
  rw [List.map_findSome?]
  apply Lib.newest_findSome?
  · exact fun f _ => newest_findInFile f
  · apply Lib.firstLeads_of_pairwise
    rw [List.pairwise_map]
    refine ((level0_pairwise h).sublist hsub).imp_of_mem ?_
    intro f g hf hg hlt
    exact (h.files k).level0 f (hsub.mem hf) g (hsub.mem hg) hlt

theorem newest_findEdgeByLevelindex (h : InOrder o s) (k : EdgeKey) :
    NewestOf k ((List.range levelIndexSize).flatMap (s.sliceAt k.src))
      ((s.findEdgeByLevelindex k).map (Found.record o.propertyLengths k.src)) := by
  have hfind : (s.findEdgeByLevelindex k).map (Found.record o.propertyLengths k.src) =
      (List.range levelIndexSize).findSome? fun l =>
        findEdgeByDstDirectionAndType (s.sliceAt k.src l) k.dst k.isOut k.edgeType := by
    unfold findEdgeByLevelindex
    rw [List.map_findSome?]
    simp [Function.comp_def, Option.map_map, Found.record]
  rw [hfind]
  apply Lib.newest_findSome?
  · exact fun l hl => newest_sliceAt h.wf (List.mem_range.mp hl)
  · exact (h.files k).slots.firstLeads

/-- A hit in level 0 is as new as everything in the slots. -/
theorem level0_covers_slots (h : InOrder o s) (k : EdgeKey)
    (hold : HoldsKey k (s.level0.flatMap (·.recordsOf k.src))) :
    Lib.Covers EdgeRecord.key EdgeRecord.seq (s.level0.flatMap (·.recordsOf k.src))
      ((List.range levelIndexSize).flatMap (s.sliceAt k.src)) k := by
  intro r hr hk
  obtain ⟨l, hl, hr⟩ := List.mem_flatMap.mp hr
  have hl := List.mem_range.mp hl
  obtain ⟨x, hx, hxk⟩ := hold
  obtain ⟨f, hf, hxf⟩ := List.mem_flatMap.mp hx
  by_cases hpick : f ∈ s.picked0
  · obtain ⟨y, hy, hyk, hle⟩ := (h.files k).picked_covers l hl
      ⟨x, List.mem_flatMap.mpr ⟨f, hpick, hxf⟩, hxk⟩ r hr hk
    obtain ⟨g, hg, hyg⟩ := List.mem_flatMap.mp hy
    exact ⟨y, List.mem_flatMap.mpr ⟨g, picked0_level0 h.wf hg, hyg⟩, hyk, hle⟩
  · exact ⟨x, hx, hxk, (h.files k).outside_slots f hf hpick l hl x hxf r hr hxk hk⟩

/-- A hit in a memtable is as new as everything on disk. -/
theorem tables_cover_disk (h : InOrder o s) (k : EdgeKey) {es : List EdgeRecord}
    (hes : ∀ r ∈ es, r ∈ s.onDisk k.src)
    (hold : HoldsKey k (s.menTables.flatMap (MemTable.recordsOf o.propertyLengths k.src))) :
    Lib.Covers EdgeRecord.key EdgeRecord.seq
      (s.menTables.flatMap (MemTable.recordsOf o.propertyLengths k.src)) es k := by
  refine Lib.Newer.covers ?_ hold
  intro x hx r hr
  obtain ⟨t, ht, hxt⟩ := List.mem_flatMap.mp hx
  exact (h.tables k).newer t ht x hxt r (hes r hr)

theorem newest_findForGet (h : InOrder o s) (k : EdgeKey) :
    NewestOf k (s.menTables.flatMap (MemTable.recordsOf o.propertyLengths k.src) ++ s.onDisk k.src)
      ((s.findForGet k).map (Found.record o.propertyLengths k.src)) := by
  unfold findForGet
  rw [Option.map_or, Option.map_or]
  refine (newest_findEdgeInMemtable h k).append ?_ (tables_cover_disk h k fun _ hr => hr)
  exact (newest_level0 h k (List.Sublist.refl _)).append (newest_findEdgeByLevelindex h k)
    (level0_covers_slots h k)

/-! ## The newest put -/

/-- The last put of a key. -/
def lastPut (s : Store) (k : EdgeKey) : Option (Nat × Edge) :=
  s.history.find? fun p => putKey p = k

theorem newest_lastPut (h : Tracked o s) (k : EdgeKey) :
    Lib.Newest putKey putSequence s.history k (s.lastPut k) := by
  apply Lib.newest_find?
  · simp
  · refine h.history_newer.imp ?_
    intro p q hpq hp hq
    exact Nat.le_of_lt (hpq (hp.trans hq.symm))

/-- Two puts of one key have different sequences. -/
theorem eq_of_putSequence_eq (h : Tracked o s) {p q : Nat × Edge} (hp : p ∈ s.history)
    (hq : q ∈ s.history) (hk : putKey p = putKey q) (hseq : putSequence p = putSequence q) :
    p = q := by
  by_contra hne
  have hall : s.history.Pairwise fun p q => putKey p = putKey q → putSequence p ≠ putSequence q :=
    h.history_newer.imp fun hpq hk => (Nat.ne_of_lt (hpq hk)).symm
  have : Std.Symm fun p q : Nat × Edge => putKey p = putKey q → putSequence p ≠ putSequence q :=
    ⟨fun _ _ hxy hk he => hxy hk.symm he.symm⟩
  exact hall.forall hp hq hne hk hseq

/-- The records that the store has of a vertex are those that were put. -/
theorem mem_contents_iff (h : Tracked o s) {v : Nat} {r : EdgeRecord} :
    r ∈ s.menTables.flatMap (MemTable.recordsOf o.propertyLengths v) ++ s.onDisk v ↔
      ∃ e, (v, e) ∈ s.history ∧ e.toRecord o.propertyLengths v = r := by
  rw [List.mem_append]
  constructor
  · rintro (hr | hr)
    · obtain ⟨t, ht, hr⟩ := List.mem_flatMap.mp hr
      obtain ⟨e, he, rfl⟩ := List.mem_map.mp hr
      exact ⟨e, h.tables t ht v e he, rfl⟩
    · exact h.disk v r hr
  · rintro ⟨e, he, rfl⟩
    rcases h.kept v e he with ⟨t, ht, het⟩ | hd
    · exact Or.inl (List.mem_flatMap.mpr ⟨t, ht, List.mem_map_of_mem het⟩)
    · exact Or.inr hd

/-- What a lookup finds is the last put of the key: the edge itself, or its record in a file. -/
theorem found_is_lastPut (htr : Tracked o s) {found : Option Found} {es : List EdgeRecord}
    (hes : ∀ r, r ∈ es ↔ ∃ e, (k.src, e) ∈ s.history ∧ e.toRecord o.propertyLengths k.src = r)
    (hmem : ∀ fid e, found = some (.inMemtable fid e) → (k.src, e) ∈ s.history)
    (h : NewestOf k es (found.map (Found.record o.propertyLengths k.src))) :
    (found = none ∧ s.lastPut k = none) ∨ ∃ e, s.lastPut k = some (k.src, e) ∧
      ((∃ fid, found = some (.inMemtable fid e)) ∨
        ∃ fid, found = some (.inFile fid (e.toRecord o.propertyLengths k.src))) := by
  have hlast := newest_lastPut htr k
  cases hf : found with
  | none =>
    left
    refine ⟨rfl, hlast.none_iff.mpr ?_⟩
    rintro ⟨p, hp, hpk⟩
    have hsrc : p.1 = k.src := congrArg EdgeKey.src hpk
    rw [hf] at h
    refine h (p.2.toRecord o.propertyLengths k.src)
      ((hes _).mpr ⟨p.2, by rw [← hsrc]; exact hp, rfl⟩) ?_
    rw [← hsrc]
    exact hpk
  | some x =>
    right
    -- The edge behind what was found, and that it is the newest of the key.
    obtain ⟨e, he, hrec, hx⟩ : ∃ e, (k.src, e) ∈ s.history ∧
        e.toRecord o.propertyLengths k.src = x.record o.propertyLengths k.src ∧
        ((∃ fid, x = .inMemtable fid e) ∨
          ∃ fid, x = .inFile fid (e.toRecord o.propertyLengths k.src)) := by
      cases x with
      | inMemtable fid e => exact ⟨e, hmem fid e hf, rfl, Or.inl ⟨fid, rfl⟩⟩
      | inFile fid r =>
        rw [hf] at h
        obtain ⟨e, he, hr⟩ := (hes _).mp h.1
        exact ⟨e, he, hr, Or.inr ⟨fid, by rw [hr]; rfl⟩⟩
    rw [hf, Option.map_some, ← hrec] at h
    obtain ⟨-, hkey, hmax⟩ := h
    have hwin : s.lastPut k = some (k.src, e) := by
      refine hlast.unique he hkey ?_ ?_
      · intro p hp hpk
        have hsrc : p.1 = k.src := congrArg EdgeKey.src hpk
        refine hmax (p.2.toRecord o.propertyLengths k.src)
          ((hes _).mpr ⟨p.2, by rw [← hsrc]; exact hp, rfl⟩) ?_
        rw [← hsrc]
        exact hpk
      · intro p hp q hq hpk hqk hseq
        exact eq_of_putSequence_eq htr hp hq (hpk.trans hqk.symm) hseq
    refine ⟨e, hwin, ?_⟩
    rcases hx with ⟨fid, rfl⟩ | ⟨fid, rfl⟩
    · exact Or.inl ⟨fid, rfl⟩
    · exact Or.inr ⟨fid, rfl⟩

/-- What a read has to answer from a put: nothing was put, or the put deletes the edge, or the
value of the column. A flush keeps of the value what fits its column. -/
def Answers (lengths : List Nat) (propertyId : Nat) :
    Option (Nat × Edge) → Except Status Bytes → Prop
  | none, a => a = .error .kNotFound
  | some p, a =>
    if p.2.marker then a = .error .kDelete
    else a = .ok (extractSubProperty p.2.property propertyId) ∨
      a = .ok (storedSubProperty lengths p.2.property propertyId)

theorem answers_of_found {found : Option Found} {propertyId : Nat}
    (h : (found = none ∧ s.lastPut k = none) ∨ ∃ e, s.lastPut k = some (k.src, e) ∧
      ((∃ fid, found = some (.inMemtable fid e)) ∨
        ∃ fid, found = some (.inFile fid (e.toRecord o.propertyLengths k.src)))) :
    Answers o.propertyLengths propertyId (s.lastPut k)
      (answer noDeltas k propertyId found) := by
  rcases h with ⟨rfl, hlast⟩ | ⟨e, hlast, ⟨fid, rfl⟩ | ⟨fid, rfl⟩⟩
  · rw [hlast]
    rfl
  · rw [hlast]
    cases hm : e.marker <;> simp [Answers, answer, Found.marker, Found.property, noDeltas, hm]
  · rw [hlast]
    cases hm : e.marker
    · simp only [Answers, answer, Found.marker, Found.property, hm, Edge.toRecord, noDeltas,
        Bool.false_eq_true, if_false, Option.getD_none]
      exact Or.inr rfl
    · simp [Answers, answer, Found.marker, hm, Edge.toRecord]

/-- What the memtables give was put. -/
theorem mem_history_of_memtable (htr : Tracked o s) {rest : Option Found}
    (hrest : ∀ fid e, rest ≠ some (.inMemtable fid e)) {fid : Nat} {e : Edge}
    (h : (s.findEdgeInMemtable k).or rest = some (.inMemtable fid e)) :
    (k.src, e) ∈ s.history := by
  rcases Option.or_eq_some_iff.mp h with h | ⟨-, h⟩
  · unfold findEdgeInMemtable at h
    obtain ⟨t, ht, hget⟩ := List.exists_of_findSome?_eq_some h
    obtain ⟨x, hx, hxe⟩ := Option.map_eq_some_iff.mp hget
    cases hxe
    exact htr.tables t ht k.src e (NewEdgeSL.mem_edges_of_get hx)
  · exact absurd h (hrest fid e)

theorem disk_ne_inMemtable {files : List SSTable} {fid : Nat} {e : Edge} :
    (files.findSome? (findInFile k)).or (s.findEdgeByLevelindex k) ≠
      some (.inMemtable fid e) := by
  intro h
  rcases Option.or_eq_some_iff.mp h with h | ⟨-, h⟩
  · obtain ⟨f, -, hf⟩ := List.exists_of_findSome?_eq_some h
    unfold findInFile at hf
    split at hf
    · obtain ⟨p, -, hp⟩ := Option.bind_eq_some_iff.mp hf
      obtain ⟨r, -, hr⟩ := Option.map_eq_some_iff.mp hp
      cases hr
    · cases hf
  · unfold findEdgeByLevelindex at h
    obtain ⟨l, -, hl⟩ := List.exists_of_findSome?_eq_some h
    obtain ⟨r, -, hr⟩ := Option.map_eq_some_iff.mp hl
    cases hr

theorem getEdge_answers (h : InOrder o s) (k : EdgeKey) (propertyId : Nat) :
    Answers o.propertyLengths propertyId (s.lastPut k) (s.getEdge noDeltas k propertyId) := by
  apply answers_of_found
  refine found_is_lastPut h.tracked (fun r => mem_contents_iff h.tracked) (fun fid e hf => ?_)
    (newest_findForGet h k)
  exact mem_history_of_memtable h.tracked (fun _ _ => disk_ne_inMemtable) hf

/-- In every run whose steps keep the order and lose no file, `GetEdge` answers from the put of
the key with the greatest sequence. -/
theorem get_edge_answers_from_the_newest_put {o : Options} {s : Store}
    (h : Lib.Reach (step o) (OrderedStep o) (initial o) s) (k : EdgeKey) (propertyId : Nat) :
    Lib.Newest putKey putSequence s.history k (s.lastPut k) ∧
      Answers o.propertyLengths propertyId (s.lastPut k) (s.getEdge noDeltas k propertyId) := by
  have hin := inOrder_of_reach h
  exact ⟨newest_lastPut hin.tracked k, getEdge_answers hin k propertyId⟩

/-- A small store: one edge fills a memtable, and every file fills its level. -/
def smallStore : Options :=
  { reserveNode := 2, maxEdgeNum := 1, maxEdgeNum_pos := Nat.one_pos, propertyLengths := [4],
    vertexNum := 16, vertexNum_le := by decide, maxEFileSize := 1000, maxEFileSize_gt := by decide,
    bodyBufferSize := 262144, levelMaxSize := fun _ => 1 }

/-- A put of `1 → 2`. -/
def putOneTwo (payload : Bytes) : Action := .putEdge 1 2 payload .kSingle true 0

theorem get_edge_answers_after_a_flush_and_a_compaction :
    ∃ s, (Lib.Reach (step smallStore) (OrderedStep smallStore) (initial smallStore) s ∧
        s.getEdge noDeltas ⟨1, 2, true, 0⟩ 0 = .ok (bytes "b") ∧ s.levels 1 ≠ []) ∧
      Lib.Newest putKey putSequence s.history ⟨1, 2, true, 0⟩ (s.lastPut ⟨1, 2, true, 0⟩) ∧
      Answers [4] 0 (s.lastPut ⟨1, 2, true, 0⟩) (s.getEdge noDeltas ⟨1, 2, true, 0⟩ 0) := by
  obtain ⟨s, hs, hp⟩ := Lib.exists_reach_of_run (step smallStore) (OrderedStep smallStore)
    (initial smallStore)
    [putOneTwo (bytes "a"), .sortAdjacency 0 1, .publish 0, putOneTwo (bytes "b"), .pick 0,
      .writeEnd, .publish 1, .finish]
    (fun s => s.getEdge noDeltas ⟨1, 2, true, 0⟩ 0 = .ok (bytes "b") ∧ s.levels 1 ≠ [])
    (by decide)
  exact ⟨s, ⟨hs, hp⟩, get_edge_answers_from_the_newest_put hs _ 0⟩

/-- Two puts of one edge and no flush: the table of the first put is asked first, and its value
is answered. -/
theorem get_edge_answers_from_an_older_table :
    ∃ s, Lib.Reach (step smallStore) (NoLoss smallStore) (initial smallStore) s ∧
      s.lastPut ⟨1, 2, true, 0⟩ = some (1, ⟨2, 1, false, bytes "b", true, 0⟩) ∧
      s.getEdge noDeltas ⟨1, 2, true, 0⟩ 0 = .ok (bytes "a") :=
  Lib.exists_reach_of_run (step smallStore) (NoLoss smallStore) (initial smallStore)
    [putOneTwo (bytes "a"), putOneTwo (bytes "b")]
    (fun s => s.lastPut ⟨1, 2, true, 0⟩ =
        some (1, ⟨2, 1, false, bytes "b", true, 0⟩) ∧
      s.getEdge noDeltas ⟨1, 2, true, 0⟩ 0 = .ok (bytes "a"))
    (by decide)

end Store

end RichGraph
