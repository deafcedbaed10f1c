-- Puts, sorts and flushes keep the invariant of the store, as long as file ids
-- are left; and where two files in use can differ.
import RichGraph.StoreInvariant
import RichGraph.Lib.Lists

namespace RichGraph

open Compaction

namespace Store

variable {o : Options} {s s' : Store}

theorem filesFor_congr (hl : s'.levels = s.levels) (hj : s'.job = s.job) (v slot : Nat) :
    s'.filesFor v slot = s.filesFor v slot := by
  unfold filesFor
  rw [hl, hj]

theorem liveFiles_congr (h0 : s'.level0 = s.level0) (hl : s'.levels = s.levels)
    (hj : s'.job = s.job) : s'.liveFiles = s.liveFiles := by
  unfold liveFiles retired
  rw [h0, hl, hj]

/-- Steps that only change the memtables keep the invariant, when the tables they add have new
ids. -/
theorem wf_of_memory (h : Wf s) (h0 : s'.level0 = s.level0) (hl : s'.levels = s.levels)
    (hj : s'.job = s.job) (hi : s'.index = s.index) (hd : s'.sstData = s.sstData)
    (ht : s.currentTime ≤ s'.currentTime) (htle : s'.currentTime ≤ invalidFileId)
    (hnd : (s'.menTables.map MemTable.fid).Nodup)
    (hmem : ∀ i ∈ s'.menTables.map MemTable.fid,
      i ∈ s.menTables.map MemTable.fid ∨ s.currentTime ≤ i ∧ i < s'.currentTime) : Wf s' := by
  have hlive := liveFiles_congr h0 hl hj
  have hfid : ∀ t ∈ s'.menTables, (∃ t₀ ∈ s.menTables, t₀.fid = t.fid) ∨
      s.currentTime ≤ t.fid ∧ t.fid < s'.currentTime := by
    intro t ht
    rcases hmem t.fid (List.mem_map_of_mem ht) with hold | hnew
    · exact Or.inl (List.mem_map.mp hold)
    · exact Or.inr hnew
  refine
    { time_le := htle, live_nodup := by rw [hlive]; exact h.live_nodup, live_lt := ?_,
      live_data := by rw [hlive, hd]; exact h.live_data, mem_nodup := hnd, mem_lt := ?_,
      mem_fresh := ?_, index := ?_, job := ?_ }
  · intro f hf
    rw [hlive] at hf
    exact Nat.lt_of_lt_of_le (h.live_lt f hf) ht
  · intro t htm
    rcases hfid t htm with ⟨t₀, ht₀, he⟩ | hnew
    · have := h.mem_lt t₀ ht₀
      omega
    · exact hnew.2
  · intro t htm f hf
    rw [hlive] at hf
    rcases hfid t htm with ⟨t₀, ht₀, he⟩ | hnew
    · rw [← he]
      exact h.mem_fresh t₀ ht₀ f hf
    · have := h.live_lt f hf
      omega
  · intro v slot hs
    rw [filesFor_congr hl hj, hi]
    exact h.index v slot hs
  · intro j hjob
    rw [hj] at hjob
    have hjw := h.job j hjob
    refine
      { level_lt := hjw.level_lt, inputs0_level0 := by rw [h0]; exact hjw.inputs0_level0,
        rest_records := hjw.rest_records, next_free := by rw [hl]; exact hjw.next_free,
        fid_lt := fun hr => Nat.lt_of_lt_of_le (hjw.fid_lt hr) ht,
        fid_fresh := by rw [hlive]; exact hjw.fid_fresh, fid_mem := ?_ }
    intro hr t htm
    rcases hfid t htm with ⟨t₀, ht₀, he⟩ | hnew
    · rw [← he]
      exact hjw.fid_mem hr t₀ ht₀
    · have := hjw.fid_lt hr
      omega

/-! ## Puts and sorts -/

section

variable (o : Options) (src : Nat) (e : Edge) (s : Store)

@[simp] theorem putRecord_level0 : (putRecord o src e s).level0 = s.level0 := by
  unfold putRecord; dsimp only; split <;> rfl

@[simp] theorem putRecord_levels : (putRecord o src e s).levels = s.levels := by
  unfold putRecord; dsimp only; split <;> rfl

@[simp] theorem putRecord_job : (putRecord o src e s).job = s.job := by
  unfold putRecord; dsimp only; split <;> rfl

@[simp] theorem putRecord_index : (putRecord o src e s).index = s.index := by
  unfold putRecord; dsimp only; split <;> rfl

@[simp] theorem putRecord_sstData : (putRecord o src e s).sstData = s.sstData := by
  unfold putRecord; dsimp only; split <;> rfl

@[simp] theorem putRecord_nextSequence :
    (putRecord o src e s).nextSequence = s.nextSequence := by
  unfold putRecord; dsimp only; split <;> rfl

@[simp] theorem putRecord_history : (putRecord o src e s).history = (src, e) :: s.history := by
  unfold putRecord; dsimp only; split <;> rfl

/-- The tables after a put: the old ones, with the edge in the last, and perhaps a new one. -/
theorem putRecord_tables :
    (putRecord o src e s).menTables = s.immutables ++ [s.active.putEdge o.reserveNode src e] ∧
        (putRecord o src e s).currentTime = s.currentTime ∨
      (putRecord o src e s).menTables = s.immutables ++ [s.active.putEdge o.reserveNode src e] ++
          [MemTable.fresh s.currentTime o.maxEdgeNum] ∧
        (putRecord o src e s).currentTime = s.currentTime + 1 := by
  unfold putRecord
  dsimp only
  split
  · exact Or.inr ⟨rfl, rfl⟩
  · exact Or.inl ⟨rfl, rfl⟩

end

theorem map_fid_putRecord (src : Nat) (e : Edge) :
    (s.immutables ++ [s.active.putEdge o.reserveNode src e]).map MemTable.fid =
      s.menTables.map MemTable.fid := by
  simp [menTables, MemTable.putEdge]

theorem wf_putRecord (src : Nat) (e : Edge) (h : Wf s) (ht : s.currentTime < invalidFileId) :
    Wf (putRecord o src e s) ∧ (putRecord o src e s).currentTime ≤ s.currentTime + 1 := by
  have hnd := h.mem_nodup
  rw [← map_fid_putRecord (o := o) src e] at hnd
  rcases putRecord_tables o src e s with ⟨htab, htime⟩ | ⟨htab, htime⟩
  · refine ⟨wf_of_memory h (by simp) (by simp) (by simp) (by simp) (by simp)
      (by omega) (by omega) (by rw [htab]; exact hnd) ?_, by omega⟩
    intro i hi
    rw [htab, map_fid_putRecord] at hi
    exact Or.inl hi
  · refine ⟨wf_of_memory h (by simp) (by simp) (by simp) (by simp) (by simp)
      (by omega) (by omega) ?_ ?_, by omega⟩
    · rw [htab, List.map_append, List.nodup_append]
      refine ⟨hnd, List.nodup_singleton _, ?_⟩
      intro a ha b hb
      rw [map_fid_putRecord] at ha
      obtain ⟨t, htm, rfl⟩ := List.mem_map.mp ha
      have := h.mem_lt t htm
      simp only [List.map_cons, List.map_nil, List.mem_singleton, MemTable.fresh] at hb
      omega
    · intro i hi
      rw [htab, List.map_append, List.mem_append, map_fid_putRecord] at hi
      rcases hi with hi | hi
      · exact Or.inl hi
      · simp only [List.map_cons, List.map_nil, List.mem_singleton, MemTable.fresh] at hi
        exact Or.inr (by omega)

/-- A put is one record, or two of one sequence. -/
theorem putEdge_cases {src dst : Nat} {payload : Bytes} {mode : EdgeInsertMode} {isOut : Bool}
    {edgeType : UInt8} (h : putEdge o src dst payload mode isOut edgeType s = some s') :
    ∃ e : Edge, e.sequence = s.nextSequence ∧ e.destination = dst ∧ e.isOut = isOut ∧
      e.edgeType = edgeType ∧ e.property = payload ∧ e.marker = decide (payload = deletedPayload) ∧
      (s' = putRecord o src e { s with nextSequence := s.nextSequence + 1 } ∨
        ∃ e' : Edge, e'.sequence = s.nextSequence ∧ e'.destination = src ∧ e'.isOut = !isOut ∧
          e'.edgeType = edgeType ∧ e'.property = payload ∧
          e'.marker = decide (payload = deletedPayload) ∧ mode = .kBidirectional ∧
          s' = putRecord o dst e'
            (putRecord o src e { s with nextSequence := s.nextSequence + 1 })) := by
  unfold putEdge at h
  split at h
  · refine ⟨⟨dst, s.nextSequence, decide (payload = deletedPayload), payload, isOut, edgeType⟩,
      rfl, rfl, rfl, rfl, rfl, rfl, ?_⟩
    cases mode with
    | kSingle =>
      cases h
      exact Or.inl rfl
    | kBidirectional =>
      cases h
      exact Or.inr ⟨⟨src, s.nextSequence, decide (payload = deletedPayload), payload, !isOut,
        edgeType⟩, rfl, rfl, rfl, rfl, rfl, rfl, rfl, rfl⟩
  · cases h

theorem nextSequence_lt_of_putEdge {src dst : Nat} {payload : Bytes} {mode : EdgeInsertMode}
    {isOut : Bool} {edgeType : UInt8}
    (h : putEdge o src dst payload mode isOut edgeType s = some s') :
    s.nextSequence < maxSeqId := by
  unfold putEdge at h
  split at h
  · rename_i hfit
    exact hfit.2.2
  · cases h

theorem wf_nextSequence (h : Wf s) (n : Nat) : Wf { s with nextSequence := n } :=
  wf_of_memory h rfl rfl rfl rfl rfl (Nat.le_refl _) h.time_le h.mem_nodup fun _ hi => Or.inl hi

theorem wf_putEdge {src dst : Nat} {payload : Bytes} {mode : EdgeInsertMode} {isOut : Bool}
    {edgeType : UInt8} (hwf : Wf s) (ht : s.currentTime + 2 ≤ invalidFileId)
    (h : putEdge o src dst payload mode isOut edgeType s = some s') : Wf s' := by
  have h1 := wf_nextSequence hwf (s.nextSequence + 1)
  obtain ⟨e, -, -, -, -, -, -, hs⟩ := putEdge_cases h
  obtain ⟨h2, htime⟩ := wf_putRecord (o := o) src e h1 (by dsimp only; omega)
  rcases hs with rfl | ⟨e', -, -, -, -, -, -, -, rfl⟩
  · exact h2
  · dsimp only at htime
    exact (wf_putRecord _ _ h2 (by omega)).1

theorem map_fid_sortAdjacency (fid src : Nat) (ts : List MemTable) :
    (ts.map fun t => if t.fid = fid then t.sortAdjacency src else t).map MemTable.fid =
      ts.map MemTable.fid := by
  rw [List.map_map]
  apply List.map_congr_left
  intro t _
  simp only [Function.comp_apply]
  split
  · exact MemTable.fid_sortAdjacency t src
  · rfl

theorem wf_sortAdjacency {fid src : Nat} (hwf : Wf s) (h : sortAdjacency fid src s = some s') :
    Wf s' := by
  unfold sortAdjacency at h
  split at h
  · cases h
    have hfid : (menTables { s with
        immutables := s.immutables.map fun t => if t.fid = fid then t.sortAdjacency src else t
        vertexMaxLevel := fun v =>
          if v = src then max (s.vertexMaxLevel v) 1 else s.vertexMaxLevel v }).map MemTable.fid =
        s.menTables.map MemTable.fid := by
      simp only [menTables, List.map_append, map_fid_sortAdjacency]
    refine wf_of_memory hwf rfl rfl rfl rfl rfl (Nat.le_refl _) hwf.time_le ?_ ?_
    · rw [hfid]
      exact hwf.mem_nodup
    · intro i hi
      rw [hfid] at hi
      exact Or.inl hi
  · cases h

/-! ## Flushes -/

theorem publish_cases {fid : Nat} (h : publish o fid s = some s') :
    ∃ t f, t ∈ s.immutables ∧ t.fid = fid ∧
      t.save2eSSTable o.propertyLengths o.vertexNum o.vertexNum_le = some f ∧
      s' = { s with
        immutables := s.immutables.filter (·.fid != fid)
        level0 := s.level0.orderedInsert (fun a b => b.timeStamp ≤ a.timeStamp) f
        sstData := fun i => if i = fid then some f else s.sstData i
        vertexMaxLevel := fun v =>
          if f.records.any (·.src == v) then max (s.vertexMaxLevel v) 1
          else s.vertexMaxLevel v } := by
  simp only [publish, Option.bind_eq_bind, Option.bind_eq_some_iff, Option.pure_def,
    Option.some.injEq] at h
  obtain ⟨t, ht, f, hf, rfl⟩ := h
  exact ⟨t, f, List.mem_of_find?_eq_some ht, by simpa using List.find?_some ht, hf, rfl⟩

theorem mem_menTables_of_immutables {t : MemTable} (h : t ∈ s.immutables) : t ∈ s.menTables :=
  List.mem_append_left _ h

theorem wf_publish {fid : Nat} (hwf : Wf s) (h : publish o fid s = some s') : Wf s' := by
  obtain ⟨t, f, ht, rfl, hf, rfl⟩ := publish_cases h
  have hts : f.timeStamp = t.fid := (MemTable.save2eSSTable_spec hf).1
  have htm := mem_menTables_of_immutables ht
  have hfresh := hwf.mem_fresh t htm
  set s' : Store := { s with
    immutables := s.immutables.filter (·.fid != t.fid)
    level0 := s.level0.orderedInsert (fun a b => b.timeStamp ≤ a.timeStamp) f
    sstData := fun i => if i = t.fid then some f else s.sstData i
    vertexMaxLevel := fun v =>
      if f.records.any (·.src == v) then max (s.vertexMaxLevel v) 1 else s.vertexMaxLevel v }
    with hs'
  have hlive : s'.liveFiles.Perm (f :: s.liveFiles) := by
    exact (List.perm_orderedInsert _ f s.level0).append_right _
  have hsub : s'.menTables.Sublist s.menTables := List.filter_sublist.append_right _
  have hrest : ∀ t' ∈ s'.menTables, t'.fid ≠ t.fid := by
    intro t' ht'
    rcases List.mem_append.mp ht' with ht' | ht'
    · simpa using List.of_mem_filter ht'
    · have hnd := hwf.mem_nodup
      rw [menTables, List.map_append, List.nodup_append] at hnd
      intro he
      exact hnd.2.2 t.fid (List.mem_map_of_mem ht) t'.fid (List.mem_map_of_mem ht') he.symm
  refine
    { time_le := hwf.time_le, live_nodup := ?_, live_lt := ?_, live_data := ?_,
      mem_nodup := hwf.mem_nodup.sublist (hsub.map _),
      mem_lt := fun t' ht' => hwf.mem_lt t' (hsub.mem ht'), mem_fresh := ?_,
      index := hwf.index, job := ?_ }
  · rw [(hlive.map _).nodup_iff, List.map_cons, List.nodup_cons]
    refine ⟨?_, hwf.live_nodup⟩
    intro hin
    obtain ⟨g, hg, he⟩ := List.mem_map.mp hin
    exact hfresh g hg (he.trans hts)
  · intro g hg
    rcases List.mem_cons.mp (hlive.mem_iff.mp hg) with rfl | hg
    · rw [hts]
      exact hwf.mem_lt t htm
    · exact hwf.live_lt g hg
  · intro g hg
    rcases List.mem_cons.mp (hlive.mem_iff.mp hg) with rfl | hg
    · simp [hs', hts]
    · simp only [hs', if_neg (hfresh g hg)]
      exact hwf.live_data g hg
  · intro t' ht' g hg
    rcases List.mem_cons.mp (hlive.mem_iff.mp hg) with rfl | hg
    · rw [hts]
      exact (hrest t' ht').symm
    · exact hwf.mem_fresh t' (hsub.mem ht') g hg
  · intro j hj
    have hjw := hwf.job j hj
    refine
      { level_lt := hjw.level_lt, rest_records := hjw.rest_records, next_free := hjw.next_free,
        fid_lt := hjw.fid_lt,
        inputs0_level0 := fun h0 =>
          (hjw.inputs0_level0 h0).trans (List.sublist_orderedInsert f s.level0),
        fid_fresh := ?_, fid_mem := fun hr t' ht' => hjw.fid_mem hr t' (hsub.mem ht') }
    intro hr g hg
    rcases List.mem_cons.mp (hlive.mem_iff.mp hg) with rfl | hg
    · rw [hts]
      exact hjw.fid_mem hr t htm
    · exact hjw.fid_fresh hr g hg

/-! ## Files of different places -/

theorem flatMap_setLevel {ls : List Nat} (hnd : ls.Nodup) {k : Nat} (hk : k ∈ ls)
    {f : Nat → List SSTable} {A B : List SSTable} (h : (f k).Perm (A ++ B)) :
    (ls.flatMap f).Perm (ls.flatMap (setLevel k A f) ++ B) := by
  induction ls with
  | nil => cases hk
  | cons l ls ih =>
    rw [List.nodup_cons] at hnd
    rw [List.flatMap_cons, List.flatMap_cons]
    rcases List.mem_cons.mp hk with rfl | hk
    · have hrest : ls.flatMap (setLevel k A f) = ls.flatMap f := by
        apply List.flatMap_congr
        intro l hl
        have hne : l ≠ k := fun he => hnd.1 (he ▸ hl)
        simp [setLevel, hne]
      rw [hrest]
      have hself : setLevel k A f k = A := by simp [setLevel]
      rw [hself]
      refine (h.append_right _).trans ?_
      rw [List.append_assoc, List.append_assoc]
      exact (List.perm_append_comm).append_left _
    · have hne : l ≠ k := fun he => hnd.1 (he ▸ hk)
      have hself : setLevel k A f l = f l := by simp [setLevel, hne]
      rw [hself, List.append_assoc]
      exact (ih hnd.2 hk).append_left _

theorem diskLevels_nodup : diskLevels.Nodup := by decide

theorem mem_diskLevels {slot : Nat} (h : slot < levelIndexSize) : slot + 1 ∈ diskLevels := by
  simp only [levelIndexSize, maxLevel] at h
  simp only [diskLevels, List.mem_cons, List.not_mem_nil, or_false]
  omega

theorem levels_sublist {l : Nat} (h : l ∈ diskLevels) :
    (s.levels l).Sublist (diskLevels.flatMap s.levels) :=
  List.sublist_flatten_of_mem (List.mem_map_of_mem h)

theorem levels_nodup (hwf : Wf s) {l : Nat} (h : l ∈ diskLevels) :
    ((s.levels l).map SSTable.timeStamp).Nodup :=
  hwf.live_nodup.sublist (((levels_sublist h).trans
    ((List.sublist_append_left _ _).trans (List.sublist_append_right _ _))).map _)

theorem level0_nodup (hwf : Wf s) : (s.level0.map SSTable.timeStamp).Nodup :=
  hwf.live_nodup.sublist ((List.sublist_append_left _ _).map _)

theorem timeStamp_ne_of_level0 (hwf : Wf s) {f g : SSTable} (hf : f ∈ s.level0)
    (hg : g ∈ diskLevels.flatMap s.levels ∨ g ∈ s.retired) : f.timeStamp ≠ g.timeStamp := by
  have hnd := hwf.live_nodup
  rw [liveFiles, List.map_append, List.nodup_append] at hnd
  refine hnd.2.2 _ (List.mem_map_of_mem hf) _ (List.mem_map_of_mem ?_)
  rcases hg with hg | hg
  · exact List.mem_append_left _ hg
  · exact List.mem_append_right _ hg

theorem timeStamp_ne_of_levels (hwf : Wf s) {f g : SSTable} {l : Nat} (hl : l ∈ diskLevels)
    (hf : f ∈ s.levels l) (hg : g ∈ s.retired) : f.timeStamp ≠ g.timeStamp := by
  have hnd := hwf.live_nodup
  rw [liveFiles, List.map_append, List.nodup_append] at hnd
  have hnd' := hnd.2.1
  rw [List.map_append, List.nodup_append] at hnd'
  exact hnd'.2.2 _ (List.mem_map_of_mem ((levels_sublist hl).mem hf)) _ (List.mem_map_of_mem hg)

theorem mem_removeCache {inputs files : List SSTable} {f : SSTable} :
    f ∈ removeCache inputs files ↔ f ∈ files ∧ ∀ g ∈ inputs, g.timeStamp ≠ f.timeStamp := by
  unfold removeCache
  rw [List.mem_filter]
  simp

theorem perm_removeCache {inputs files : List SSTable} (hsub : inputs.Sublist files)
    (hnd : (files.map SSTable.timeStamp).Nodup) :
    files.Perm (removeCache inputs files ++ inputs) :=
  Lib.perm_filter_not_contains_append hsub hnd

theorem mem_retired_inputs1 {j : Job} (hj : s.job = some j) {f : SSTable} (h : f ∈ j.inputs1) :
    f ∈ s.retired := by
  simp [retired, hj, h]

theorem mem_retired_inputs0 {j : Job} (hj : s.job = some j) (h0 : j.level ≠ 0) {f : SSTable}
    (h : f ∈ j.inputs0) : f ∈ s.retired := by
  simp [retired, hj, h0, h]

end Store

end RichGraph
