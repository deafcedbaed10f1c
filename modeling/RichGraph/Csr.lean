-- The CSR mode: a rebuild collects the live records of the visible files, source
-- by source, writes them into files of its own and publishes a snapshot, which
-- the reads ask after the memtables in the place of the levels.
import RichGraph.PointReads
import RichGraph.Visible

namespace RichGraph

open Compaction

/-- The settings of a rebuild. -/
structure CsrOptions where
  maxVertexNum : Nat
  /-- `FLAGS_thread_num` -/
  threadNum : Nat
  /-- `FLAGS_csr_topo_soft_limit_mb` -/
  topoSoftLimitMb : Nat

def CsrOptions.topoSoftLimit (c : CsrOptions) : Nat := max 1 c.topoSoftLimitMb * 2 ^ 20

/-! ## The sources of a rebuild -/

/-- The metadata of a visible file, and its data. -/
structure CsrSourceFileView where
  cache : SSTable
  sstData : SSTable

/-- `add_source_file` in turn for the files of a list. An id counts once, and a file without data
is left out. -/
def addSourceFiles (s : Store) : List Nat → List SSTable → List CsrSourceFileView
  | _, [] => []
  | visited, f :: files =>
    if f.timeStamp ∈ visited then addSourceFiles s visited files
    else ((s.sstData f.timeStamp).map (CsrSourceFileView.mk f)).toList ++
      addSourceFiles s (f.timeStamp :: visited) files

/-- The files of level 0 and of the lists of the deeper levels, from new to old. -/
def csrSourceFiles (s : Store) : List CsrSourceFileView :=
  (addSourceFiles s [] (s.level0 ++ Store.diskLevels.flatMap s.levels)).insertionSort
    fun a b => b.cache.timeStamp ≤ a.cache.timeStamp

/-- The sources of all files in order, each once. -/
def allSrc (views : List CsrSourceFileView) : List Nat :=
  (((views.flatMap fun v => v.cache.indexes.dropLast.map Index.key).filter
    (· ≠ invalidVertexId)).insertionSort (· ≤ ·)).dedup

/-- `CSRSelectedEdgeRefLess` -/
def CsrSelectedLess (a b : EdgeRecord) : Prop :=
  a.dst < b.dst ∨ a.dst = b.dst ∧ (b.seq < a.seq ∨ a.seq = b.seq ∧
    (b.isOut < a.isOut ∨ a.isOut = b.isOut ∧ a.edgeType < b.edgeType))

instance : DecidableRel CsrSelectedLess := fun _ _ => inferInstanceAs (Decidable (_ ∨ _))

/-- The bodies that a file has for a source. A body does not name its source. -/
def CsrSourceFileView.edgesOf (src : Nat) (v : CsrSourceFileView) : List EdgeRecord :=
  if v.cache.minKey ≤ src ∧ src ≤ v.cache.maxKey then
    (((v.cache.offsets src).map fun p => v.sstData.slice p.1 p.2).getD []).map fun r =>
      { r with src }
  else []

/-- `collect_selected_edges_for_src`: all live versions; a tombstone is passed over. -/
def collectSelectedEdgesForSrc (views : List CsrSourceFileView) (src : Nat) : List EdgeRecord :=
  ((views.flatMap (CsrSourceFileView.edgesOf src)).filter fun r => !r.marker).insertionSort
    fun a b => ¬ CsrSelectedLess b a

/-! ## The files that a rebuild writes -/

/-- `csr_merge_threads` -/
def csrMergeThreads (c : CsrOptions) (srcNum : Nat) : Nat :=
  min (min 8 (max 1 (c.threadNum / 2))) srcNum

/-- `batch_ranges`: runs of about the same length. -/
def csrBatches (batchNum : Nat) (srcs : List Nat) : List (List Nat) :=
  (List.range batchNum).map fun i =>
    (srcs.drop (srcs.length * i / batchNum)).take
      (srcs.length * (i + 1) / batchNum - srcs.length * i / batchNum)

/-- The loop over the sources of a batch. `builder` are the sources of the open file; a file that
is over the limit is closed when a next source comes. -/
def buildBatch (limit : Nat) (selected : Nat → List EdgeRecord) :
    List Nat → Bool → List Nat → List (List Nat)
  | builder, _, [] => if builder = [] then [] else [builder]
  | builder, overflowed, src :: srcs =>
    if selected src = [] then buildBatch limit selected builder overflowed srcs
    else if overflowed ∧ builder ≠ [] then
      builder :: buildBatch limit selected [src]
        (decide (limit < curSize (selected src).length 1)) srcs
    else
      buildBatch limit selected (builder ++ [src]) (overflowed ||
        decide (limit < curSize ((builder ++ [src]).flatMap selected).length
          (builder.length + 1))) srcs

/-- The sources of each file of a rebuild. -/
def csrFileSources (c : CsrOptions) (views : List CsrSourceFileView) : List (List Nat) :=
  (csrBatches (csrMergeThreads c (allSrc views).length) (allSrc views)).flatMap
    (buildBatch c.topoSoftLimit (collectSelectedEdgesForSrc views) [] false)

section

variable (c : CsrOptions) (views : List CsrSourceFileView)

theorem collected_src (v : Nat) : ∀ r ∈ collectSelectedEdgesForSrc views v, r.src = v := by
  intro r hr
  unfold collectSelectedEdgesForSrc at hr
  rw [List.mem_insertionSort] at hr
  obtain ⟨view, -, hr⟩ := List.mem_flatMap.mp (List.mem_of_mem_filter hr)
  unfold CsrSourceFileView.edgesOf at hr
  split at hr
  · obtain ⟨x, -, rfl⟩ := List.mem_map.mp hr
    rfl
  · cases hr

instance : Std.Total fun a b : EdgeRecord => ¬ CsrSelectedLess b a := ⟨fun a b => by
  simp only [CsrSelectedLess, Bool.lt_iff, UInt8.lt_iff_toNat_lt]
  cases a.isOut <;> cases b.isOut <;> simp <;> omega⟩

instance : IsTrans EdgeRecord fun a b => ¬ CsrSelectedLess b a := ⟨fun a b c => by
  simp only [CsrSelectedLess, Bool.lt_iff, UInt8.lt_iff_toNat_lt]
  cases a.isOut <;> cases b.isOut <;> cases c.isOut <;> simp <;> omega⟩

theorem collected_sorted (v : Nat) :
    (collectSelectedEdgesForSrc views v).Pairwise EdgeRecord.le := by
  have hsorted := List.pairwise_insertionSort (fun a b : EdgeRecord => ¬ CsrSelectedLess b a)
    ((views.flatMap (CsrSourceFileView.edgesOf v)).filter fun r => !r.marker)
  refine hsorted.imp_of_mem ?_
  intro a b ha hb hab
  have hsa := collected_src views v a ha
  have hsb := collected_src views v b hb
  rw [EdgeRecord.le_iff]
  unfold CsrSelectedLess at hab
  omega

/-- The sources that have edges stand in the files of a batch, in order. -/
theorem flatten_buildBatch {limit : Nat} {selected : Nat → List EdgeRecord} (builder : List Nat)
    (overflowed : Bool) (srcs : List Nat) :
    (buildBatch limit selected builder overflowed srcs).flatten =
      builder ++ srcs.filter fun v => selected v ≠ [] := by
  induction srcs generalizing builder overflowed with
  | nil =>
    unfold buildBatch
    split
    · rename_i hnil
      simp [hnil]
    · simp
  | cons v srcs ih =>
    unfold buildBatch
    split
    · rename_i hnil
      rw [ih, List.filter_cons_of_neg (by simpa using hnil)]
    · rename_i hne
      rw [List.filter_cons_of_pos (by simpa using hne)]
      split
      · rw [List.flatten_cons, ih, List.singleton_append]
      · rw [ih, List.append_assoc, List.singleton_append]

theorem ne_nil_of_mem_buildBatch {limit : Nat} {selected : Nat → List EdgeRecord}
    (builder : List Nat) (overflowed : Bool) (srcs : List Nat) :
    ∀ file ∈ buildBatch limit selected builder overflowed srcs, file ≠ [] := by
  induction srcs generalizing builder overflowed with
  | nil =>
    unfold buildBatch
    split
    · simp
    · rename_i hne
      simpa using hne
  | cons v srcs ih =>
    unfold buildBatch
    split
    · exact ih _ _
    · split
      · rename_i hcond
        intro file hfile
        rcases List.mem_cons.mp hfile with rfl | hfile
        · exact hcond.2
        · exact ih _ _ file hfile
      · exact ih _ _

/-- The runs of the batches make up the whole list. -/
theorem flatten_csrBatches {batchNum : Nat} (hpos : 0 < batchNum) (srcs : List Nat) :
    (csrBatches batchNum srcs).flatten = srcs := by
  have htake : ∀ n, ((List.range n).map fun i =>
      (srcs.drop (srcs.length * i / batchNum)).take
        (srcs.length * (i + 1) / batchNum - srcs.length * i / batchNum)).flatten =
      srcs.take (srcs.length * n / batchNum) := by
    intro n
    induction n with
    | zero => simp
    | succ n ih =>
      have hle : srcs.length * n / batchNum ≤ srcs.length * (n + 1) / batchNum :=
        Nat.div_le_div_right (Nat.mul_le_mul_left _ (Nat.le_succ n))
      rw [List.range_succ, List.map_append, List.flatten_append, ih, List.map_singleton,
        List.flatten_singleton, ← List.take_add, Nat.add_sub_cancel' hle]
  unfold csrBatches
  rw [htake, Nat.mul_div_cancel _ hpos, List.take_length]

theorem allSrc_pairwise : (allSrc views).Pairwise (· < ·) := by
  have hsorted : (allSrc views).Pairwise (· ≤ ·) :=
    (List.pairwise_insertionSort (· ≤ ·) _).sublist (List.dedup_sublist _)
  exact (hsorted.and (List.nodup_dedup _)).imp fun ⟨hle, hne⟩ => Nat.lt_of_le_of_ne hle hne

theorem mem_allSrc {v : Nat} : v ∈ allSrc views ↔
    v ≠ invalidVertexId ∧ ∃ view ∈ views, ∃ i ∈ view.cache.indexes.dropLast, i.key = v := by
  unfold allSrc
  rw [List.mem_dedup, List.mem_insertionSort, List.mem_filter, List.mem_flatMap, and_comm]
  simp only [decide_eq_true_eq, List.mem_map]

theorem SSTable.key_le_invalid {f : SSTable} {i : Index} (hi : i ∈ f.indexes) :
    i.key ≤ invalidVertexId := by
  have hkey : i.key ∈ f.indexes.map Index.key := List.mem_map_of_mem hi
  rcases ((indexFrom_keys 0 none f.src_sorted (by simp) f.src_lt).2 i.key).mp hkey with
    heq | ⟨-, r, hr, hsrc⟩
  · exact Nat.le_of_eq heq
  · rw [← hsrc]
    exact Nat.le_of_lt (f.src_lt r hr)

theorem lt_of_mem_allSrc {v : Nat} (h : v ∈ allSrc views) : v < invalidVertexId := by
  obtain ⟨hne, view, -, i, hi, rfl⟩ := (mem_allSrc views).mp h
  exact Nat.lt_of_le_of_ne (SSTable.key_le_invalid (List.mem_of_mem_dropLast hi)) hne

/-- The files have the sources that have live records. -/
theorem flatten_csrFileSources : (csrFileSources c views).flatten =
    (allSrc views).filter fun v => collectSelectedEdgesForSrc views v ≠ [] := by
  have hall : (csrBatches (csrMergeThreads c (allSrc views).length) (allSrc views)).flatten =
      allSrc views := by
    by_cases hnil : allSrc views = []
    · simp [hnil, csrMergeThreads, csrBatches]
    · have := List.length_pos_iff.mpr hnil
      apply flatten_csrBatches
      unfold csrMergeThreads
      omega
  conv_rhs => rw [← hall]
  unfold csrFileSources
  generalize csrBatches (csrMergeThreads c (allSrc views).length) (allSrc views) = batches
  induction batches with
  | nil => rfl
  | cons batch batches ih =>
    rw [List.flatMap_cons, List.flatten_append, ih, flatten_buildBatch, List.nil_append,
      List.flatten_cons, List.filter_append]

variable {c views}

theorem csrFileSources_spec {srcs : List Nat} (h : srcs ∈ csrFileSources c views) :
    srcs ≠ [] ∧ srcs.Pairwise (· < ·) ∧
      ∀ v ∈ srcs, v < invalidVertexId ∧ collectSelectedEdgesForSrc views v ≠ [] := by
  have hsub : srcs.Sublist ((allSrc views).filter fun v =>
      collectSelectedEdgesForSrc views v ≠ []) :=
    flatten_csrFileSources c views ▸ List.sublist_flatten_of_mem h
  refine ⟨?_, ((allSrc_pairwise views).filter _).sublist hsub, ?_⟩
  · obtain ⟨batch, -, hbatch⟩ := List.mem_flatMap.mp h
    exact ne_nil_of_mem_buildBatch _ _ _ srcs hbatch
  · intro v hv
    obtain ⟨hmem, hne⟩ := List.mem_filter.mp (hsub.mem hv)
    exact ⟨lt_of_mem_allSrc views hmem, by simpa using hne⟩

end

/-- `finalize_builder`: the edges of the sources of a file, one source after the other. -/
def csrFile (c : CsrOptions) (views : List CsrSourceFileView) (fid : Nat) (srcs : List Nat)
    (h : srcs ∈ csrFileSources c views) : SSTable :=
  { timeStamp := fid
    records := srcs.flatMap (collectSelectedEdgesForSrc views)
    nonempty := by
      obtain ⟨hne, -, hsel⟩ := csrFileSources_spec h
      obtain ⟨v, hv⟩ := List.exists_mem_of_ne_nil _ hne
      rw [Ne, List.flatMap_eq_nil_iff, not_forall]
      exact ⟨v, fun hnil => (hsel v hv).2 (hnil hv)⟩
    sorted := EdgeRecord.pairwise_flatMap (csrFileSources_spec h).2.1 (collected_src views)
      (collected_sorted views)
    src_lt := by
      intro r hr
      obtain ⟨v, hv, hr⟩ := List.mem_flatMap.mp hr
      rw [collected_src views v r hr]
      exact ((csrFileSources_spec h).2.2 v hv).1 }

/-- The files of a rebuild. The threads take their ids from one counter, in any order. -/
def csrFiles (c : CsrOptions) (alloc : Nat → Nat) (views : List CsrSourceFileView) :
    List SSTable :=
  (csrFileSources c views).attach.mapIdx fun i srcs => csrFile c views (alloc i) srcs.1 srcs.2

/-! ## The snapshot -/

structure CsrReadSnapshot where
  activeFiles : List SSTable

/-- `RebuildCSRFromVisibleSSTs`, without faults of the disk. Without a source there is no
snapshot. -/
def rebuildCsrFromVisibleSSTs (c : CsrOptions) (alloc : Nat → Nat) (s : Store) :
    Option CsrReadSnapshot :=
  let views := csrSourceFiles s
  if allSrc views = [] then none else some ⟨csrFiles c alloc views⟩

/-- The entry of `src_index`: what the last file that has the source has written there. -/
def CsrReadSnapshot.srcIndex (c : CsrOptions) (snapshot : CsrReadSnapshot) (src : Nat) :
    Option (SSTable × Nat × Nat) :=
  if src < c.maxVertexNum then
    snapshot.activeFiles.reverse.findSome? fun f => (f.offsets src).map (Prod.mk f)
  else none

/-- `FindCSRIndexEntry` -/
def findCsrIndexEntry (c : CsrOptions) (snapshot : Option CsrReadSnapshot) (src : Nat) :
    Option (SSTable × Nat × Nat) :=
  (snapshot.bind fun snapshot => snapshot.srcIndex c src).filter fun e => e.2.1 < e.2.2

/-- `find_edge_in_csr_disk`, up to the property. -/
def findEdgeInCsrDisk (c : CsrOptions) (snapshot : Option CsrReadSnapshot) (k : EdgeKey) :
    Option Store.Found :=
  (findCsrIndexEntry c snapshot k.src).bind fun e =>
    (findEdgeByDstDirectionAndType (e.1.slice e.2.1 e.2.2) k.dst k.isOut k.edgeType).map
      (Store.Found.inFile e.1.timeStamp)

/-- `find_edge_seq_in_csr_disk`: the first record of the destination, whatever its direction and
type. -/
def findEdgeSeqInCsrDisk (c : CsrOptions) (snapshot : Option CsrReadSnapshot) (src dst : Nat) :
    Option Store.Found :=
  (findCsrIndexEntry c snapshot src).bind fun e =>
    let bodies := e.1.slice e.2.1 e.2.2
    let low := Lib.lowerBound (fun r => decide (dst ≤ r.dst)) bodies bodies.length 0 bodies.length
    ((bodies.drop low).head?.filter fun r => r.dst = dst).map
      (Store.Found.inFile e.1.timeStamp)

/-- The records that a snapshot has for a source. -/
def csrRecordsOf (c : CsrOptions) (snapshot : Option CsrReadSnapshot) (src : Nat) :
    List EdgeRecord :=
  ((findCsrIndexEntry c snapshot src).map fun e => e.1.slice e.2.1 e.2.2).getD []

variable {c : CsrOptions} {views : List CsrSourceFileView} {v : Nat}

theorem recordsOf_csrFile (fid : Nat) {srcs : List Nat} (h : srcs ∈ csrFileSources c views) :
    (csrFile c views fid srcs h).recordsOf v =
      if v ∈ srcs then collectSelectedEdgesForSrc views v else [] :=
  Lib.filter_flatMap_of_key ((csrFileSources_spec h).2.1.imp Nat.ne_of_lt) (collected_src views) v

theorem mem_dropLast_of_offsets {f : SSTable} (h : f.Has v) :
    ∃ i ∈ f.indexes.dropLast, i.key = v := by
  obtain ⟨p, hp⟩ := h.offsets
  simp only [SSTable.offsets, Option.bind_eq_bind, Option.bind_eq_some_iff] at hp
  obtain ⟨pos, hpos, -, -, next, hnext, -⟩ := hp
  obtain ⟨e, he, hk⟩ := (f.get_eq_some_iff v pos).mp hpos
  refine ⟨e, ?_, hk⟩
  have hlt := (List.getElem?_eq_some_iff.mp hnext).1
  rw [List.mem_iff_getElem?]
  refine ⟨pos, ?_⟩
  rw [List.getElem?_dropLast, if_pos (by omega)]
  exact he

/-- A source with live records is one of the sources. -/
theorem mem_allSrc_of_collected (h : collectSelectedEdgesForSrc views v ≠ []) :
    v ∈ allSrc views := by
  obtain ⟨r, hr⟩ := List.exists_mem_of_ne_nil _ h
  unfold collectSelectedEdgesForSrc at hr
  rw [List.mem_insertionSort] at hr
  obtain ⟨view, hview, hr⟩ := List.mem_flatMap.mp (List.mem_of_mem_filter hr)
  have hhas : view.cache.Has v := by
    unfold CsrSourceFileView.edgesOf at hr
    split at hr
    · cases hoff : view.cache.offsets v with
      | none =>
        rw [hoff] at hr
        cases hr
      | some p => exact SSTable.has_of_offsets hoff
    · cases hr
  refine (mem_allSrc views).mpr ⟨?_, view, hview, mem_dropLast_of_offsets hhas⟩
  obtain ⟨x, hx, rfl⟩ := hhas
  exact Nat.ne_of_lt (view.cache.src_lt x hx)

theorem mem_csrFiles {alloc : Nat → Nat} {f : SSTable} (h : f ∈ csrFiles c alloc views) :
    ∃ fid srcs, ∃ hs : srcs ∈ csrFileSources c views, f = csrFile c views fid srcs hs := by
  obtain ⟨i, hi, rfl⟩ := List.mem_mapIdx.mp h
  exact ⟨_, _, _, rfl⟩

theorem slice_ne_nil {f : SSTable} {p : Nat × Nat} (h : f.slice p.1 p.2 ≠ []) : p.1 < p.2 := by
  by_contra hle
  apply h
  rw [SSTable.slice, Nat.sub_eq_zero_of_le (Nat.le_of_not_lt hle), List.take_zero]

/-- A snapshot has, for every source, the live records that the rebuild has collected. -/
theorem csrRecordsOf_files (alloc : Nat → Nat) (hv : v < c.maxVertexNum) :
    csrRecordsOf c (some ⟨csrFiles c alloc views⟩) v = collectSelectedEdgesForSrc views v := by
  unfold csrRecordsOf findCsrIndexEntry CsrReadSnapshot.srcIndex
  rw [Option.bind_some, if_pos hv]
  cases hfind : (csrFiles c alloc views).reverse.findSome? fun f =>
      (f.offsets v).map (Prod.mk f) with
  | none =>
    rw [List.findSome?_eq_none_iff] at hfind
    rw [Option.filter_none, Option.map_none, Option.getD_none, eq_comm]
    by_contra hne
    -- The source stands in one of the files.
    have hmem : v ∈ (csrFileSources c views).flatten := by
      rw [flatten_csrFileSources, List.mem_filter]
      exact ⟨mem_allSrc_of_collected hne, by simpa using hne⟩
    obtain ⟨srcs, hsrcs, hvs⟩ := List.mem_flatten.mp hmem
    obtain ⟨i, hi, hget⟩ := List.mem_iff_getElem.mp (List.mem_attach _ ⟨srcs, hsrcs⟩)
    have hfile : csrFile c views (alloc i) srcs hsrcs ∈ csrFiles c alloc views :=
      List.mem_mapIdx.mpr ⟨i, hi, by rw [hget]⟩
    have hnone := Option.map_eq_none_iff.mp (hfind _ (List.mem_reverse.mpr hfile))
    have hrecords := recordsOf_csrFile (v := v) (alloc i) hsrcs
    rw [if_pos hvs] at hrecords
    obtain ⟨r, hr⟩ := List.exists_mem_of_ne_nil _ (hrecords ▸ hne)
    obtain ⟨p, hp⟩ := (SSTable.mem_recordsOf_has hr).offsets
    rw [hnone] at hp
    cases hp
  | some e =>
    obtain ⟨f, hf, hoff⟩ := List.exists_of_findSome?_eq_some hfind
    obtain ⟨p, hp, rfl⟩ := Option.map_eq_some_iff.mp hoff
    obtain ⟨fid, srcs, hsrcs, rfl⟩ := mem_csrFiles (List.mem_reverse.mp hf)
    have hslice : (csrFile c views fid srcs hsrcs).slice p.1 p.2 = _ := SSTable.slice_of_offsets hp
    have hrecords := recordsOf_csrFile (v := v) fid hsrcs
    have hne : (csrFile c views fid srcs hsrcs).recordsOf v ≠ [] := by
      obtain ⟨r, hr, hrv⟩ := SSTable.has_of_offsets hp
      exact List.ne_nil_of_mem (SSTable.mem_recordsOf.mpr ⟨hr, hrv⟩)
    rw [Option.filter_some, if_pos (decide_eq_true (slice_ne_nil (hslice ▸ hne)))]
    rw [Option.map_some, Option.getD_some, hslice]
    split_ifs at hrecords with hin
    · exact hrecords
    · exact absurd hrecords hne

theorem csrRecordsOf_rebuild (alloc : Nat → Nat) (s : Store) (hv : v < c.maxVertexNum) :
    csrRecordsOf c (rebuildCsrFromVisibleSSTs c alloc s) v =
      collectSelectedEdgesForSrc (csrSourceFiles s) v := by
  unfold rebuildCsrFromVisibleSSTs
  dsimp only
  split
  · rename_i hnil
    rw [eq_comm]
    by_contra hne
    have := mem_allSrc_of_collected hne
    rw [hnil] at this
    cases this
  · exact csrRecordsOf_files alloc hv

/-! ## The snapshot and the levels -/

namespace Store

variable {o : Options} {s : Store} {k : EdgeKey}

theorem addSourceFiles_eq {files : List SSTable} {visited : List Nat}
    (hnodup : (files.map SSTable.timeStamp).Nodup)
    (hvisited : ∀ f ∈ files, f.timeStamp ∉ visited)
    (hdata : ∀ f ∈ files, s.sstData f.timeStamp = some f) :
    addSourceFiles s visited files = files.map fun f => ⟨f, f⟩ := by
  induction files generalizing visited with
  | nil => rfl
  | cons f files ih =>
    obtain ⟨hf, hnodup⟩ := List.nodup_cons.mp hnodup
    unfold addSourceFiles
    rw [if_neg (hvisited f List.mem_cons_self), hdata f List.mem_cons_self, ih hnodup]
    · rfl
    · intro g hg hmem
      rcases List.mem_cons.mp hmem with heq | hmem
      · exact hf (heq ▸ List.mem_map_of_mem hg)
      · exact hvisited g (List.mem_cons_of_mem _ hg) hmem
    · exact fun g hg => hdata g (List.mem_cons_of_mem _ hg)

/-- While no compaction runs, a rebuild finds all the files. -/
theorem mem_csrSourceFiles (hwf : Wf s) (hj : s.job = none) {view : CsrSourceFileView} :
    view ∈ csrSourceFiles s ↔ ∃ f ∈ s.liveFiles, view = ⟨f, f⟩ := by
  have hlive : s.liveFiles = s.level0 ++ diskLevels.flatMap s.levels := by
    rw [liveFiles, retired_of_no_job hj, List.append_nil]
  unfold csrSourceFiles
  rw [List.mem_insertionSort, ← hlive, addSourceFiles_eq hwf.live_nodup (by simp) hwf.live_data,
    List.mem_map]
  simp only [eq_comm]

theorem edgesOf_self (f : SSTable) (v : Nat) :
    CsrSourceFileView.edgesOf v ⟨f, f⟩ = f.recordsOf v := by
  unfold CsrSourceFileView.edgesOf
  split
  · rw [offsets_slice]
    conv_rhs => rw [← List.map_id (f.recordsOf v)]
    apply List.map_congr_left
    intro r hr
    rw [← (SSTable.mem_recordsOf.mp hr).2]
    rfl
  · rename_i hrange
    rw [SSTable.recordsOf_eq_nil]
    rintro ⟨r, hr, hrv⟩
    exact hrange ⟨hrv ▸ SSTable.minKey_le hr, hrv ▸ SSTable.le_maxKey hr⟩

theorem mem_onDisk_of_no_job (hwf : Wf s) (hj : s.job = none) {v : Nat} {r : EdgeRecord} :
    r ∈ s.onDisk v ↔ ∃ f ∈ s.liveFiles, r ∈ f.recordsOf v := by
  rw [mem_onDisk]
  constructor
  · rintro (⟨f, hf, hr⟩ | ⟨l, hl, hr⟩)
    · exact ⟨f, mem_liveFiles_of_level0 hf, hr⟩
    · obtain ⟨f, hf, hr⟩ := (mem_sliceAt hwf hl).mp hr
      exact ⟨f, mem_liveFiles_of_filesFor hl hf, hr⟩
  · rintro ⟨f, hf, hr⟩
    rw [liveFiles, retired_of_no_job hj, List.append_nil] at hf
    rcases List.mem_append.mp hf with hf | hf
    · exact Or.inl ⟨f, hf, hr⟩
    · obtain ⟨level, hlevel, hf⟩ := List.mem_flatMap.mp hf
      obtain ⟨slot, rfl, hslot⟩ : ∃ slot, level = slot + 1 ∧ slot < levelIndexSize := by
        simp only [diskLevels, List.mem_cons, List.not_mem_nil, or_false] at hlevel
        exact ⟨level - 1, by omega, by simp only [levelIndexSize, maxLevel]; omega⟩
      exact Or.inr ⟨slot, hslot, (mem_sliceAt hwf hslot).mpr
        ⟨f, by rwa [filesFor_of_no_job hj], hr⟩⟩

theorem mem_collected (hwf : Wf s) (hj : s.job = none) {v : Nat} {r : EdgeRecord} :
    r ∈ collectSelectedEdgesForSrc (csrSourceFiles s) v ↔ r ∈ s.onDisk v ∧ r.marker = false := by
  unfold collectSelectedEdgesForSrc
  rw [List.mem_insertionSort, List.mem_filter, List.mem_flatMap, mem_onDisk_of_no_job hwf hj]
  simp only [mem_csrSourceFiles hwf hj, Bool.not_eq_true']
  constructor
  · rintro ⟨⟨view, ⟨f, hf, rfl⟩, hr⟩, hm⟩
    exact ⟨⟨f, hf, edgesOf_self f v ▸ hr⟩, hm⟩
  · rintro ⟨⟨f, hf, hr⟩, hm⟩
    exact ⟨⟨⟨f, f⟩, ⟨f, hf, rfl⟩, edgesOf_self f v ▸ hr⟩, hm⟩

/-- `find_edge_in_SStableCache`, up to the property. -/
def findEdgeInSStableCache (s : Store) (k : EdgeKey) : Option Found :=
  (s.level0.findSome? (findInFile k)).or (s.findEdgeByLevelindex k)

/-- `find_edge_in_csr_disk` -/
def csrAnswer (c : CsrOptions) (propertyNum : Nat) (snapshot : Option CsrReadSnapshot)
    (deltas : DeltaLookup) (k : EdgeKey) (propertyId : Nat) : Except Status Bytes :=
  if propertyId < propertyNum then answer deltas k propertyId (findEdgeInCsrDisk c snapshot k)
  else .error .kNotFound

theorem newest_findEdgeInSStableCache (h : InOrder o s) (k : EdgeKey) :
    NewestOf k (s.onDisk k.src)
      ((s.findEdgeInSStableCache k).map (Found.record o.propertyLengths k.src)) := by
  unfold findEdgeInSStableCache
  rw [Option.map_or]
  exact (newest_level0 h k (List.Sublist.refl _)).append (newest_findEdgeByLevelindex h k)
    (level0_covers_slots h k)

/-- Without the snapshot there is nothing to find. -/
theorem findEdgeInCsrDisk_record (lengths : List Nat) (c : CsrOptions)
    (snapshot : Option CsrReadSnapshot) (k : EdgeKey) :
    (findEdgeInCsrDisk c snapshot k).map (Found.record lengths k.src) =
      findEdgeByDstDirectionAndType (csrRecordsOf c snapshot k.src) k.dst k.isOut k.edgeType := by
  unfold findEdgeInCsrDisk csrRecordsOf
  cases findCsrIndexEntry c snapshot k.src with
  | none => rfl
  | some e =>
    rw [Option.bind_some, Option.map_some, Option.getD_some, Option.map_map]
    exact Option.map_id'

theorem newest_findEdgeInCsrDisk (lengths : List Nat) {c : CsrOptions} (alloc : Nat → Nat)
    (hk : k.src < c.maxVertexNum) :
    NewestOf k (collectSelectedEdgesForSrc (csrSourceFiles s) k.src)
      ((findEdgeInCsrDisk c (rebuildCsrFromVisibleSSTs c alloc s) k).map
        (Found.record lengths k.src)) := by
  rw [findEdgeInCsrDisk_record, csrRecordsOf_rebuild alloc s hk]
  exact newest_findEdgeByDstDirectionAndType (collected_src _ _) (collected_sorted _ _)

/-- A version of a key is on disk as one record. -/
theorem eq_of_seq_eq (h : Tracked o s) {v : Nat} {r r' : EdgeRecord} (hr : r ∈ s.onDisk v)
    (hr' : r' ∈ s.onDisk v) (hkey : r.key = r'.key) (hseq : r.seq = r'.seq) : r = r' := by
  obtain ⟨e, he, rfl⟩ := h.disk v r hr
  obtain ⟨e', he', rfl⟩ := h.disk v r' hr'
  have hsame := eq_of_putSequence_eq h he he' hkey hseq
  rw [(Prod.mk.inj hsame).2]

/-- What a lookup on disk answers from the record that it finds. -/
def recordAnswer (propertyId : Nat) : Option EdgeRecord → Except Status Bytes
  | none => .error .kNotFound
  | some r =>
    if r.marker then .error .kDelete else .ok (readSubPropertyFromSlot (r.props.getD propertyId []))

theorem answer_of_disk {found : Option Found} (h : ∀ fid e, found ≠ some (.inMemtable fid e))
    (lengths : List Nat) (k : EdgeKey) (propertyId : Nat) :
    answer noDeltas k propertyId found =
      recordAnswer propertyId (found.map (Found.record lengths k.src)) := by
  cases found with
  | none => rfl
  | some x =>
    cases x with
    | inMemtable fid e => exact absurd rfl (h fid e)
    | inFile fid r => rfl

theorem findEdgeInCsrDisk_ne_inMemtable {c : CsrOptions} {snapshot : Option CsrReadSnapshot}
    {fid : Nat} {e : Edge} : findEdgeInCsrDisk c snapshot k ≠ some (.inMemtable fid e) := by
  intro h
  obtain ⟨entry, -, h⟩ := Option.bind_eq_some_iff.mp h
  obtain ⟨r, -, hr⟩ := Option.map_eq_some_iff.mp h
  cases hr

/-- The newest record and the newest live record give the same answer just when the newest record
is live. -/
theorem recordAnswer_live_iff {es live : List EdgeRecord} {r r' : Option EdgeRecord}
    (hlive : ∀ x, x ∈ live ↔ x ∈ es ∧ x.marker = false)
    (hone : ∀ x ∈ es, ∀ y ∈ es, x.key = y.key → x.seq = y.seq → x = y)
    (h : NewestOf k es r) (h' : NewestOf k live r') (propertyId : Nat) :
    recordAnswer propertyId r' = recordAnswer propertyId r ↔
      ∀ x, NewestOf k es (some x) → x.marker = false := by
  have hinj : ∀ x ∈ es, ∀ y ∈ es, x.key = k → y.key = k → x.seq = y.seq → x = y :=
    fun x hx y hy hxk hyk => hone x hx y hy (hxk.trans hyk.symm)
  constructor
  · intro heq x hx
    have hr : r = some x := h.unique hx.1 hx.2.1 hx.2.2 hinj
    subst hr
    cases hm : x.marker with
    | false => rfl
    | true =>
      -- A tombstone is in no snapshot.
      cases r' with
      | none => simp [recordAnswer, hm] at heq
      | some y =>
        have hy := ((hlive y).mp h'.1).2
        simp [recordAnswer, hm, hy] at heq
  · intro hmarker
    cases r with
    | none =>
      have hnone : r' = none :=
        h'.none_iff.mpr fun ⟨x, hx, hxk⟩ => h x ((hlive x).mp hx).1 hxk
      rw [hnone]
    | some x =>
      obtain ⟨hx, hxk, hmax⟩ := h
      have hxlive := (hlive x).mpr ⟨hx, hmarker x ⟨hx, hxk, hmax⟩⟩
      have hsame : r' = some x :=
        h'.unique hxlive hxk (fun y hy => hmax y ((hlive y).mp hy).1)
          fun y hy z hz => hinj y ((hlive y).mp hy).1 z ((hlive z).mp hz).1
      rw [hsame]

/-- While no compaction runs, a lookup in the snapshot of a rebuild gives what a lookup in the
files gives, just when the newest record of the key in the files is no tombstone. -/
theorem csr_lookup_agrees_iff {o : Options} {s : Store}
    (h : Lib.Reach (step o) (OrderedStep o) (initial o) s) (hj : s.job = none) (c : CsrOptions)
    (alloc : Nat → Nat) (k : EdgeKey) (hk : k.src < c.maxVertexNum) (propertyId : Nat)
    (hp : propertyId < o.propertyLengths.length) :
    csrAnswer c o.propertyLengths.length (rebuildCsrFromVisibleSSTs c alloc s) noDeltas k
        propertyId = answer noDeltas k propertyId (s.findEdgeInSStableCache k) ↔
      ∀ r, NewestOf k (s.onDisk k.src) (some r) → r.marker = false := by
  have hin := inOrder_of_reach h
  have hlsm := newest_findEdgeInSStableCache hin k
  have hcsr := newest_findEdgeInCsrDisk (s := s) o.propertyLengths alloc hk
  have hdisk : ∀ fid e, s.findEdgeInSStableCache k ≠ some (.inMemtable fid e) :=
    fun _ _ => disk_ne_inMemtable
  unfold csrAnswer
  rw [if_pos hp, answer_of_disk (fun _ _ => findEdgeInCsrDisk_ne_inMemtable) o.propertyLengths,
    answer_of_disk hdisk o.propertyLengths]
  exact recordAnswer_live_iff (fun _ => mem_collected hin.wf hj)
    (fun _ hx _ hy => eq_of_seq_eq hin.tracked hx hy) hlsm hcsr propertyId

/-- The settings of the examples. -/
def smallCsr : CsrOptions := ⟨16, 2, 1⟩

/-- A flushed put and a flushed put after it; both files are in the snapshot. -/
def putTwice (first second : Bytes) : List Action :=
  [putOneTwo first, .publish 0, putOneTwo second, .publish 1]

theorem csr_lookup_agrees_after_two_puts :
    ∃ s, (Lib.Reach (step smallStore) (OrderedStep smallStore) (initial smallStore) s ∧
        s.job.isNone ∧ csrAnswer smallCsr 1 (rebuildCsrFromVisibleSSTs smallCsr (· + 9) s) noDeltas
          ⟨1, 2, true, 0⟩ 0 = .ok (bytes "b")) ∧
      (csrAnswer smallCsr 1 (rebuildCsrFromVisibleSSTs smallCsr (· + 9) s) noDeltas
          ⟨1, 2, true, 0⟩ 0 = answer noDeltas ⟨1, 2, true, 0⟩ 0
            (s.findEdgeInSStableCache ⟨1, 2, true, 0⟩) ↔
        ∀ r, NewestOf ⟨1, 2, true, 0⟩ (s.onDisk 1) (some r) → r.marker = false) := by
  obtain ⟨s, hs, hjob, hanswer⟩ := Lib.exists_reach_of_run (step smallStore)
    (OrderedStep smallStore) (initial smallStore) (putTwice (bytes "a") (bytes "b"))
    (fun s => s.job.isNone ∧
      csrAnswer smallCsr 1 (rebuildCsrFromVisibleSSTs smallCsr (· + 9) s) noDeltas
        ⟨1, 2, true, 0⟩ 0 = .ok (bytes "b")) (by decide +kernel)
  exact ⟨s, ⟨hs, hjob, hanswer⟩, csr_lookup_agrees_iff hs (Option.isNone_iff_eq_none.mp hjob)
    smallCsr (· + 9) _ (by decide) 0 (by decide)⟩

/-- An edge is put and flushed, deleted and flushed: the snapshot has it again. -/
theorem a_deleted_edge_is_in_the_snapshot :
    ∃ s, Lib.Reach (step smallStore) (OrderedStep smallStore) (initial smallStore) s ∧
      (s.job.isNone ∧ answer noDeltas ⟨1, 2, true, 0⟩ 0
        (s.findEdgeInSStableCache ⟨1, 2, true, 0⟩) = .error .kDelete) ∧
      csrAnswer smallCsr 1 (rebuildCsrFromVisibleSSTs smallCsr (· + 9) s) noDeltas
        ⟨1, 2, true, 0⟩ 0 = .ok (bytes "a") :=
  Lib.exists_reach_of_run (step smallStore) (OrderedStep smallStore) (initial smallStore)
    (putTwice (bytes "a") deletedPayload)
    (fun s => (s.job.isNone ∧ answer noDeltas ⟨1, 2, true, 0⟩ 0
        (s.findEdgeInSStableCache ⟨1, 2, true, 0⟩) = .error .kDelete) ∧
      csrAnswer smallCsr 1 (rebuildCsrFromVisibleSSTs smallCsr (· + 9) s) noDeltas
        ⟨1, 2, true, 0⟩ 0 = .ok (bytes "a")) (by decide +kernel)

end Store

end RichGraph
