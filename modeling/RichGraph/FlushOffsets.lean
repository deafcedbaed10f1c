-- How many records a table may have before the offsets of its file leave their types. The
-- options accept every capacity of 32 bits; the lookup takes the offsets of the index as ints.
import RichGraph.FlushChunks

namespace RichGraph

open Lib EdgeLookup

/-- The checks of `GraphDbOptions::Validate` on `default_memtable_capacity`. The size of a shard in
the schema has the same range. -/
def validateMemtableCapacity (capacity : Nat) : Option String :=
  if capacity = 0 then some "default_memtable_capacity must be greater than 0"
  else if capacity > 2 ^ 32 - 1 then
    some "default_memtable_capacity exceeds the current engine limit"
  else none

namespace EdgeLookup

/-- The point lookup of a source in a file: its entry of the index and the next one give the bytes
to search, as ints. -/
def lookupSource (indexes : List Index) (buffer : Bytes) (src : Nat) (dst : BitVec 64)
    (isOut : Bool) (edgeType : UInt8) (fuel : Nat) : Option EdgeLookupResult :=
  match exactSearch (indexes.map Index.key) src indexes.length 0 indexes.length with
  | none => some notFound
  | some pos => do
    let entry ← indexes[pos]?
    let next ← indexes[pos + 1]?
    let low ← int32 entry.offset
    let high ← int32 next.offset
    findEdgeByDstDirectionAndType buffer dst isOut edgeType high fuel low

theorem int32_natCast {n : Nat} (h : n < 2 ^ 31) : int32 n = some ↑n :=
  int32_eq (by omega) (by omega)

/-- A range of records below the limit of the ints is searched without leaving them. -/
theorem find_isSome {buffer : Bytes} {a b fuel : Nat} (hab : a ≤ b)
    (hlimit : edgeBodySize * b < 2 ^ 31) (hrange : edgeBodySize * b ≤ buffer.length)
    (hfuel : b < fuel) (dst : BitVec 64) (isOut : Bool) (edgeType : UInt8) :
    (findEdgeByDstDirectionAndType buffer dst isOut edgeType ↑(edgeBodySize * b) fuel
      ↑(edgeBodySize * a)).isSome := by
  obtain ⟨n, rfl⟩ := Nat.exists_eq_add_of_le hab
  rw [Nat.mul_add] at hlimit hrange ⊢
  unfold findEdgeByDstDirectionAndType
  split
  · rfl
  · have hsearch := search_eq dst hlimit hrange fuel 0 n (Nat.zero_le _) (Nat.le_refl _) (by omega)
    rw [Nat.mul_zero, Nat.add_zero] at hsearch
    have hle : lowerBound (fun pos => decide (dst ≤ (bodyOf (buffer.drop pos)).getDst))
        (offsets (edgeBodySize * a) n) fuel 0 n ≤ n := (lowerBound_range fuel 0 n (Nat.zero_le _)).2
    rw [hsearch, Option.bind_eq_bind, Option.bind_some,
      scan_eq hlimit hrange fuel _ hle (by omega)]
    rfl

end EdgeLookup

namespace MemTable

def indexEntry : FlushWrite → Option Index
  | .index _ e => some e
  | _ => none

/-- No offset and no number of records leaves its type: not in the flush, and not in a lookup of
any source in the file, whatever its bodies are. -/
def NoneWraps (lengths : List Nat) (vertexNum maxSubcompactions : Nat) (t : MemTable) : Prop :=
  ∃ threads last, flushChunks lengths vertexNum maxSubcompactions t = some (threads, last) ∧
    ∀ buffer : Bytes, buffer.length = edgeBodySize * (t.listLength + 1) →
      ∀ src < invalidVertexId, ∀ dst isOut edgeType fuel, t.listLength < fuel →
        (lookupSource ((threads.flatten ++ last).filterMap indexEntry) buffer src dst isOut edgeType
          fuel).isSome

variable {lengths : List Nat} {vertexNum maxSubcompactions : Nat} {t : MemTable}
  {hv : vertexNum ≤ invalidVertexId} {f : SSTable}

theorem limit_of_flushChunks {p : List (List FlushWrite) × List FlushWrite}
    (h : flushChunks lengths vertexNum maxSubcompactions t = some p) :
    maxSubcompactions + 1 < intLimit ∧ edgeBodySize * t.listLength < offsetLimit := by
  unfold flushChunks at h
  simp only [Option.bind_eq_bind, Option.bind_eq_some_iff, chunkSize,
    Option.ite_none_right_eq_some] at h
  obtain ⟨-, ⟨hmany, -⟩, s, -, -, -, -, last, hlast, -⟩ := h
  unfold closing fit at hlast
  split at hlast
  · exact ⟨hmany, by assumption⟩
  · cases hlast

/-- The index of the file: the sources with the numbers of the records before them. -/
def indexOf (vertexSet : List Nat) (rs : List EdgeRecord) : List Index :=
  vertexSet.map (fun v => ⟨v, edgeBodySize * rs.countP (·.src < v)⟩) ++
    [⟨invalidVertexId, edgeBodySize * rs.length⟩]

theorem filterMap_indexEntry {vs : List Nat} {rs : List EdgeRecord} (hvs : vs.Pairwise (· < ·))
    (hrs : rs = vs.flatMap fun v => t.flushed lengths v) :
    (t.sourceWrites lengths 0 0 vs ++ closingWrites lengths rs.length vs.length).filterMap
      indexEntry = indexOf vs rs := by
  have hwrites : (t.sourceWrites lengths 0 0 vs).filterMap indexEntry = _ :=
    filterMap_sourceWrites_of_index indexEntry (fun _ _ => rfl) (fun _ _ => rfl) (fun _ _ _ => rfl)
      [] vs hvs
  rw [List.filterMap_append, hwrites, List.nil_append, ← hrs, indexOf]
  congr 1
  conv_rhs => rw [← List.zipIdx_map_fst 0 vs, List.map_map]
  rfl

section

variable {vs : List Nat} {rs : List EdgeRecord}

theorem keys_indexOf_rising (hvs : vs.Pairwise (· < ·)) (hlt : ∀ v ∈ vs, v < invalidVertexId) :
    ((indexOf vs rs).map Index.key).Pairwise (· < ·) := by
  have hkeys : (indexOf vs rs).map Index.key = vs ++ [invalidVertexId] := by
    simp [indexOf, Function.comp_def]
  rw [hkeys, List.pairwise_append]
  refine ⟨hvs, List.pairwise_singleton _ _, ?_⟩
  intro v hv w hw
  rw [List.mem_singleton.mp hw]
  exact hlt v hv

/-- An entry of a source and the next one bound a range of records. -/
theorem range_of_indexOf (hvs : vs.Pairwise (· < ·)) {pos : Nat} {entry : Index}
    (hentry : (indexOf vs rs)[pos]? = some entry) (hkey : entry.key < invalidVertexId) :
    ∃ next a b, (indexOf vs rs)[pos + 1]? = some next ∧ entry.offset = edgeBodySize * a ∧
      next.offset = edgeBodySize * b ∧ a ≤ b ∧ b ≤ rs.length := by
  have hpos : pos < vs.length := by
    by_contra hge
    rw [indexOf, List.getElem?_append_right (by simpa using hge), List.getElem?_singleton] at hentry
    split at hentry
    · cases hentry
      exact Nat.lt_irrefl _ hkey
    · cases hentry
  have hentry' : entry = ⟨vs[pos], edgeBodySize * rs.countP (·.src < vs[pos])⟩ := by
    rw [indexOf, List.getElem?_append_left (by simpa using hpos)] at hentry
    simpa [hpos] using hentry.symm
  subst hentry'
  by_cases hnext : pos + 1 < vs.length
  · refine ⟨⟨vs[pos + 1], edgeBodySize * rs.countP (·.src < vs[pos + 1])⟩, _, _, ?_, rfl, rfl, ?_,
      List.countP_le_length⟩
    · rw [indexOf, List.getElem?_append_left (by simpa using hnext)]
      simp [hnext]
    · refine List.countP_mono_left fun r _ hr => ?_
      have hlt := List.pairwise_iff_getElem.mp hvs pos (pos + 1) hpos hnext (Nat.lt_succ_self _)
      rw [decide_eq_true_eq] at hr ⊢
      exact Nat.lt_trans hr hlt
  · refine ⟨⟨invalidVertexId, edgeBodySize * rs.length⟩, _, _, ?_, rfl, rfl, List.countP_le_length,
      Nat.le_refl _⟩
    have heq : pos + 1 = vs.length := by omega
    rw [heq, indexOf, List.getElem?_append_right (by simp)]
    simp

theorem lookupSource_isSome (hvs : vs.Pairwise (· < ·))
    (hlimit : edgeBodySize * rs.length < 2 ^ 31) {buffer : Bytes}
    (hbuffer : buffer.length = edgeBodySize * (rs.length + 1)) {src : Nat}
    (hsrc : src < invalidVertexId) (dst : BitVec 64) (isOut : Bool) (edgeType : UInt8) {fuel : Nat}
    (hfuel : rs.length < fuel) :
    (lookupSource (indexOf vs rs) buffer src dst isOut edgeType fuel).isSome := by
  unfold lookupSource
  split
  · rfl
  · rename_i pos hpos
    have hkey := exactSearch_sound _ _ _ _ hpos
    rw [List.getElem?_map, Option.map_eq_some_iff] at hkey
    obtain ⟨entry, hentry, rfl⟩ := hkey
    obtain ⟨next, a, b, hnext, ha, hb, hab, hble⟩ := range_of_indexOf hvs hentry hsrc
    have hbmul : edgeBodySize * b ≤ edgeBodySize * rs.length := Nat.mul_le_mul_left _ hble
    have hamul : edgeBodySize * a ≤ edgeBodySize * b := Nat.mul_le_mul_left _ hab
    have hblimit : edgeBodySize * b < 2 ^ 31 := Nat.lt_of_le_of_lt hbmul hlimit
    have hrange : edgeBodySize * b ≤ buffer.length := by
      rw [hbuffer, Nat.mul_add]
      exact Nat.le_add_right_of_le hbmul
    rw [hentry, hnext, Option.bind_eq_bind, Option.bind_some, Option.bind_eq_bind, Option.bind_some,
      ha, hb, int32_natCast (Nat.lt_of_le_of_lt hamul hblimit), int32_natCast hblimit,
      Option.bind_some, Option.bind_some]
    exact find_isSome hab hblimit hrange (Nat.lt_of_le_of_lt hble hfuel) dst isOut edgeType

/-- The lookup of the last source takes the end of the bodies as an int. -/
theorem limit_of_lookupSource (hvs : vs.Pairwise (· < ·)) (hlt : ∀ v ∈ vs, v < invalidVertexId)
    (hne : vs ≠ []) {buffer : Bytes} {dst : BitVec 64} {isOut : Bool} {edgeType : UInt8}
    {fuel : Nat}
    (h : (lookupSource (indexOf vs rs) buffer (vs.getLast hne) dst isOut edgeType fuel).isSome) :
    edgeBodySize * rs.length < 2 ^ 31 := by
  have hpos : 0 < vs.length := List.length_pos_iff.mpr hne
  have hkey : ((indexOf vs rs).map Index.key)[vs.length - 1]? = some (vs.getLast hne) := by
    rw [indexOf, List.map_append, List.getElem?_append_left (by simp; omega)]
    simp [List.getLast_eq_getElem]
  have hnext : (indexOf vs rs)[vs.length - 1 + 1]? =
      some ⟨invalidVertexId, edgeBodySize * rs.length⟩ := by
    rw [Nat.sub_add_cancel hpos, indexOf, List.getElem?_append_right (by simp)]
    simp
  have hrising : ((indexOf vs rs).map Index.key).Pairwise (· < ·) := keys_indexOf_rising hvs hlt
  have hsearch := (exactSearch_eq_some_iff hrising _ _).mpr hkey
  rw [List.length_map] at hsearch
  unfold lookupSource at h
  rw [hsearch] at h
  obtain ⟨result, h⟩ := Option.isSome_iff_exists.mp h
  simp only [Option.bind_eq_bind, Option.bind_eq_some_iff, hnext] at h
  obtain ⟨-, -, next, heq, -, -, high, hhigh, -⟩ := h
  cases heq
  dsimp only at hhigh
  unfold int32 at hhigh
  split at hhigh
  · omega
  · cases hhigh

end

theorem noneWraps_iff (h : t.save2eSSTable lengths vertexNum hv = some f) (hlisted : t.Listed)
    (hmax : 0 < maxSubcompactions) : t.NoneWraps lengths vertexNum maxSubcompactions ↔
      maxSubcompactions + 1 < intLimit ∧ edgeBodySize * t.listLength < 2 ^ 31 := by
  obtain ⟨-, -, hrecords, hlength⟩ := save2eSSTable_cases h
  have hvs : (t.vertexSet vertexNum).Pairwise (· < ·) := pairwise_vertexSet vertexNum
  have hlt : ∀ v ∈ t.vertexSet vertexNum, v < invalidVertexId := fun v hmem =>
    Nat.lt_of_lt_of_le (List.mem_range.mp (List.mem_filter.mp hmem).1) hv
  have hne : t.vertexSet vertexNum ≠ [] := by
    intro hnil
    refine f.nonempty ?_
    rw [hrecords, hnil]
    rfl
  have hindex := filterMap_indexEntry hvs hrecords
  rw [hlength] at hindex
  constructor
  · rintro ⟨threads, last, hflush, hlookups⟩
    obtain ⟨hmany, hlimit⟩ := limit_of_flushChunks hflush
    obtain ⟨threads', hflush', hflat⟩ := flushChunks_eq h hlisted hlimit hmax hmany
    rw [hflush] at hflush'
    cases hflush'
    refine ⟨hmany, ?_⟩
    have hlast := hlookups (List.replicate (edgeBodySize * (t.listLength + 1)) 0)
      List.length_replicate _ (hlt _ (List.getLast_mem hne)) 0#64 true 0 _ (Nat.lt_succ_self _)
    rw [hflat, hindex] at hlast
    rw [← hlength]
    exact limit_of_lookupSource hvs hlt hne hlast
  · rintro ⟨hmany, hlimit⟩
    obtain ⟨threads, hflush, hflat⟩ := flushChunks_eq h hlisted
      (Nat.lt_trans hlimit (by decide)) hmax hmany
    refine ⟨threads, _, hflush, ?_⟩
    intro buffer hbuffer src hsrc dst isOut edgeType fuel hfuel
    rw [hflat, hindex]
    rw [← hlength] at hlimit hbuffer hfuel
    exact lookupSource_isSome hvs hlimit hbuffer hsrc dst isOut edgeType hfuel

/-- Of the capacities that the options accept, exactly those below 2 ^ 27 records keep every
offset of a full table in its type, when the flush gets past its `reserve`. -/
theorem none_wraps_iff_below_the_limit {capacity : Nat}
    (hcapacity : validateMemtableCapacity capacity = none) (hfull : t.listLength = capacity)
    (h : t.save2eSSTable lengths vertexNum hv = some f) (hlisted : t.Listed)
    (hmax : 0 < maxSubcompactions) : t.NoneWraps lengths vertexNum maxSubcompactions ↔
      maxSubcompactions + 1 < intLimit ∧ edgeBodySize * capacity < 2 ^ 31 := by
  subst hfull
  exact noneWraps_iff h hlisted hmax

theorem no_offset_of_three_edges_wraps :
    validateMemtableCapacity 3 = none ∧ threeEdges.NoneWraps [4] 2 2 := by
  obtain ⟨f, hf⟩ := Option.isSome_iff_exists.mp
    (show (threeEdges.save2eSSTable [4] 2 (by decide)).isSome = true by decide +kernel)
  exact ⟨by decide, (none_wraps_iff_below_the_limit (by decide) (show _ = 3 by decide +kernel) hf
    listed_threeEdges (by decide)).mpr (by decide)⟩

/-- A table with one edge put again and again to one source. -/
def filled (capacity : Nat) (e : Edge) : Nat → MemTable
  | 0 => fresh 0 capacity
  | n + 1 => (filled capacity e n).putEdge 8 0 e

section

variable (capacity : Nat) (e : Edge)

theorem listed_filled (n : Nat) : (filled capacity e n).Listed := by
  induction n with
  | zero => exact listed_fresh 0 capacity
  | succ n ih => exact listed_putEdge ih

theorem filled_spec (n : Nat) : (filled capacity e n).listLength = n ∧
    ((filled capacity e n).adj 0).edges.length = n ∧
    ∀ v ∈ (filled capacity e n).vertexAdjs.keys, v = 0 := by
  induction n with
  | zero => exact ⟨rfl, rfl, fun v hv => by cases hv⟩
  | succ n ih =>
    obtain ⟨hlength, hedges, hkeys⟩ := ih
    refine ⟨congrArg (· + 1) hlength, ?_, ?_⟩
    · rw [filled, adj_putEdge, if_pos rfl, (NewEdgeSL.edges_putEdge_perm _ _ _).length_eq,
        List.length_cons, hedges]
    · intro v hv
      rw [filled, putEdge, AList.keys_insert] at hv
      rcases List.mem_cons.mp hv with rfl | hv
      · rfl
      · exact hkeys v (List.mem_of_mem_erase hv)

/-- The flush of such a table finds all its edges. -/
theorem save2eSSTable_filled (lengths : List Nat) (n : Nat) :
    ∃ f, (filled capacity e (n + 1)).save2eSSTable lengths 1 (by decide) = some f := by
  obtain ⟨hlength, hedges, hkeys⟩ := filled_spec capacity e (n + 1)
  have hmem : 0 ∈ (filled capacity e (n + 1)).vertexAdjs.keys := by
    rw [filled, putEdge, AList.keys_insert]
    exact List.mem_cons_self ..
  have hsome : ((filled capacity e (n + 1)).vertexAdjs.lookup 0).isSome :=
    AList.lookup_isSome.mpr (AList.mem_keys.mpr hmem)
  have hset : (filled capacity e (n + 1)).vertexSet 1 = [0] := by
    simp [vertexSet, List.range_one, hsome]
  have hone : (filled capacity e (n + 1)).vertexAdjs.keys.length = 1 := by
    have hnodup := (filled capacity e (n + 1)).vertexAdjs.keys_nodup
    have hsub : (filled capacity e (n + 1)).vertexAdjs.keys ⊆ [0] := fun v hv =>
      List.mem_singleton.mpr (hkeys v hv)
    have hle := (List.subperm_of_subset hnodup hsub).length_le
    have hpos := List.length_pos_of_mem hmem
    rw [List.length_singleton] at hle
    omega
  have hrecords : (((filled capacity e (n + 1)).vertexSet 1).flatMap fun v =>
      (filled capacity e (n + 1)).flushed lengths v).length = n + 1 := by
    rw [hset, List.flatMap_singleton, length_flushed, hedges]
  have hall : ((filled capacity e (n + 1)).vertexSet 1).length =
      (filled capacity e (n + 1)).vertexAdjs.keys.length := by rw [hset, hone]; rfl
  unfold save2eSSTable
  simp only
  rw [dif_pos ⟨hall, hrecords.trans hlength.symm, fun hnil => by simp [hnil] at hrecords⟩]
  exact ⟨_, rfl⟩

end

/-- The lookup in the file of a full table of 2 ^ 27 records takes a negative offset. -/
theorem an_offset_of_two_gigabytes_wraps :
    validateMemtableCapacity (2 ^ 27) = none ∧
      ∃ (t : MemTable) (f : SSTable), t.listLength = 2 ^ 27 ∧ t.Listed ∧
        t.save2eSSTable [4] 1 (by decide) = some f ∧ ¬ t.NoneWraps [4] 1 1 := by
  have e : Edge := ⟨1, 1, false, [], true, 0⟩
  obtain ⟨f, hf⟩ := save2eSSTable_filled (2 ^ 27) e [4] (2 ^ 27 - 1)
  have hlength := (filled_spec (2 ^ 27) e (2 ^ 27 - 1 + 1)).1
  refine ⟨by decide, _, f, hlength, listed_filled _ _ _, hf, fun hnone => ?_⟩
  have hlimit := ((noneWraps_iff hf (listed_filled _ _ _) (by decide)).mp hnone).2
  rw [hlength] at hlimit
  exact absurd hlimit (by decide)

end MemTable

end RichGraph
