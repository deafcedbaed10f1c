-- The flush of a table by several threads. The sources are cut into chunks, and the thread of
-- a chunk puts its bodies, index entries and slots straight to their places in the buffers of
-- the file. Offsets have 32 bits; the place of a slot is computed in 32 bits too, although a
-- column may be longer. Each buffer goes to its file by one call of `write`.
import RichGraph.EdgeLookup
import RichGraph.Lib.Writes
import RichGraph.SSTableWriter

namespace RichGraph

open Lib

/-- Where a chunk starts: its first source, and its bytes among the bodies, the index and the
first column. -/
structure Chunk where
  srcId : Nat
  edgeOffset : Nat
  indexOffset : Nat
  propertyOffset : Nat
deriving DecidableEq

/-- What a thread writes, and at which byte of the bodies, of the index or of a column. -/
inductive FlushWrite where
  | body (place : Nat) (b : EdgeBody)
  | index (place : Nat) (e : Index)
  | slot (column place : Nat) (value : Bytes)
deriving DecidableEq

/-- The numbers of the loop that cuts the sources into chunks. -/
structure ChunkLoop where
  chunks : List Chunk
  i : Nat
  edgeNum : Nat
  edgeNumSum : Nat
  propertySizeSum : Nat

/-- The numbers of `build_sstable`. -/
structure ChunkBuild where
  tempIndex : Nat
  tempBodyOffset : Nat
  offset : Nat
  writes : List FlushWrite

/-- A number in a type that holds those below a limit. -/
def fit (limit n : Nat) : Option Nat := if n < limit then some n else none

def intLimit : Nat := 2 ^ 31

theorem fit_eq {limit n : Nat} (h : n < limit) : fit limit n = some n := if_pos h

namespace MemTable

section

variable (lengths : List Nat)

/-- `GetSubPropertyFixedLength(0)` -/
def firstLen : Nat := lengths.head?.getD 0

/-- `chunk_size`. With more subcompactions `reserve` throws, for one more than their number is no
positive int. -/
def chunkSize (maxSubcompactions total : Nat) : Option Nat :=
  if maxSubcompactions + 1 < intLimit then fit intLimit (total / maxSubcompactions) else none

/-- One turn of the loop over the sources. -/
def nextSource (chunkSize : Nat) (t : MemTable) (s : ChunkLoop) (v : Nat) : Option ChunkLoop := do
  let adjNum := (t.adj v).edges.length
  let s ←
    if s.edgeNum + adjNum > chunkSize then do
      let edgeNumSum := s.edgeNumSum + s.edgeNum
      let srcId ← fit intLimit s.i
      let edgeOffset ← fit offsetLimit (edgeNumSum * edgeBodySize)
      let indexOffset ← fit offsetLimit (s.i * indexSize)
      let chunk : Chunk := ⟨srcId, edgeOffset, indexOffset, s.propertySizeSum % offsetLimit⟩
      some { s with chunks := s.chunks ++ [chunk], edgeNumSum, edgeNum := 0 }
    else some s
  return { s with
    i := s.i + 1, edgeNum := s.edgeNum + adjNum
    propertySizeSum := s.propertySizeSum + adjNum * firstLen lengths }

/-- The chunks with their ends, from the starts of the chunks and the end of the last one. -/
def jobs (last : Nat) : List Chunk → List (Chunk × Nat)
  | [] => []
  | [c] => [(c, last)]
  | c :: d :: cs => (c, d.srcId) :: jobs last (d :: cs)

/-- One turn of the loop over the edges of a source. The place of a slot is an unsigned product of
32 bits. -/
def writeEdge (total : Nat) (b : ChunkBuild) (r : EdgeRecord) : Option ChunkBuild := do
  let newOffset ← fit offsetLimit (b.tempBodyOffset + edgeBodySize)
  if newOffset > edgeBodySize * total then none
  else do
    let edgeOrdinal ← fit intLimit (newOffset / edgeBodySize - 1)
    let body : EdgeBody := ⟨r.dst, r.seq, b.offset, r.marker, r.isOut, r.edgeType⟩
    return { b with
      tempBodyOffset := newOffset
      offset := (b.offset + firstLen lengths) % offsetLimit
      writes := b.writes ++ .body b.tempBodyOffset body :: lengths.zipIdx.map fun l =>
        .slot l.2 (edgeOrdinal * l.1 % offsetLimit) (r.props.getD l.2 []) }

/-- One turn of the loop over the sources of a chunk. -/
def writeSource (total : Nat) (t : MemTable) (b : ChunkBuild) (v : Nat) : Option ChunkBuild :=
  (t.flushed lengths v).foldlM (writeEdge lengths total)
    { b with
      tempIndex := b.tempIndex + indexSize
      writes := b.writes ++ [.index b.tempIndex ⟨v, b.tempBodyOffset⟩] }

def buildSstable (total : Nat) (t : MemTable) (vertexSet : List Nat) (job : Chunk × Nat) :
    Option (List FlushWrite) := do
  let b ← ((vertexSet.drop job.1.srcId).take (job.2 - job.1.srcId)).foldlM
    (writeSource lengths total t)
    ⟨job.1.indexOffset, job.1.edgeOffset, job.1.propertyOffset, []⟩
  return b.writes

/-- The entries that end the index and the bodies. -/
def closing (total sources propertySize : Nat) : Option (List FlushWrite) := do
  let offset ← fit offsetLimit (edgeBodySize * total)
  return [.index (indexSize * sources) ⟨invalidVertexId, offset⟩,
    .body offset ⟨invalidVertexId, invalidVertexId, propertySize % offsetLimit, false, true, 0⟩]

/-- `save2eSSTable_split_property` up to the buffers: what each thread writes, and what is written
after they are done. -/
def flushChunks (vertexNum maxSubcompactions : Nat) (t : MemTable) :
    Option (List (List FlushWrite) × List FlushWrite) := do
  let vertexSet := t.vertexSet vertexNum
  let size ← chunkSize maxSubcompactions t.listLength
  let s ← vertexSet.foldlM (nextSource lengths size t) ⟨[⟨0, 0, 0, 0⟩], 0, 0, 0, 0⟩
  if s.i = t.vertexAdjs.keys.length ∧ 0 < s.i ∧ s.edgeNumSum + s.edgeNum = t.listLength then do
    let jobs := jobs s.i s.chunks
    -- With one subcompaction only the first chunk is built.
    let threads ← (if 1 < maxSubcompactions then jobs else jobs.take 1).mapM
      (buildSstable lengths t.listLength t vertexSet)
    let closing ← closing t.listLength s.i s.propertySizeSum
    return (threads, closing)
  else none

end

end MemTable

/-! ## The buffers -/

namespace FlushWrite

/-- The number of a body in the buffer, with the body. -/
def bodyCell : FlushWrite → Option (Nat × List (Option EdgeBody))
  | body place b => some (place / edgeBodySize, [some b])
  | _ => none

def indexCell : FlushWrite → Option (Nat × List (Option Index))
  | index place e => some (place / indexSize, [some e])
  | _ => none

def slotBytes (p : Nat) : FlushWrite → Option (Nat × List (Option UInt8))
  | slot column place value => if column = p then some (place, value.map some) else none
  | _ => none

def bodyPlace : FlushWrite → Option Nat
  | body place _ => some place
  | _ => none

def indexPlace : FlushWrite → Option Nat
  | index place _ => some place
  | _ => none

end FlushWrite

/-- The buffers of a file. What has not been written is `none`. -/
@[ext]
structure SstBuffers where
  bodies : List (Option EdgeBody)
  indexes : List (Option Index)
  columns : List (List (Option UInt8))

/-- The buffers after some writes, for `total` edges of `sources` sources. -/
def SstBuffers.after (lengths : List Nat) (total sources : Nat) (ws : List FlushWrite) :
    SstBuffers :=
  { bodies := (ws.filterMap FlushWrite.bodyCell).foldl writeAt (List.replicate (total + 1) none)
    indexes := (ws.filterMap FlushWrite.indexCell).foldl writeAt
      (List.replicate (sources + 1) none)
    columns := lengths.mapIdx fun p len => (ws.filterMap (FlushWrite.slotBytes p)).foldl writeAt
      (List.replicate (total * len) none) }

/-- The buffers that hold some records in their order: bodies, an index entry for every source at
the number of the records with smaller sources, the entries that end both, and the slots. -/
def SstBuffers.ofRecords (lengths vertexSet : List Nat) (rs : List EdgeRecord) : SstBuffers :=
  let firstLen := lengths.head?.getD 0
  let bodies := rs.zipIdx.map fun p => SSTableWriter.bodyOf firstLen p.2 p.1
  let indexes := vertexSet.map fun v => Index.mk v (edgeBodySize * rs.countP (·.src < v))
  let lastBody : EdgeBody :=
    ⟨invalidVertexId, invalidVertexId, rs.length * firstLen % offsetLimit, false, true, 0⟩
  let lastIndex : Index := ⟨invalidVertexId, edgeBodySize * rs.length⟩
  { bodies := (bodies ++ [lastBody]).map some
    indexes := (indexes ++ [lastIndex]).map some
    columns := lengths.mapIdx fun p _ => rs.flatMap fun r => (r.props.getD p []).map some }

/-! ## The files -/

structure SstHeader where
  timeStamp : Nat
  size : Nat
  indexSize : Nat
  minKey : Nat
  maxKey : Nat

/-- What stands in the file of the edges. -/
inductive FilePiece where
  | body (b : Option EdgeBody)
  | index (e : Option Index)
  | header (h : SstHeader)

def FilePiece.size : FilePiece → Nat
  | body _ => edgeBodySize
  | index _ => indexSize
  | header _ => headerSize

/-- The bytes of a piece, each by its number. -/
def FilePiece.bytes (p : FilePiece) : List (FilePiece × Nat) := (List.range p.size).map (Prod.mk p)

@[ext]
structure SstFiles where
  eFile : List (FilePiece × Nat)
  pFiles : List (List (Option UInt8))

/-- The buffers in full, with the header at the end of the bodies and the index. -/
def SstBuffers.files (header : SstHeader) (b : SstBuffers) : SstFiles where
  eFile := (b.bodies.map FilePiece.body ++ (b.indexes.map FilePiece.index ++
    [FilePiece.header header])).flatMap FilePiece.bytes
  pFiles := b.columns

/-- The most that one `write` takes. -/
def maxWrite : Nat := 0x7ffff000

/-- `FileIO::Write` of every buffer. What `write` returns is not looked at. -/
def SstFiles.write (f : SstFiles) : SstFiles where
  eFile := f.eFile.take maxWrite
  pFiles := f.pFiles.map (List.take maxWrite)

/-- The size of the file of `total` edges of `sources` sources. -/
def eFileSize (total sources : Nat) : Nat :=
  headerSize + edgeBodySize * (total + 1) + (sources + 1) * indexSize

theorem SstBuffers.length_eFile (header : SstHeader) (b : SstBuffers) :
    (b.files header).eFile.length =
      edgeBodySize * b.bodies.length + (indexSize * b.indexes.length + headerSize) := by
  simp [files, FilePiece.bytes, FilePiece.size, List.length_flatMap, Function.comp_def,
    Nat.mul_comm]

/-- What `write` takes whole is in the files. -/
theorem SstFiles.write_eq (f : SstFiles) (hedges : f.eFile.length ≤ maxWrite)
    (hcolumns : ∀ c ∈ f.pFiles, c.length ≤ maxWrite) : f.write = f :=
  SstFiles.ext (List.take_of_length_le hedges)
    ((List.map_congr_left fun c hc => List.take_of_length_le (hcolumns c hc)).trans
      (List.map_id' _))

/-- The pieces stand one after the other in every buffer, without gap or overlap: bodies of 16
bytes, index entries of 12 and slots of the width of their column. -/
structure Tiled (lengths : List Nat) (total sources : Nat) (ws : List FlushWrite) : Prop where
  bodies : ws.filterMap FlushWrite.bodyPlace = (List.range total).map (· * edgeBodySize)
  indexes : ws.filterMap FlushWrite.indexPlace = (List.range sources).map (· * indexSize)
  slots : ∀ p len, lengths[p]? = some len →
    (ws.filterMap (FlushWrite.slotBytes p)).map Prod.fst = (List.range total).map (· * len)

namespace MemTable

variable (lengths : List Nat) (t : MemTable)

/-! ## What a range of sources gives -/

/-- The number of the edges of some sources. -/
def count (vs : List Nat) : Nat := (vs.flatMap fun v => t.flushed lengths v).length

/-- The writes for a record, with its number in the file. -/
def recordWrite (p : EdgeRecord × Nat) : List FlushWrite :=
  .body (edgeBodySize * p.2) (SSTableWriter.bodyOf (firstLen lengths) p.2 p.1) ::
    lengths.zipIdx.map fun l => .slot l.2 (p.2 * l.1 % offsetLimit) (p.1.props.getD l.2 [])

/-- The writes for some records, the first of which is the `n`-th of the file. -/
def recordWrites (n : Nat) (rs : List EdgeRecord) : List FlushWrite :=
  (rs.zipIdx n).flatMap (recordWrite lengths)

/-- The writes for some sources, from the `i`-th source and the `n`-th record of the file on. -/
def sourceWrites : Nat → Nat → List Nat → List FlushWrite
  | _, _, [] => []
  | i, n, v :: vs =>
    .index (indexSize * i) ⟨v, edgeBodySize * n⟩ ::
      (recordWrites lengths n (t.flushed lengths v) ++
        sourceWrites (i + 1) (n + (t.flushed lengths v).length) vs)

/-- The numbers of `build_sstable` before the `i`-th source and the `n`-th record. -/
def buildAt (i n : Nat) (ws : List FlushWrite) : ChunkBuild :=
  ⟨indexSize * i, edgeBodySize * n, n * firstLen lengths % offsetLimit, ws⟩

variable {lengths : List Nat} {t : MemTable}

theorem length_flushed (v : Nat) : (t.flushed lengths v).length = (t.adj v).edges.length := by
  unfold flushed
  rw [List.length_map, (NewEdgeSL.edges_sort_perm _).length_eq]

theorem count_append (vs ws : List Nat) :
    t.count lengths (vs ++ ws) = t.count lengths vs + t.count lengths ws := by
  simp [count]

theorem count_cons (v : Nat) (vs : List Nat) :
    t.count lengths (v :: vs) = (t.flushed lengths v).length + t.count lengths vs := by
  simp [count]

theorem count_nil : t.count lengths [] = 0 := rfl

theorem sourceWrites_append (i n : Nat) (vs ws : List Nat) :
    t.sourceWrites lengths i n (vs ++ ws) = t.sourceWrites lengths i n vs ++
      t.sourceWrites lengths (i + vs.length) (n + t.count lengths vs) ws := by
  induction vs generalizing i n with
  | nil => simp [sourceWrites, count_nil]
  | cons v vs ih =>
    simp only [List.cons_append, sourceWrites, ih, count_cons, List.length_cons, List.append_assoc,
      Nat.add_assoc, Nat.add_comm 1]

theorem foldlM_writeEdge {total : Nat} (i n : Nat) (ws : List FlushWrite) (rs : List EdgeRecord)
    (htotal : n + rs.length ≤ total) (hlimit : edgeBodySize * total < offsetLimit) :
    rs.foldlM (writeEdge lengths total) (buildAt lengths i n ws) =
      some (buildAt lengths i (n + rs.length) (ws ++ recordWrites lengths n rs)) := by
  induction rs generalizing n ws with
  | nil => simp [recordWrites]
  | cons r rs ih =>
    rw [List.length_cons] at htotal
    have hone : writeEdge lengths total (buildAt lengths i n ws) r =
        some (buildAt lengths i (n + 1) (ws ++ recordWrites lengths n [r])) := by
      have hnext : edgeBodySize * n + edgeBodySize = edgeBodySize * (n + 1) := rfl
      have hordinal : edgeBodySize * (n + 1) / edgeBodySize - 1 = n := by simp [edgeBodySize]
      unfold edgeBodySize offsetLimit at hlimit
      simp only [writeEdge, buildAt, hnext]
      rw [fit_eq (by unfold edgeBodySize offsetLimit; omega), Option.bind_eq_bind, Option.bind_some,
        if_neg (by unfold edgeBodySize; omega), hordinal, fit_eq (by unfold intLimit; omega)]
      simp [recordWrites, recordWrite, SSTableWriter.bodyOf, Nat.add_mul]
    rw [List.foldlM_cons, hone, Option.bind_eq_bind, Option.bind_some, ih _ _ (by omega)]
    simp [recordWrites, Nat.add_assoc, Nat.add_comm 1]

theorem foldlM_writeSource {total : Nat} (i n : Nat) (ws : List FlushWrite) (vs : List Nat)
    (htotal : n + t.count lengths vs ≤ total) (hlimit : edgeBodySize * total < offsetLimit) :
    vs.foldlM (writeSource lengths total t) (buildAt lengths i n ws) =
      some (buildAt lengths (i + vs.length) (n + t.count lengths vs)
        (ws ++ t.sourceWrites lengths i n vs)) := by
  induction vs generalizing i n ws with
  | nil => simp [sourceWrites, count_nil]
  | cons v vs ih =>
    rw [count_cons] at htotal
    have hone : writeSource lengths total t (buildAt lengths i n ws) v =
        some (buildAt lengths (i + 1) (n + (t.flushed lengths v).length)
          (ws ++ [.index (indexSize * i) ⟨v, edgeBodySize * n⟩] ++
            recordWrites lengths n (t.flushed lengths v))) := by
      rw [← foldlM_writeEdge _ _ _ _ (by omega) hlimit]
      rfl
    rw [List.foldlM_cons, hone, Option.bind_eq_bind, Option.bind_some, ih _ _ _ (by omega)]
    simp [sourceWrites, count_cons, Nat.add_assoc, Nat.add_comm 1]

/-! ## The chunks -/

/-- The start of the chunk that comes after some sources. -/
def chunkAfter (lengths : List Nat) (t : MemTable) (done : List Nat) : Chunk :=
  ⟨done.length, edgeBodySize * t.count lengths done, indexSize * done.length,
    t.count lengths done * firstLen lengths % offsetLimit⟩

/-- The loop after some of the sources. -/
structure CutUpTo (lengths : List Nat) (t : MemTable) (size : Nat) (vs done : List Nat)
    (s : ChunkLoop) : Prop where
  i : s.i = done.length
  edges : s.edgeNumSum + s.edgeNum = t.count lengths done
  bytes : s.propertySizeSum = t.count lengths done * firstLen lengths
  starts : ∀ c ∈ s.chunks, c.srcId ≤ s.i ∧ c = chunkAfter lengths t (vs.take c.srcId)
  rising : (s.chunks.map Chunk.srcId).Pairwise (· ≤ ·)
  first : ∃ cs, s.chunks = ⟨0, 0, 0, 0⟩ :: cs
  whole : t.count lengths vs ≤ size → s.chunks = [⟨0, 0, 0, 0⟩]

variable {size : Nat} {vs : List Nat}

theorem cutUpTo_start :
    CutUpTo lengths t size vs [] ⟨[⟨0, 0, 0, 0⟩], 0, 0, 0, 0⟩ where
  i := rfl
  edges := rfl
  bytes := by simp [count_nil]
  starts c hc := by
    rw [List.mem_singleton] at hc
    subst hc
    exact ⟨Nat.le_refl _, by simp [chunkAfter, count_nil]⟩
  rising := List.pairwise_singleton _ _
  first := ⟨[], rfl⟩
  whole _ := rfl

theorem cutUpTo_nextSource {done rest : List Nat} {v : Nat} {s : ChunkLoop}
    (h : CutUpTo lengths t size vs done s) (hvs : vs = done ++ v :: rest)
    (hlimit : edgeBodySize * t.count lengths vs < offsetLimit)
    (hsources : vs.length ≤ t.count lengths vs) :
    ∃ s', nextSource lengths size t s v = some s' ∧
      CutUpTo lengths t size vs (done ++ [v]) s' := by
  have hcount : t.count lengths vs =
      t.count lengths done + (t.flushed lengths v).length + t.count lengths rest := by
    rw [hvs, count_append, count_cons, Nat.add_assoc]
  have hdone : t.count lengths (done ++ [v]) =
      t.count lengths done + (t.adj v).edges.length := by
    rw [count_append, count_cons, count_nil, length_flushed, Nat.add_zero]
  have htake : vs.take s.i = done := by rw [h.i, hvs, List.take_left]
  have hi : s.i ≤ vs.length := by
    rw [h.i, hvs, List.length_append]
    omega
  rw [length_flushed] at hcount
  unfold edgeBodySize offsetLimit at hlimit
  unfold nextSource
  by_cases hcut : s.edgeNum + (t.adj v).edges.length > size
  · have hedges := h.edges
    have hid : s.i < intLimit := by unfold intLimit; omega
    have hedge : (s.edgeNumSum + s.edgeNum) * edgeBodySize < offsetLimit := by
      unfold edgeBodySize offsetLimit
      omega
    have hindex : s.i * indexSize < offsetLimit := by unfold indexSize offsetLimit; omega
    simp only [if_pos hcut, fit_eq hid, fit_eq hedge, fit_eq hindex]
    refine ⟨_, rfl, ?_⟩
    exact
      { i := by simp [h.i]
        edges := by simp [hdone, h.edges]
        bytes := by simp [hdone, h.bytes, Nat.add_mul]
        starts := by
          intro c hc
          rcases List.mem_append.mp hc with hc | hc
          · exact ⟨Nat.le_succ_of_le (h.starts c hc).1, (h.starts c hc).2⟩
          · rw [List.mem_singleton] at hc
            subst hc
            refine ⟨Nat.le_succ _, ?_⟩
            change _ = chunkAfter lengths t (vs.take s.i)
            rw [htake]
            simp only [chunkAfter, h.edges, h.bytes, h.i, Nat.mul_comm]
        rising := by
          rw [List.map_append, List.pairwise_append]
          refine ⟨h.rising, List.pairwise_singleton _ _, ?_⟩
          intro a ha b hb
          obtain ⟨c, hc, rfl⟩ := List.mem_map.mp ha
          rw [List.map_singleton, List.mem_singleton] at hb
          subst hb
          exact (h.starts c hc).1
        first := by
          obtain ⟨cs, hcs⟩ := h.first
          exact ⟨_, by simp only [hcs, List.cons_append]; rfl⟩
        whole := fun hle => by omega }
  · rw [if_neg hcut]
    refine ⟨_, rfl, ?_⟩
    exact
      { i := by simp [h.i]
        edges := by simp [hdone, ← h.edges, Nat.add_assoc]
        bytes := by simp [hdone, h.bytes, Nat.add_mul]
        starts := fun c hc => ⟨Nat.le_succ_of_le (h.starts c hc).1, (h.starts c hc).2⟩
        rising := h.rising
        first := h.first
        whole := h.whole }

/-- The loop ends with chunks that start where they should. -/
theorem foldlM_nextSource {done rest : List Nat} {s : ChunkLoop}
    (h : CutUpTo lengths t size vs done s) (hvs : vs = done ++ rest)
    (hlimit : edgeBodySize * t.count lengths vs < offsetLimit)
    (hsources : vs.length ≤ t.count lengths vs) :
    ∃ s', rest.foldlM (nextSource lengths size t) s = some s' ∧
      CutUpTo lengths t size vs vs s' := by
  induction rest generalizing done s with
  | nil =>
    rw [List.append_nil] at hvs
    subst hvs
    exact ⟨s, rfl, h⟩
  | cons v rest ih =>
    obtain ⟨s', hs', hcut⟩ := cutUpTo_nextSource h hvs hlimit hsources
    rw [List.foldlM_cons, hs', Option.bind_eq_bind, Option.bind_some]
    exact ih hcut (by rw [hvs, List.append_assoc]; rfl)

/-- The thread of a chunk writes what the sources up to the next chunk need. -/
theorem buildSstable_eq {total : Nat} {c : Chunk} (next : Nat) (hle : c.srcId ≤ vs.length)
    (heq : c = chunkAfter lengths t (vs.take c.srcId))
    (htotal : t.count lengths vs ≤ total) (hlimit : edgeBodySize * total < offsetLimit) :
    buildSstable lengths total t vs (c, next) =
      some (t.sourceWrites lengths c.srcId (t.count lengths (vs.take c.srcId))
        ((vs.drop c.srcId).take (next - c.srcId))) := by
  have hstart : (⟨c.indexOffset, c.edgeOffset, c.propertyOffset, []⟩ : ChunkBuild) =
      buildAt lengths c.srcId (t.count lengths (vs.take c.srcId)) [] := by
    rw [heq]
    simp [buildAt, chunkAfter, hle]
  have hsplit := congrArg (t.count lengths) (List.take_append_drop c.srcId vs)
  have hsplit' := congrArg (t.count lengths)
    (List.take_append_drop (next - c.srcId) (vs.drop c.srcId))
  rw [count_append] at hsplit hsplit'
  unfold buildSstable
  dsimp only
  rw [hstart, foldlM_writeSource _ _ _ _ (by omega) hlimit]
  simp [buildAt]

/-- The threads of the chunks from one on write what its sources and all later ones need. -/
theorem mapM_buildSstable {total : Nat} (c : Chunk) (cs : List Chunk)
    (hstarts : ∀ d ∈ c :: cs, d.srcId ≤ vs.length ∧ d = chunkAfter lengths t (vs.take d.srcId))
    (hrising : ((c :: cs).map Chunk.srcId).Pairwise (· ≤ ·))
    (htotal : t.count lengths vs ≤ total) (hlimit : edgeBodySize * total < offsetLimit) :
    ∃ wss, (jobs vs.length (c :: cs)).mapM (buildSstable lengths total t vs) = some wss ∧
      wss.flatten = t.sourceWrites lengths c.srcId (t.count lengths (vs.take c.srcId))
        (vs.drop c.srcId) := by
  induction cs generalizing c with
  | nil =>
    obtain ⟨hle, heq⟩ := hstarts c (List.mem_singleton_self c)
    refine ⟨[_], by rw [jobs, List.mapM_cons, buildSstable_eq _ hle heq htotal hlimit]; rfl, ?_⟩
    rw [List.flatten_cons, List.flatten_nil, List.append_nil, ← List.length_drop, List.take_length]
  | cons d ds ih =>
    obtain ⟨⟨hle, heq⟩, hds⟩ := List.forall_mem_cons.mp hstarts
    obtain ⟨hcd, hrest⟩ := List.pairwise_cons.mp hrising
    obtain ⟨wss, hwss, hflat⟩ := ih d hds hrest
    have hd : c.srcId ≤ d.srcId := hcd _ (List.mem_cons_self ..)
    have hdle : d.srcId ≤ vs.length := (hds d (List.mem_cons_self ..)).1
    refine ⟨_ :: wss, by
      rw [jobs, List.mapM_cons, buildSstable_eq _ hle heq htotal hlimit, Option.bind_eq_bind,
        Option.bind_some, hwss]
      rfl, ?_⟩
    -- The sources from `c` on are those up to `d` and those from `d` on.
    have hrange : (vs.drop c.srcId).take (d.srcId - c.srcId) ++ vs.drop d.srcId =
        vs.drop c.srcId := by
      have hdrop : vs.drop d.srcId = (vs.drop c.srcId).drop (d.srcId - c.srcId) := by
        rw [List.drop_drop]
        congr 1
        omega
      rw [hdrop, List.take_append_drop]
    have htake : vs.take d.srcId =
        vs.take c.srcId ++ (vs.drop c.srcId).take (d.srcId - c.srcId) := by
      rw [← List.take_add]
      congr 1
      omega
    have hlen : c.srcId + ((vs.drop c.srcId).take (d.srcId - c.srcId)).length = d.srcId := by
      rw [List.length_take, List.length_drop]
      omega
    rw [List.flatten_cons, hflat, htake, count_append]
    conv_rhs => rw [← hrange, sourceWrites_append, hlen]

/-! ## The whole flush -/

theorem length_le_count (h : t.Listed) (hvs : ∀ v ∈ vs, (t.vertexAdjs.lookup v).isSome) :
    vs.length ≤ t.count lengths vs := by
  induction vs with
  | nil => exact Nat.zero_le _
  | cons v vs ih =>
    obtain ⟨hv, hvs⟩ := List.forall_mem_cons.mp hvs
    have hpos : 0 < (t.flushed lengths v).length := by
      rw [length_flushed]
      exact List.length_pos_iff.mpr (h v hv)
    have := ih hvs
    rw [count_cons, List.length_cons]
    omega

/-- The entries that end the index and the bodies of `total` edges of `sources` sources. -/
def closingWrites (lengths : List Nat) (total sources : Nat) : List FlushWrite :=
  [.index (indexSize * sources) ⟨invalidVertexId, edgeBodySize * total⟩,
    .body (edgeBodySize * total) ⟨invalidVertexId, invalidVertexId,
      total * firstLen lengths % offsetLimit, false, true, 0⟩]

/-- However the sources are cut, the threads write one after the other what the sources need. -/
theorem flushChunks_eq {vertexNum maxSubcompactions : Nat} {hv : vertexNum ≤ invalidVertexId}
    {f : SSTable} (h : t.save2eSSTable lengths vertexNum hv = some f) (hlisted : t.Listed)
    (hlimit : edgeBodySize * t.listLength < offsetLimit) (hmax : 0 < maxSubcompactions)
    (hmany : maxSubcompactions + 1 < intLimit) :
    ∃ threads, flushChunks lengths vertexNum maxSubcompactions t = some (threads,
        closingWrites lengths t.listLength (t.vertexSet vertexNum).length) ∧
      threads.flatten = t.sourceWrites lengths 0 0 (t.vertexSet vertexNum) := by
  obtain ⟨-, hkeys, hrecords, hlength⟩ := save2eSSTable_cases h
  have hcount : t.count lengths (t.vertexSet vertexNum) = t.listLength := by
    rw [count, ← hrecords, hlength]
  have hsources : (t.vertexSet vertexNum).length ≤ t.count lengths (t.vertexSet vertexNum) :=
    length_le_count hlisted fun v hv => (List.mem_filter.mp hv).2
  have hpos : 0 < (t.vertexSet vertexNum).length := by
    refine List.length_pos_iff.mpr fun hnil => f.nonempty ?_
    rw [hrecords, hnil]
    rfl
  have hsize : ∃ size, chunkSize maxSubcompactions t.listLength = some size ∧
      (maxSubcompactions = 1 → size = t.listLength) := by
    refine ⟨_, (if_pos hmany).trans (fit_eq ?_), ?_⟩
    · refine Nat.lt_of_le_of_lt (Nat.div_le_self _ _) ?_
      unfold edgeBodySize offsetLimit at hlimit
      unfold intLimit
      omega
    · rintro rfl
      exact Nat.div_one _
  obtain ⟨size, hsize, hone⟩ := hsize
  have hstart : CutUpTo lengths t size (t.vertexSet vertexNum) [] _ := cutUpTo_start
  obtain ⟨s, hs, hcut⟩ := foldlM_nextSource hstart (List.nil_append _).symm (hcount ▸ hlimit)
    hsources
  have hi : s.i = (t.vertexSet vertexNum).length := hcut.i
  obtain ⟨cs, hcs⟩ := hcut.first
  have hstarts := hcut.starts
  have hrising := hcut.rising
  rw [hcs, hi] at hstarts
  rw [hcs] at hrising
  obtain ⟨threads, hthreads, hflat⟩ := mapM_buildSstable _ cs hstarts hrising hcount.le hlimit
  have hjobs : (if 1 < maxSubcompactions then jobs s.i s.chunks else (jobs s.i s.chunks).take 1) =
      jobs s.i s.chunks := by
    split
    · rfl
    · have hsizeEq := hone (by omega)
      rw [hcut.whole (by omega)]
      rfl
  refine ⟨threads, ?_, by simpa [count_nil] using hflat⟩
  unfold flushChunks
  simp only [hsize, Option.bind_eq_bind, Option.bind_some, hs]
  rw [if_pos ⟨hi.trans hkeys, by omega, hcut.edges.trans hcount⟩, hjobs, hi, hcs, hthreads,
    Option.bind_some, closing, fit_eq hlimit, hcut.bytes, hcount]
  rfl

/-! ## The buffers of the file -/

section

variable {γ : Type} (g : FlushWrite → Option γ)

/-- What is about records: one part for each record of the file. -/
theorem filterMap_sourceWrites_of_records (hg : ∀ place e, g (.index place e) = none) (i n : Nat)
    (vs : List Nat) : (t.sourceWrites lengths i n vs).filterMap g =
      ((vs.flatMap fun v => t.flushed lengths v).zipIdx n).flatMap fun p =>
        (recordWrite lengths p).filterMap g := by
  induction vs generalizing i n with
  | nil => rfl
  | cons v vs ih =>
    rw [sourceWrites, List.filterMap_cons_none (hg _ _), List.filterMap_append, ih,
      List.flatMap_cons, List.zipIdx_append, List.flatMap_append, recordWrites,
      List.filterMap_flatMap]

theorem filterMap_sourceWrites_of_bodies {val : Nat → EdgeBody → γ}
    (hbody : ∀ place b, g (.body place b) = some (val place b))
    (hindex : ∀ place e, g (.index place e) = none)
    (hslot : ∀ p place value, g (.slot p place value) = none) (vs : List Nat) :
    (t.sourceWrites lengths 0 0 vs).filterMap g =
      (vs.flatMap fun v => t.flushed lengths v).zipIdx.map fun p =>
        val (edgeBodySize * p.2) (SSTableWriter.bodyOf (firstLen lengths) p.2 p.1) := by
  rw [filterMap_sourceWrites_of_records g hindex, List.map_eq_flatMap]
  refine List.flatMap_congr fun p _ => ?_
  rw [recordWrite, List.filterMap_cons, hbody, List.filterMap_map]
  exact congrArg _ (List.filterMap_eq_nil_iff.mpr fun l _ => hslot _ _ _)

/-- The records of the sources before one are those with a smaller source. -/
theorem count_eq_countP {done rest : List Nat} {v : Nat}
    (h : (done ++ v :: rest).Pairwise (· < ·)) : t.count lengths done =
      ((done ++ v :: rest).flatMap fun v => t.flushed lengths v).countP (·.src < v) := by
  obtain ⟨-, hrest, hbefore⟩ := List.pairwise_append.mp h
  have hsmall : ∀ r ∈ done.flatMap fun v => t.flushed lengths v, decide (r.src < v) = true := by
    intro r hr
    obtain ⟨u, hu, hr⟩ := List.mem_flatMap.mp hr
    rw [decide_eq_true_eq, flushed_src lengths u r hr]
    exact hbefore u hu v (List.mem_cons_self ..)
  have hlarge : ∀ r ∈ (v :: rest).flatMap fun v => t.flushed lengths v,
      ¬ decide (r.src < v) = true := by
    intro r hr
    obtain ⟨u, hu, hr⟩ := List.mem_flatMap.mp hr
    rw [decide_eq_true_eq, flushed_src lengths u r hr]
    rcases List.mem_cons.mp hu with rfl | hu
    · exact Nat.lt_irrefl _
    · exact Nat.lt_asymm ((List.pairwise_cons.mp hrest).1 u hu)
  rw [List.flatMap_append, List.countP_append, List.countP_eq_length.mpr hsmall,
    List.countP_eq_zero.mpr hlarge]
  rfl

/-- What is about the index: an entry for each source, at the number of the records with smaller
sources. -/
theorem filterMap_sourceWrites_of_index {val : Nat → Index → γ}
    (hindex : ∀ place e, g (.index place e) = some (val place e))
    (hbody : ∀ place b, g (.body place b) = none)
    (hslot : ∀ p place value, g (.slot p place value) = none) (done rest : List Nat)
    (h : (done ++ rest).Pairwise (· < ·)) :
    (t.sourceWrites lengths done.length (t.count lengths done) rest).filterMap g =
      (rest.zipIdx done.length).map fun q => val (indexSize * q.2) ⟨q.1, edgeBodySize *
        ((done ++ rest).flatMap fun v => t.flushed lengths v).countP (·.src < q.1)⟩ := by
  induction rest generalizing done with
  | nil => rfl
  | cons v rest ih =>
    have hassoc : done ++ [v] ++ rest = done ++ v :: rest := by simp
    have hnone : (recordWrites lengths (t.count lengths done) (t.flushed lengths v)).filterMap g =
        [] := by
      rw [List.filterMap_eq_nil_iff]
      intro w hw
      obtain ⟨p, -, hw⟩ := List.mem_flatMap.mp hw
      rcases List.mem_cons.mp hw with rfl | hw
      · exact hbody _ _
      · obtain ⟨l, -, rfl⟩ := List.mem_map.mp hw
        exact hslot _ _ _
    have hrest := ih (done ++ [v]) (hassoc ▸ h)
    rw [hassoc, count_append, count_cons, count_nil, Nat.add_zero, List.length_append,
      List.length_singleton] at hrest
    rw [sourceWrites, List.filterMap_cons, hindex, List.filterMap_append, hnone, List.nil_append,
      hrest, count_eq_countP h, List.zipIdx_cons, List.map_cons]

end

/-- The slots of one column that a record gives. -/
theorem filterMap_recordWrite_slotBytes {p len : Nat} (hp : lengths[p]? = some len)
    (q : EdgeRecord × Nat) : (recordWrite lengths q).filterMap (FlushWrite.slotBytes p) =
      [(q.2 * len % offsetLimit, (q.1.props.getD p []).map some)] := by
  have hnodup : (lengths.zipIdx.map Prod.snd).Nodup := by
    rw [List.zipIdx_map_snd]
    exact List.nodup_range'
  have hmem : (len, p) ∈ lengths.zipIdx := List.mem_zipIdx_iff_getElem?.mpr hp
  have hcolumn := filter_key_eq_singleton hnodup hmem
  have hpick : (FlushWrite.slotBytes p) ∘ (fun l : Nat × Nat =>
      FlushWrite.slot l.2 (q.2 * l.1 % offsetLimit) (q.1.props.getD l.2 [])) =
      fun l => (Option.guard (fun l => l.2 == p) l).map fun l =>
        (q.2 * l.1 % offsetLimit, (q.1.props.getD l.2 []).map some) := by
    funext l
    by_cases hl : l.2 = p <;> simp [FlushWrite.slotBytes, Option.guard, hl]
  rw [recordWrite, List.filterMap_cons_none rfl, List.filterMap_map, hpick, ← List.map_filterMap,
    List.filterMap_eq_filter, hcolumn]
  rfl

section

variable {rs : List EdgeRecord} {order : List FlushWrite}

theorem length_slots (hrs : rs = vs.flatMap fun v => t.flushed lengths v) {p len : Nat}
    (hp : lengths[p]? = some len) :
    ∀ r ∈ rs, ((r.props.getD p []).map some).length = len := by
  intro r hr
  rw [hrs] at hr
  obtain ⟨v, -, hr⟩ := List.mem_flatMap.mp hr
  obtain ⟨e, -, rfl⟩ := List.mem_map.mp hr
  simp [Edge.toRecord, writeColumns, hp]

theorem bodies_after (hrs : rs = vs.flatMap fun v => t.flushed lengths v)
    (horder : order.Perm (t.sourceWrites lengths 0 0 vs)) :
    (SstBuffers.after lengths rs.length vs.length
      (order ++ closingWrites lengths rs.length vs.length)).bodies =
      (SstBuffers.ofRecords lengths vs rs).bodies := by
  have hthreads := horder.filterMap FlushWrite.bodyCell
  rw [filterMap_sourceWrites_of_bodies FlushWrite.bodyCell (fun _ _ => rfl) (fun _ _ => rfl)
    (fun _ _ _ => rfl), ← hrs] at hthreads
  unfold SstBuffers.after SstBuffers.ofRecords
  dsimp only
  rw [List.filterMap_append]
  refine foldl_writeAt_cells ((hthreads.append_right _).trans (List.Perm.of_eq ?_)) (by simp)
  rw [List.zipIdx_append, zipIdx_map_zipIdx, List.map_append, List.map_map]
  simp [closingWrites, FlushWrite.bodyCell, Function.comp_def, edgeBodySize, firstLen,
    List.filterMap_cons]

theorem indexes_after (hvs : vs.Pairwise (· < ·))
    (hrs : rs = vs.flatMap fun v => t.flushed lengths v)
    (horder : order.Perm (t.sourceWrites lengths 0 0 vs)) :
    (SstBuffers.after lengths rs.length vs.length
      (order ++ closingWrites lengths rs.length vs.length)).indexes =
      (SstBuffers.ofRecords lengths vs rs).indexes := by
  have hthreads := horder.filterMap FlushWrite.indexCell
  have hwrites : (t.sourceWrites lengths 0 0 vs).filterMap FlushWrite.indexCell = _ :=
    filterMap_sourceWrites_of_index FlushWrite.indexCell (fun _ _ => rfl) (fun _ _ => rfl)
      (fun _ _ _ => rfl) [] vs hvs
  rw [hwrites, List.nil_append, ← hrs] at hthreads
  unfold SstBuffers.after SstBuffers.ofRecords
  dsimp only
  rw [List.filterMap_append]
  refine foldl_writeAt_cells ((hthreads.append_right _).trans (List.Perm.of_eq ?_)) (by simp)
  rw [List.zipIdx_append, List.zipIdx_map, List.map_append, List.map_map]
  simp [closingWrites, FlushWrite.indexCell, Function.comp_def, indexSize, List.filterMap_cons]

theorem columns_after (hrs : rs = vs.flatMap fun v => t.flushed lengths v)
    (horder : order.Perm (t.sourceWrites lengths 0 0 vs))
    (hfits : ∀ len ∈ lengths, (rs.length - 1) * len < offsetLimit) :
    (SstBuffers.after lengths rs.length vs.length
      (order ++ closingWrites lengths rs.length vs.length)).columns =
      (SstBuffers.ofRecords lengths vs rs).columns := by
  unfold SstBuffers.after SstBuffers.ofRecords
  dsimp only
  refine List.mapIdx_eq_mapIdx_iff.mpr fun p hp => ?_
  have hlen : lengths[p]? = some lengths[p] := List.getElem?_eq_getElem hp
  have hthreads := horder.filterMap (FlushWrite.slotBytes p)
  rw [filterMap_sourceWrites_of_records _ (fun _ _ => rfl), ← hrs] at hthreads
  simp only [filterMap_recordWrite_slotBytes hlen] at hthreads
  rw [← List.map_eq_flatMap] at hthreads
  rw [List.filterMap_append]
  refine foldl_writeAt_pieces (length_slots hrs hlen) ?_ List.length_replicate
  · refine (hthreads.append_right _).trans (List.Perm.of_eq ?_)
    rw [show (closingWrites lengths rs.length vs.length).filterMap (FlushWrite.slotBytes p) =
      [] from
      rfl, List.append_nil]
    refine List.map_congr_left fun q hq => ?_
    -- No place of a slot is cut, for the last one is not.
    have hq : q.2 < rs.length := List.snd_lt_of_mem_zipIdx hq
    have hle : q.2 * lengths[p] ≤ (rs.length - 1) * lengths[p] :=
      Nat.mul_le_mul_right _ (by omega)
    rw [Nat.mod_eq_of_lt (Nat.lt_of_le_of_lt hle (hfits _ (List.getElem_mem hp)))]

theorem tiled_sourceWrites (hvs : vs.Pairwise (· < ·))
    (hrs : rs = vs.flatMap fun v => t.flushed lengths v) :
    Tiled lengths rs.length vs.length (t.sourceWrites lengths 0 0 vs) ↔
      ∀ len ∈ lengths, rs.length ≠ 0 → (rs.length - 1) * len < offsetLimit := by
  have hnumbers : ∀ h : Nat → Nat,
      (rs.zipIdx.map fun p => h p.2) = (List.range rs.length).map h := by
    intro h
    rw [List.range_eq_range', ← List.zipIdx_map_snd, List.map_map]
    rfl
  have hslots : ∀ p len, lengths[p]? = some len →
      ((t.sourceWrites lengths 0 0 vs).filterMap (FlushWrite.slotBytes p)).map Prod.fst =
        (List.range rs.length).map fun k => k * len % offsetLimit := by
    intro p len hp
    rw [filterMap_sourceWrites_of_records _ (fun _ _ => rfl), ← hrs, ← hnumbers]
    simp only [filterMap_recordWrite_slotBytes hp]
    rw [← List.map_eq_flatMap, List.map_map]
    rfl
  constructor
  · intro h len hlen hne
    obtain ⟨p, hp⟩ := List.mem_iff_getElem?.mp hlen
    have heq := (hslots p len hp).symm.trans (h.slots p len hp)
    have hlast := List.map_inj_left.mp heq (rs.length - 1) (List.mem_range.mpr (by omega))
    rw [← hlast]
    exact Nat.mod_lt _ (by decide)
  · intro h
    refine ⟨?_, ?_, fun p len hp => (hslots p len hp).trans ?_⟩
    · rw [filterMap_sourceWrites_of_bodies FlushWrite.bodyPlace (fun _ _ => rfl) (fun _ _ => rfl)
        (fun _ _ _ => rfl), ← hrs, ← hnumbers]
      simp only [Nat.mul_comm]
    · have hwrites : (t.sourceWrites lengths 0 0 vs).filterMap FlushWrite.indexPlace = _ :=
        filterMap_sourceWrites_of_index FlushWrite.indexPlace (fun _ _ => rfl) (fun _ _ => rfl)
          (fun _ _ _ => rfl) [] vs hvs
      rw [hwrites, List.range_eq_range', ← List.zipIdx_map_snd, List.map_map]
      exact List.map_congr_left fun q _ => Nat.mul_comm _ _
    · refine List.map_congr_left fun k hk => Nat.mod_eq_of_lt ?_
      have hlt := List.mem_range.mp hk
      have hle : k * len ≤ (rs.length - 1) * len := Nat.mul_le_mul_right _ (by omega)
      exact Nat.lt_of_le_of_lt hle (h len (List.mem_of_getElem? hp) (by omega))

end

/-- The header of the file. -/
def sstHeader (t : MemTable) (vertexSet : List Nat) : SstHeader where
  timeStamp := t.fid
  size := t.listLength + 1
  indexSize := vertexSet.length + 1
  minKey := vertexSet.head?.getD 0
  maxKey := vertexSet.getLast?.getD 0

/-- The pieces of the chunks tile the buffers, and whatever the order of the writes of the threads
the files hold the records one after the other. -/
def FlushesTo (lengths : List Nat) (vertexNum maxSubcompactions : Nat) (t : MemTable)
    (rs : List EdgeRecord) : Prop :=
  ∃ threads last, flushChunks lengths vertexNum maxSubcompactions t = some (threads, last) ∧
    Tiled lengths rs.length (t.vertexSet vertexNum).length threads.flatten ∧
    ∀ order, order.Perm threads.flatten →
      ((SstBuffers.after lengths rs.length (t.vertexSet vertexNum).length (order ++ last)).files
        (t.sstHeader (t.vertexSet vertexNum))).write =
      (SstBuffers.ofRecords lengths (t.vertexSet vertexNum) rs).files
        (t.sstHeader (t.vertexSet vertexNum))

/-- No buffer is longer than what one `write` takes. -/
def FitsWrites (lengths : List Nat) (total sources : Nat) : Prop :=
  eFileSize total sources ≤ maxWrite ∧ ∀ len ∈ lengths, total * len ≤ maxWrite

instance (lengths : List Nat) (total sources : Nat) :
    Decidable (FitsWrites lengths total sources) := inferInstanceAs (Decidable (_ ∧ _))

/-- The files of some records are as long as the records need. -/
theorem fitsWrites_iff {rs : List EdgeRecord} (header : SstHeader)
    (hrs : rs = vs.flatMap fun v => t.flushed lengths v) :
    FitsWrites lengths rs.length vs.length ↔
      ((SstBuffers.ofRecords lengths vs rs).files header).eFile.length ≤ maxWrite ∧
      ∀ c ∈ ((SstBuffers.ofRecords lengths vs rs).files header).pFiles, c.length ≤ maxWrite := by
  have hedges : ((SstBuffers.ofRecords lengths vs rs).files header).eFile.length =
      eFileSize rs.length vs.length := by
    rw [SstBuffers.length_eFile]
    simp only [SstBuffers.ofRecords, eFileSize, List.length_map, List.length_append,
      List.length_zipIdx, List.length_singleton, Nat.mul_comm indexSize]
    omega
  have hcolumn : ∀ p len, lengths[p]? = some len →
      (rs.flatMap fun r => (r.props.getD p []).map some).length = rs.length * len := by
    intro p len hp
    rw [List.length_flatMap, List.map_congr_left (length_slots hrs hp)]
    simp
  rw [hedges]
  refine and_congr_right fun _ => ⟨fun h c hc => ?_, fun h len hlen => ?_⟩
  · obtain ⟨p, hp, rfl⟩ := List.mem_mapIdx.mp hc
    rw [hcolumn p _ (List.getElem?_eq_getElem hp)]
    exact h _ (List.getElem_mem hp)
  · obtain ⟨p, hp, rfl⟩ := List.mem_iff_getElem.mp hlen
    rw [← hcolumn p _ (List.getElem?_eq_getElem hp)]
    exact h _ (List.mem_mapIdx.mpr ⟨p, hp, rfl⟩)

variable {vertexNum maxSubcompactions : Nat} {hv : vertexNum ≤ invalidVertexId} {f : SSTable}

/-- The pieces tile the buffers exactly when no place of a slot is cut. -/
theorem tiled_iff (h : t.save2eSSTable lengths vertexNum hv = some f) :
    Tiled lengths f.records.length (t.vertexSet vertexNum).length
        (t.sourceWrites lengths 0 0 (t.vertexSet vertexNum)) ↔
      ∀ len ∈ lengths, (t.listLength - 1) * len < offsetLimit := by
  obtain ⟨-, -, hrecords, hlength⟩ := save2eSSTable_cases h
  have hne : f.records.length ≠ 0 := fun h0 => f.nonempty (List.length_eq_zero_iff.mp h0)
  have htiled := tiled_sourceWrites (pairwise_vertexSet vertexNum) hrecords
  simp only [hne, ne_eq, not_false_eq_true, true_implies] at htiled
  rw [← hlength]
  exact htiled

theorem flushesTo_iff (h : t.save2eSSTable lengths vertexNum hv = some f) (hlisted : t.Listed)
    (hlimit : edgeBodySize * t.listLength < offsetLimit) (hmax : 0 < maxSubcompactions) :
    t.FlushesTo lengths vertexNum maxSubcompactions f.records ↔
      maxSubcompactions + 1 < intLimit ∧
        FitsWrites lengths t.listLength (t.vertexSet vertexNum).length := by
  obtain ⟨-, -, hrecords, hlength⟩ := save2eSSTable_cases h
  have hsizes := fitsWrites_iff (t.sstHeader (t.vertexSet vertexNum)) hrecords
  have htiled := tiled_iff h
  rw [← hlength] at htiled ⊢
  rw [hsizes]
  constructor
  · rintro ⟨threads, last, hflush, -, hfiles⟩
    refine ⟨?_, ?_, ?_⟩
    · by_contra hmany
      simp [flushChunks, chunkSize, hmany] at hflush
    · rw [← hfiles _ (List.Perm.refl _)]
      exact List.length_take_le _ _
    · rw [← hfiles _ (List.Perm.refl _)]
      intro c hc
      obtain ⟨c', -, rfl⟩ := List.mem_map.mp hc
      exact List.length_take_le _ _
  · rintro ⟨hmany, hwrites⟩
    have hfits : ∀ len ∈ lengths, (f.records.length - 1) * len < offsetLimit := by
      intro len hlen
      have hle : (f.records.length - 1) * len ≤ f.records.length * len :=
        Nat.mul_le_mul_right _ (Nat.sub_le _ _)
      have := (hsizes.mpr hwrites).2 len hlen
      unfold maxWrite at this
      unfold offsetLimit
      omega
    obtain ⟨threads, hflush, hflat⟩ := flushChunks_eq h hlisted hlimit hmax hmany
    refine ⟨threads, _, hflush, hflat ▸ htiled.mpr hfits, fun order horder => ?_⟩
    rw [hflat] at horder
    have hbodies := bodies_after hrecords horder
    have hindexes := indexes_after (pairwise_vertexSet vertexNum) hrecords horder
    have hcolumns := columns_after hrecords horder hfits
    rw [← hlength, SstBuffers.ext hbodies hindexes hcolumns]
    exact SstFiles.write_eq _ hwrites.1 hwrites.2

/-- For every number of chunks the files have all the records of the table in order, with its index
and its slots, exactly when that number is no more than `reserve` takes and every file is no longer
than one `write` takes. -/
theorem chunks_tile_the_file_iff (h : t.save2eSSTable lengths vertexNum hv = some f)
    (hlisted : t.Listed) (hlimit : edgeBodySize * t.listLength < offsetLimit)
    (hmax : 0 < maxSubcompactions) :
    (f.records.Pairwise EdgeRecord.le ∧ (∀ v, (f.recordsOf v).Perm (t.recordsOf lengths v)) ∧
      t.FlushesTo lengths vertexNum maxSubcompactions f.records) ↔
      maxSubcompactions + 1 < intLimit ∧
        FitsWrites lengths t.listLength (t.vertexSet vertexNum).length := by
  rw [← flushesTo_iff h hlisted hlimit hmax]
  exact ⟨fun hall => hall.2.2, fun hto => ⟨f.sorted, (save2eSSTable_spec h).2, hto⟩⟩

/-- Three edges of two sources. -/
def threeEdges : MemTable :=
  (((fresh 0 3).putEdge 8 1 ⟨5, 1, false, [], true, 0⟩).putEdge 8 0
    ⟨6, 2, false, [], true, 0⟩).putEdge 8 1 ⟨4, 3, false, [], true, 0⟩

theorem listed_threeEdges : threeEdges.Listed :=
  listed_putEdge (listed_putEdge (listed_putEdge (listed_fresh 0 3)))

theorem three_edges_are_flushed_in_two_chunks :
    ∃ f, threeEdges.save2eSSTable [4] 2 (by decide) = some f ∧
      threeEdges.FlushesTo [4] 2 2 f.records := by
  obtain ⟨f, hf⟩ := Option.isSome_iff_exists.mp
    (show (threeEdges.save2eSSTable [4] 2 (by decide)).isSome = true by decide +kernel)
  exact ⟨f, hf, ((chunks_tile_the_file_iff hf listed_threeEdges (by decide) (by decide)).mpr
    (by decide)).2.2⟩

/-- The third slot of a column of two gigabytes starts where the first one does. -/
theorem a_slot_of_a_long_column_is_overwritten :
    ∃ f threads last, threeEdges.save2eSSTable [2 ^ 31] 2 (by decide) = some f ∧
      flushChunks [2 ^ 31] 2 1 threeEdges = some (threads, last) ∧
      ¬ Tiled [2 ^ 31] f.records.length (threeEdges.vertexSet 2).length threads.flatten ∧
      ¬ threeEdges.FlushesTo [2 ^ 31] 2 1 f.records := by
  obtain ⟨f, hf⟩ := Option.isSome_iff_exists.mp
    (show (threeEdges.save2eSSTable [2 ^ 31] 2 (by decide)).isSome = true by decide +kernel)
  obtain ⟨threads, hflush, hflat⟩ :=
    flushChunks_eq hf listed_threeEdges (by decide) Nat.one_pos (by decide)
  have hnot : ¬ Tiled [2 ^ 31] f.records.length (threeEdges.vertexSet 2).length
      threads.flatten := by
    rw [hflat, tiled_iff hf]
    exact fun hfits => absurd (hfits _ (List.mem_singleton_self _)) (by decide)
  refine ⟨f, threads, _, hf, hflush, hnot, ?_⟩
  rintro ⟨threads', last', hflush', htiled, -⟩
  rw [hflush] at hflush'
  cases hflush'
  exact hnot htiled

end MemTable

end RichGraph
