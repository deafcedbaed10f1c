-- Files that `Create` writes: they are opened again with the records and the
-- metadata that were written, and with any byte changed they are not opened.
import RichGraph.DeltaFileOpen
import RichGraph.Lib.Lists
import Mathlib.Data.Prod.Lex

namespace RichGraph

open Lib Manifest

namespace DeltaFormat

/-! ## The order of versions -/

/-- The place of a version in the order of the table. -/
def versionRank (v : Key × Nat) : ℕ ×ₗ ℕ ×ₗ ℕ ×ₗ ℕ ×ₗ ℤ ×ₗ ℕ :=
  toLex (v.1.src, toLex (v.1.dst, toLex (v.1.isOut.toNat, toLex (v.1.edgeType.toNat,
    toLex (v.1.baseSequence, v.2)))))

theorem versionRank_injective : Function.Injective versionRank := by
  rintro ⟨⟨src, dst, base, isOut, edgeType⟩, commit⟩
    ⟨⟨src', dst', base', isOut', edgeType'⟩, commit'⟩ h
  simp only [versionRank, EmbeddingLike.apply_eq_iff_eq, Prod.mk.injEq, UInt8.toNat_inj] at h
  obtain ⟨rfl, rfl, hout, rfl, rfl, rfl⟩ := h
  cases isOut <;> cases isOut' <;> first | rfl | cases hout

theorem versionLess_iff {v w : Key × Nat} : VersionLess v w ↔ versionRank v < versionRank w := by
  obtain ⟨⟨src, dst, base, isOut, edgeType⟩, commit⟩ := v
  obtain ⟨⟨src', dst', base', isOut', edgeType'⟩, commit'⟩ := w
  have hout : isOut = isOut' ↔ isOut.toNat = isOut'.toNat := by
    cases isOut <;> cases isOut' <;> simp
  simp only [VersionLess, Key.Less, versionRank, Prod.Lex.toLex_lt_toLex, Key.mk.injEq, hout,
    ← UInt8.toNat_inj]
  omega

variable {r r' : Record}

theorem notAfter_iff : r.NotAfter r' ↔ versionRank r.version ≤ versionRank r'.version := by
  unfold Record.NotAfter
  rw [versionLess_iff, not_lt]

instance : Std.Total Record.NotAfter :=
  ⟨fun a b => by rw [notAfter_iff, notAfter_iff]; exact le_total _ _⟩

instance : IsTrans Record Record.NotAfter :=
  ⟨fun a b c => by rw [notAfter_iff, notAfter_iff, notAfter_iff]; exact le_trans⟩

/-! ## The records of a file -/

variable {rs records : List Record}

theorem sorted_deduplicated (records : List Record) :
    (deduplicated records).Pairwise fun a b => VersionLess a.version b.version := by
  refine pairwise_keepLast (fun {a b} hle hne => ?_) (fun {a b c} hab hbc => ?_)
    (List.pairwise_insertionSort Record.NotAfter records)
  · rw [versionLess_iff]
    exact lt_of_le_of_ne (notAfter_iff.mp hle) fun heq => hne (versionRank_injective heq)
  · rw [versionLess_iff] at hab ⊢
    exact hab.trans_le (notAfter_iff.mp hbc)

/-- Neither the sort nor the choice of one record of each version changes what a scan finds that
sees all records of a version or none. -/
theorem newestOf_deduplicated {seen : Record → Prop} [DecidablePred seen] {commit : Record → Nat}
    (hkey : ∀ a b, seen a → seen b → VersionLess b.version a.version → commit b < commit a)
    (hsame : ∀ a b, Record.SameVersion a b → seen a → seen b ∧ commit a ≤ commit b) :
    newestOf seen commit (deduplicated records) = newestOf seen commit records := by
  unfold deduplicated
  rw [newestOf_keepLast hsame, newestOf_insertionSort]
  intro a b hafter ha hb
  exact hkey a b ha hb (not_not.mp hafter)

/-- The last record of each version of the input is the one in the file. -/
theorem mem_deduplicated_iff : r ∈ deduplicated records ↔
    ∃ before after, records = before ++ r :: after ∧ ∀ r' ∈ after, r'.version ≠ r.version := by
  -- A scan for this version, in which any record is as new as another.
  have hscan : newestOf (fun a => a.version = r.version) (fun _ => 0) (deduplicated records) =
      newestOf (fun a => a.version = r.version) (fun _ => 0) records := by
    refine newestOf_deduplicated (fun a b ha hb hless => ?_)
      fun a b hsame ha => ⟨Eq.trans (Eq.symm hsame) ha, Nat.le_refl _⟩
    rw [versionLess_iff, ha, hb] at hless
    exact absurd hless (lt_irrefl _)
  have hfound : r ∈ deduplicated records ↔
      newestOf (fun a => a.version = r.version) (fun _ => 0) (deduplicated records) = some r := by
    constructor
    · intro hr
      obtain ⟨before, after, heq⟩ := List.append_of_mem hr
      have hsorted := sorted_deduplicated records
      rw [heq] at hsorted ⊢
      refine newestOf_eq_iff.mpr ⟨before, after, rfl, rfl, fun _ _ _ => Nat.le_refl _, ?_⟩
      intro b hb hsame
      have hless := (List.pairwise_cons.mp (List.pairwise_append.mp hsorted).2.1).1 b hb
      rw [versionLess_iff, hsame] at hless
      exact absurd hless (lt_irrefl _)
    · intro hnewest
      obtain ⟨before, after, heq, -⟩ := newestOf_eq_iff.mp hnewest
      rw [heq]
      exact List.mem_append_right _ List.mem_cons_self
  rw [hfound, hscan, newestOf_eq_iff]
  constructor
  · rintro ⟨before, after, heq, -, -, hafter⟩
    exact ⟨before, after, heq, fun b hb hsame => absurd (hafter b hb hsame) (lt_irrefl _)⟩
  · rintro ⟨before, after, heq, hafter⟩
    exact ⟨before, after, heq, rfl, fun _ _ _ => Nat.le_refl _,
      fun b hb hsame => absurd hsame (hafter b hb)⟩

/-- The commits that a header gives are bounds. -/
theorem minCommit_le (hr : r ∈ rs) : minCommit rs ≤ r.commitSequence :=
  (foldl_min_le _ rs _).2 r hr

theorem le_maxCommit (hr : r ∈ rs) : r.commitSequence ≤ maxCommit rs :=
  (le_foldl_max _ rs _).2 r hr

/-! ## The bytes of a file -/

theorem length_diskRecords (offset : Nat) (rs : List Record) :
    (diskRecords offset rs).length = rs.length := by
  induction rs generalizing offset with
  | nil => rfl
  | cons r rs ih => rw [diskRecords, List.length_cons, ih, List.length_cons]

theorem length_tableBytes (rs : List Record) : (tableBytes rs).length = rs.length * recordSize := by
  unfold tableBytes
  rw [List.length_flatMap, List.map_congr_left fun d _ => length_bytes_disk d, List.map_const',
    List.sum_replicate_nat, length_diskRecords]

theorem map_version_diskRecords (offset : Nat) (rs : List Record) :
    (diskRecords offset rs).map DeltaDiskRecord.version = rs.map Record.version := by
  induction rs generalizing offset with
  | nil => rfl
  | cons r rs ih =>
    rw [diskRecords, List.map_cons, List.map_cons, ih]
    congr 1
    obtain ⟨src, dst, base, commit, isOut, edgeType, value, hrange⟩ := r
    cases isOut <;> rfl

theorem value_inside {d : DeltaDiskRecord} {offset : Nat} (hd : d ∈ diskRecords offset rs) :
    offset ≤ d.valueOffset ∧ d.valueOffset + d.valueLength ≤ offset + (valueBytes rs).length := by
  induction rs generalizing offset with
  | nil => cases hd
  | cons r rs ih =>
    unfold valueBytes at ih ⊢
    rw [List.flatMap_cons, List.length_append]
    rcases List.mem_cons.mp hd with rfl | hd
    · dsimp only
      omega
    · have := ih hd
      omega

theorem valueLength_le {d : DeltaDiskRecord} {offset most : Nat}
    (h : ∀ r ∈ rs, r.value.length ≤ most) (hd : d ∈ diskRecords offset rs) :
    d.valueLength ≤ most := by
  induction rs generalizing offset with
  | nil => cases hd
  | cons r rs ih =>
    obtain ⟨hr, hrs⟩ := List.forall_mem_cons.mp h
    rcases List.mem_cons.mp hd with rfl | hd
    · exact hr
    · exact ih hrs hd

/-- The table and the values together give the records back. -/
theorem map_toRecord_diskRecords (before : Bytes) (rs : List Record) :
    ((diskRecords before.length rs).map fun d =>
      d.toRecord (((before ++ valueBytes rs).drop d.valueOffset).take d.valueLength)) = rs := by
  induction rs generalizing before with
  | nil => rfl
  | cons r rs ih =>
    have hrest := ih (before ++ r.value)
    rw [List.length_append, List.append_assoc] at hrest
    rw [diskRecords, List.map_cons]
    congr 1
    have hvalue : ((before ++ valueBytes (r :: rs)).drop before.length).take r.value.length =
        r.value := by
      rw [List.drop_left, valueBytes, List.flatMap_cons, List.take_left]
    obtain ⟨src, dst, base, commit, isOut, edgeType, value, hrange⟩ := r
    unfold DeltaDiskRecord.toRecord
    dsimp only at hvalue ⊢
    rw [hvalue]
    cases isOut <;> rfl

/-! ## Created files are opened -/

variable {target : PropertyDeltaTarget} {fileGeneration : Nat}

/-- What `Create` makes sure of before it writes these records. -/
structure Writable (target : PropertyDeltaTarget) (fileGeneration : Nat) (rs : List Record) :
    Prop where
  values : ∀ r ∈ rs, r.value.length ≤ maxUInt32
  range : TargetInRange target fileGeneration
  size : headerSize + rs.length * recordSize + (valueBytes rs).length < 2 ^ 63
  sorted : rs.Pairwise fun a b => VersionLess a.version b.version

theorem create_ok {file : Bytes} (h : create target fileGeneration records = .ok file) :
    records ≠ [] ∧ Writable target fileGeneration (deduplicated records) ∧
      file = fileBytes target fileGeneration (deduplicated records) := by
  unfold create at h
  split at h
  · cases h
  rename_i hne
  split at h
  · cases h
  dsimp only at h
  split at h
  · cases h
  rename_i hvalues
  split at h
  · cases h
  split at h
  · rename_i hfit
    refine ⟨hne, ⟨fun r hr => ?_, hfit.1, hfit.2, sorted_deduplicated records⟩,
      (Except.ok.inj h).symm⟩
    exact Nat.not_lt.mp fun hlt => hvalues ⟨r, hr, hlt⟩
  · cases h

theorem create_valid {file : Bytes} (h : create target fileGeneration records = .ok file) :
    target.baseFileId ≠ invalidFileId := by
  intro hinvalid
  unfold create at h
  rw [if_pos hinvalid] at h
  split at h
  · cases h
  · cases h

theorem headerChecksum_makeHeader (target : PropertyDeltaTarget) (fileGeneration : Nat)
    (rs : List Record) : headerChecksum (makeHeader target fileGeneration rs) =
      (makeHeader target fileGeneration rs).headerChecksum := by
  have hset : ∀ (h : DeltaDiskHeader) (n : Nat),
      headerChecksum { h with headerChecksum := n } = headerChecksum h := fun _ _ => rfl
  unfold makeHeader
  extract_lets h
  clear_value h
  dsimp only
  exact hset h _

theorem headerChecksum_lt (h : DeltaDiskHeader) : headerChecksum h < 256 ^ 8 := UInt64.toNat_lt _

theorem Writable.inRange (hw : Writable target fileGeneration rs) :
    (makeHeader target fileGeneration rs).InRange := by
  obtain ⟨hshard, hproperty, hfile, hbase, hgeneration⟩ := hw.range
  have hsize := hw.size
  unfold headerSize recordSize at hsize
  have hmin := (foldl_min_le Record.commitSequence rs (2 ^ 64 - 1)).1
  have hmax : maxCommit rs < 256 ^ 8 := by
    rcases foldl_max_attained Record.commitSequence rs 0 with hzero | ⟨r, -, heq⟩
    · exact Nat.lt_of_le_of_lt (Nat.le_of_eq hzero) (by decide)
    · exact Nat.lt_of_le_of_lt (Nat.le_of_eq heq.symm) r.inRange.2.2.2.2
  constructor
  case magic => rfl
  case reserved0 => rfl
  case version => change kFormatVersion < _; decide
  case headerBytes => change headerSize < _; decide
  case shardId => exact hshard
  case propertyId => exact hproperty
  case baseFileId => exact hfile
  case reserved1 => change 0 < _; decide
  case baseGeneration => exact hbase
  case fileGeneration => exact hgeneration
  case recordCount => change rs.length < _; omega
  case recordsOffset => change headerSize < _; decide
  case valuesOffset =>
    change headerSize + rs.length * recordSize < _
    unfold headerSize recordSize
    omega
  case valuesBytes => change (valueBytes rs).length < _; omega
  case minCommitSequence => exact Nat.lt_of_le_of_lt hmin (by decide)
  case maxCommitSequence => exact hmax
  case payloadChecksum => exact UInt64.toNat_lt _
  case headerChecksum =>
    rw [← headerChecksum_makeHeader]
    exact headerChecksum_lt _

theorem Writable.headerOf_fileBytes (hw : Writable target fileGeneration rs) :
    headerOf (fileBytes target fileGeneration rs) = makeHeader target fileGeneration rs := by
  unfold headerOf fileBytes
  rw [List.take_left' hw.inRange.length_bytes, readHeader_bytes hw.inRange]

theorem Writable.drop_fileBytes (hw : Writable target fileGeneration rs) :
    (fileBytes target fileGeneration rs).drop headerSize = tableBytes rs ++ valueBytes rs :=
  List.drop_left' hw.inRange.length_bytes

theorem Writable.length_fileBytes (hw : Writable target fileGeneration rs) :
    (fileBytes target fileGeneration rs).length =
      headerSize + rs.length * recordSize + (valueBytes rs).length := by
  unfold fileBytes
  rw [List.length_append, List.length_append, hw.inRange.length_bytes, length_tableBytes,
    Nat.add_assoc]

/-- The table stands where the header says. -/
theorem Writable.diskAt_fileBytes (hw : Writable target fileGeneration rs) {i : Nat}
    {d : DeltaDiskRecord} (hd : (diskRecords 0 rs)[i]? = some d) :
    diskAt (fileBytes target fileGeneration rs) headerSize i = d := by
  have hmem := List.mem_of_getElem? hd
  have hlength := valueLength_le hw.values hmem
  have hinside := value_inside hmem
  have hsize := hw.size
  have hi : i < rs.length := by
    rw [← length_diskRecords 0 rs]
    exact (List.getElem?_eq_some_iff.mp hd).1
  have htable : ((tableBytes rs).drop (i * recordSize)).take recordSize = d.bytes :=
    take_drop_flatMap (fun d _ => length_bytes_disk d) hd
  unfold diskAt
  rw [← List.drop_drop, hw.drop_fileBytes, List.drop_append_of_le_length,
    List.take_append_of_le_length,
    htable]
  · refine readDiskRecord_bytes (by omega) ?_
    unfold maxUInt32 at hlength
    omega
  · rw [List.length_drop, length_tableBytes]
    unfold recordSize
    omega
  · rw [length_tableBytes]
    unfold recordSize
    omega

theorem sorted_diskRecords (hsorted : rs.Pairwise fun a b => VersionLess a.version b.version) :
    (diskRecords 0 rs).Pairwise fun a b => VersionLess a.version b.version := by
  have hversions : (rs.map Record.version).Pairwise VersionLess := List.pairwise_map.mpr hsorted
  rw [← map_version_diskRecords 0 rs] at hversions
  exact List.pairwise_map.mp hversions

theorem Writable.recordOk (hw : Writable target fileGeneration rs) {i : Nat} (hi : i < rs.length) :
    RecordOk (fileBytes target fileGeneration rs) (makeHeader target fileGeneration rs) i := by
  have hlen := length_diskRecords 0 rs
  have hget : ∀ j, (hj : j < (diskRecords 0 rs).length) →
      diskAt (fileBytes target fileGeneration rs) headerSize j = (diskRecords 0 rs)[j] :=
    fun j hj => hw.diskAt_fileBytes (List.getElem?_eq_getElem hj)
  constructor
  · have hinside := (value_inside (List.getElem_mem (hlen ▸ hi : i < (diskRecords 0 rs).length))).2
    rw [← hget i (hlen ▸ hi), Nat.zero_add] at hinside
    exact hinside
  · intro hzero hless
    change VersionLess (diskAt (fileBytes target fileGeneration rs) headerSize i).version
      (diskAt (fileBytes target fileGeneration rs) headerSize (i - 1)).version at hless
    rw [hget i (hlen ▸ hi), hget (i - 1) (by omega)] at hless
    have hbefore := List.pairwise_iff_getElem.mp (sorted_diskRecords hw.sorted) (i - 1) i (by omega)
      (hlen ▸ hi) (by omega)
    rw [versionLess_iff] at hless hbefore
    exact lt_asymm hless hbefore

theorem Writable.accepted (hw : Writable target fileGeneration rs) :
    Accepted (fileBytes target fileGeneration rs) target.kind := by
  have hheader := hw.headerOf_fileBytes
  constructor
  case size =>
    rw [hw.length_fileBytes]
    exact hw.size
  case long =>
    rw [hw.length_fileBytes]
    omega
  case kind_eq =>
    rw [hheader]
    exact kindOf_kindByte _
  case format =>
    rw [hheader]
    exact ⟨rfl, rfl, rfl⟩
  case header_sum =>
    rw [hheader]
    exact headerChecksum_makeHeader _ _ _
  case bounds =>
    rw [hheader, hw.length_fileBytes]
    exact ⟨rfl, rfl, rfl⟩
  case payload_sum =>
    rw [hheader, hw.drop_fileBytes, fnv_append]
    rfl
  case records =>
    rw [hheader]
    exact fun i hi => hw.recordOk hi

/-- The file as it is opened. -/
def Writable.openFile (hw : Writable target fileGeneration rs) : OpenFile :=
  opened (fileBytes target fileGeneration rs) target.kind hw.accepted.size

/-- What is kept of a header. -/
theorem opened_of_header {file : Bytes} (kind : PropertyObjectKind) {h : DeltaDiskHeader}
    (hsize : file.length < 2 ^ 63) (hheader : headerOf file = h) :
    (opened file kind hsize).mapping = file ∧
      (opened file kind hsize).recordsOffset = h.recordsOffset ∧
      (opened file kind hsize).valuesOffset = h.valuesOffset ∧
      (opened file kind hsize).metadata.target =
        ⟨kind, h.shardId, h.baseFileId, h.baseGeneration, h.propertyId⟩ ∧
      (opened file kind hsize).metadata.fileGeneration = h.fileGeneration ∧
      (opened file kind hsize).metadata.recordCount = h.recordCount ∧
      (opened file kind hsize).metadata.minCommitSequence = h.minCommitSequence ∧
      (opened file kind hsize).metadata.maxCommitSequence = h.maxCommitSequence ∧
      (opened file kind hsize).metadata.payloadChecksum = h.payloadChecksum ∧
      (opened file kind hsize).metadata.fileBytes = file.length := by
  subst hheader
  exact ⟨rfl, rfl, rfl, rfl, rfl, rfl, rfl, rfl, rfl, rfl⟩

/-- What a created file gives when it is opened. -/
structure OpenedAs (f : OpenFile) (target : PropertyDeltaTarget) (fileGeneration : Nat)
    (rs : List Record) : Prop where
  mapping : f.mapping = fileBytes target fileGeneration rs
  recordsOffset : f.recordsOffset = headerSize
  valuesOffset : f.valuesOffset = headerSize + rs.length * recordSize
  target_eq : f.metadata.target = target
  generation : f.metadata.fileGeneration = fileGeneration
  recordCount : f.metadata.recordCount = rs.length
  minCommit : f.metadata.minCommitSequence = minCommit rs
  maxCommit : f.metadata.maxCommitSequence = maxCommit rs
  payloadChecksum : f.metadata.payloadChecksum =
    (fnv fnvOffset ((fileBytes target fileGeneration rs).drop headerSize)).toNat
  size : f.metadata.fileBytes = (fileBytes target fileGeneration rs).length

theorem Writable.openedAs (hw : Writable target fileGeneration rs) :
    OpenedAs hw.openFile target fileGeneration rs := by
  obtain ⟨hmapping, hrecords, hvalues, htarget, hgeneration, hcount, hmin, hmax, hsum, hsize⟩ :=
    opened_of_header target.kind hw.accepted.size hw.headerOf_fileBytes
  have hpayload := hw.accepted.payload_sum
  rw [hw.headerOf_fileBytes] at hpayload
  exact ⟨hmapping, hrecords, hvalues, htarget, hgeneration, hcount, hmin, hmax,
    hsum.trans hpayload.symm, hsize⟩

theorem Writable.open_fileBytes (hw : Writable target fileGeneration rs) :
    (openAndValidate (fileBytes target fileGeneration rs)).value = .ok hw.openFile :=
  open_eq_ok_iff.mpr ⟨target.kind, hw.accepted, rfl⟩

theorem Writable.readable (hw : Writable target fileGeneration rs) : hw.openFile.Readable :=
  hw.accepted.readable

theorem Writable.table_openFile (hw : Writable target fileGeneration rs) :
    hw.openFile.table = diskRecords 0 rs := by
  have hopen := hw.openedAs
  refine List.ext_getElem ?_ fun i hi hi' => ?_
  · rw [OpenFile.length_table, hopen.recordCount, length_diskRecords]
  · have hget := List.getElem?_eq_getElem hi
    rw [OpenFile.length_table] at hi
    rw [OpenFile.getElem?_table hi, hopen.recordsOffset, hopen.mapping, Option.some.injEq] at hget
    rw [← hget]
    exact hw.diskAt_fileBytes (List.getElem?_eq_getElem hi')

theorem Writable.records_openFile (hw : Writable target fileGeneration rs) :
    hw.openFile.records = rs := by
  have hopen := hw.openedAs
  have hdrop : (fileBytes target fileGeneration rs).drop (headerSize + rs.length * recordSize) =
      valueBytes rs := by
    rw [← List.drop_drop, hw.drop_fileBytes, List.drop_left' (length_tableBytes rs)]
  have hback := map_toRecord_diskRecords [] rs
  unfold OpenFile.records
  rw [hw.table_openFile]
  refine Eq.trans (List.map_congr_left fun d _ => ?_) hback
  unfold OpenFile.recordOf OpenFile.valueOf
  rw [hopen.valuesOffset, hopen.mapping, ← List.drop_drop, hdrop, List.nil_append]

/-! ## Round trip and damage -/

/-- A visitor that keeps every record. -/
def collect (seen : List Record) (r : Record) : List Record × Bool := (seen ++ [r], true)

theorem visitAll_collect (seen rs : List Record) :
    OpenFile.visitAll collect seen rs = (seen ++ rs, true) := by
  induction rs generalizing seen with
  | nil => rw [List.append_nil]; rfl
  | cons r rs ih =>
    unfold OpenFile.visitAll
    change OpenFile.visitAll collect (seen ++ [r]) rs = _
    rw [ih, List.append_assoc]
    rfl

/-- A created file is opened. Its records are those of the input by version, the last of each, and
its metadata are those of the header that `Create` wrote. -/
theorem created_files_are_read_back {file : Bytes}
    (h : create target fileGeneration records = .ok file) :
    ∃ f, (openAndValidate file).value = .ok f ∧
      (f.forEachRecord collect []).value = (deduplicated records, true) ∧
      ((deduplicated records).Pairwise fun a b => VersionLess a.version b.version) ∧
      (∀ r, r ∈ deduplicated records ↔ ∃ before after, records = before ++ r :: after ∧
        ∀ r' ∈ after, r'.version ≠ r.version) ∧
      f.metadata.target = target ∧ f.metadata.fileGeneration = fileGeneration ∧
      f.metadata.recordCount = (deduplicated records).length ∧
      f.metadata.minCommitSequence = minCommit (deduplicated records) ∧
      f.metadata.maxCommitSequence = maxCommit (deduplicated records) ∧
      f.metadata.fileBytes = file.length ∧
      f.metadata.payloadChecksum = (fnv fnvOffset (file.drop headerSize)).toNat := by
  obtain ⟨-, hw, hfile⟩ := create_ok h
  have hopen := hw.openedAs
  have hread := hw.readable.gives_forEachRecord collect []
  rw [visitAll_collect, List.nil_append, hw.records_openFile] at hread
  rw [hfile]
  exact ⟨hw.openFile, hw.open_fileBytes, hread.value, hw.sorted, fun r => mem_deduplicated_iff,
    hopen.target_eq, hopen.generation, hopen.recordCount, hopen.minCommit, hopen.maxCommit,
    hopen.size, hopen.payloadChecksum⟩

theorem inRange_small : InRange 1 2 3 5 := by
  unfold InRange
  decide

/-- Two updates of one edge, the later one first. -/
def twoUpdates : List Record :=
  [⟨1, 2, 3, 8, true, 0, [98], by unfold InRange; decide⟩,
    ⟨1, 2, 3, 5, true, 0, [97], inRange_small⟩]

def anEdgeFile : PropertyDeltaTarget := ⟨.kEdge, 0, 5, 1, 0⟩

theorem create_twoUpdates : create anEdgeFile 7 twoUpdates =
    .ok (fileBytes anEdgeFile 7 (deduplicated twoUpdates)) := by
  unfold create
  rw [if_neg (by decide), if_neg (by decide)]
  dsimp only
  rw [if_neg (by decide +kernel), if_neg (by decide +kernel), if_pos (by decide +kernel)]

theorem two_updates_are_read_back :
    ∃ f, (openAndValidate (fileBytes anEdgeFile 7 (deduplicated twoUpdates))).value = .ok f ∧
      (f.forEachRecord collect []).value = (deduplicated twoUpdates, true) ∧
      f.metadata.target = anEdgeFile := by
  obtain ⟨f, hopen, hrecords, -, -, htarget, -⟩ := created_files_are_read_back create_twoUpdates
  exact ⟨f, hopen, hrecords, htarget⟩

section damage

variable {file bs : Bytes} {kind kind' : PropertyObjectKind} {i : Nat} {b b' : UInt8}

theorem headerChecksum_readHeader (hlen : bs.length = headerSize) :
    headerChecksum (readHeader bs) = (fnv fnvOffset (bs.take 112 ++ toLe 8 0)).toNat := by
  rw [headerChecksum_eq (inRange_readHeader hlen), bytes_readHeader hlen]

/-- A changed byte of a header makes its checksum wrong, wherever it stands. -/
theorem headerChecksum_set_ne (hlen : bs.length = headerSize) (hb : bs[i]? = some b) (hne : b' ≠ b)
    (hsum : headerChecksum (readHeader bs) = (readHeader bs).headerChecksum) :
    headerChecksum (readHeader (bs.set i b')) ≠ (readHeader (bs.set i b')).headerChecksum := by
  have hlen' : (bs.set i b').length = headerSize := by rw [List.length_set, hlen]
  have hi : i < headerSize := hlen ▸ (List.getElem?_eq_some_iff.mp hb).1
  unfold headerSize at hlen hi
  rw [headerChecksum_readHeader hlen']
  rw [headerChecksum_readHeader hlen] at hsum
  by_cases hbefore : i < 112
  · -- The sum changes, and what is stored does not.
    have hstored : (readHeader (bs.set i b')).headerChecksum = (readHeader bs).headerChecksum :=
      field_set_other (Or.inl hbefore)
    have htake : (bs.take 112).length = 112 := by rw [List.length_take, hlen]; rfl
    rw [hstored, ← hsum, List.take_set, ← List.set_append_left _ _ (by omega)]
    intro heq
    refine fnv_set_ne ?_ hne (UInt64.toNat_inj.mp heq)
    rw [List.getElem?_append_left (by omega), List.getElem?_take_of_lt hbefore, hb]
  · have hstored : (readHeader (bs.set i b')).headerChecksum ≠ (readHeader bs).headerChecksum :=
      field_set_ne (by omega) (by omega) hb hne
    rw [List.take_set_of_le (by omega), hsum]
    exact fun heq => hstored heq.symm

theorem Accepted.not_accepted_set (hacc : Accepted file kind) (hb : file[i]? = some b)
    (hne : b' ≠ b) : ¬ Accepted (file.set i b') kind' := by
  intro hacc'
  have hlong := hacc.long
  by_cases hi : i < headerSize
  · have hheader : headerOf (file.set i b') = readHeader ((file.take headerSize).set i b') := by
      unfold headerOf
      rw [List.take_set]
    have hsum := hacc'.header_sum
    rw [hheader] at hsum
    refine headerChecksum_set_ne ?_ ?_ hne hacc.header_sum hsum
    · rw [List.length_take, Nat.min_eq_left hlong]
    · rw [List.getElem?_take_of_lt hi, hb]
  · have hheader : headerOf (file.set i b') = headerOf file := by
      unfold headerOf
      rw [List.take_set_of_le (Nat.not_lt.mp hi)]
    have hsum := hacc'.payload_sum
    rw [hheader, ← hacc.payload_sum, List.drop_set, if_neg hi] at hsum
    refine fnv_set_ne ?_ hne (UInt64.toNat_inj.mp hsum)
    rw [List.getElem?_drop, Nat.add_sub_cancel' (Nat.not_lt.mp hi), hb]

/-- One changed byte of a created file, and `Open` fails. -/
theorem a_changed_byte_is_not_opened (h : create target fileGeneration records = .ok file)
    (hb : file[i]? = some b) (hne : b' ≠ b) :
    ∃ error, (openAndValidate (file.set i b')).value = .error error := by
  obtain ⟨-, hw, hfile⟩ := create_ok h
  have hacc := hw.accepted
  rw [← hfile] at hacc
  cases hopen : (openAndValidate (file.set i b')).value with
  | error e => exact ⟨e, rfl⟩
  | ok f =>
    obtain ⟨kind, hacc', -⟩ := open_eq_ok_iff.mp hopen
    exact absurd hacc' (hacc.not_accepted_set hb hne)

theorem a_changed_magic_is_not_opened :
    ∃ error, (openAndValidate ((fileBytes anEdgeFile 7 (deduplicated twoUpdates)).set 0 0)).value =
      .error error :=
  a_changed_byte_is_not_opened create_twoUpdates (b := 82) (by decide +kernel) (by decide)

end damage

end DeltaFormat

end RichGraph
