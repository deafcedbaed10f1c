-- Which delta files are opened, and what the reads of an open file compute. The
-- checks of `Open` come down to a few equations between the header and the bytes.
-- Neither they nor the reads wrap around or leave the file, whatever the bytes are.
import RichGraph.DeltaFormat
import RichGraph.Lib.BinarySearch

namespace RichGraph

open Lib Manifest

namespace DeltaFormat

/-! ## Headers and records as bytes -/

/-- The fields have their widths. -/
structure DeltaDiskHeader.InRange (h : DeltaDiskHeader) : Prop where
  magic : h.magic.length = 8
  version : h.version < 256 ^ 4
  headerBytes : h.headerBytes < 256 ^ 4
  reserved0 : h.reserved0.length = 7
  shardId : h.shardId < 256 ^ 4
  propertyId : h.propertyId < 256 ^ 4
  baseFileId : h.baseFileId < 256 ^ 4
  reserved1 : h.reserved1 < 256 ^ 4
  baseGeneration : h.baseGeneration < 256 ^ 8
  fileGeneration : h.fileGeneration < 256 ^ 8
  recordCount : h.recordCount < 256 ^ 8
  recordsOffset : h.recordsOffset < 256 ^ 8
  valuesOffset : h.valuesOffset < 256 ^ 8
  valuesBytes : h.valuesBytes < 256 ^ 8
  minCommitSequence : h.minCommitSequence < 256 ^ 8
  maxCommitSequence : h.maxCommitSequence < 256 ^ 8
  payloadChecksum : h.payloadChecksum < 256 ^ 8
  headerChecksum : h.headerChecksum < 256 ^ 8

variable {h : DeltaDiskHeader} {bs : Bytes}

theorem inRange_readHeader (hlen : bs.length = headerSize) : (readHeader bs).InRange := by
  simp only [headerSize] at hlen
  constructor
  case magic => simp [readHeader, hlen]
  case reserved0 => simp [readHeader, hlen]
  all_goals exact field_lt _ _ _

theorem DeltaDiskHeader.InRange.length_bytes (hr : h.InRange) : h.bytes.length = headerSize := by
  unfold DeltaDiskHeader.bytes
  simp [hr.magic, hr.reserved0, headerSize]

/-- A header read from bytes has these bytes. -/
theorem bytes_readHeader (hlen : bs.length = headerSize) : (readHeader bs).bytes = bs := by
  simp only [headerSize] at hlen
  have hkind : [bs.getD 16 0] = (bs.drop 16).take 1 := by
    rw [List.getD_eq_getElem?_getD, List.getElem?_eq_getElem (by omega)]
    rw [List.drop_eq_getElem_cons (by omega)]
    rfl
  have hend : (bs.drop 112).take 8 = bs.drop 112 := List.take_of_length_le (by simp [hlen])
  unfold DeltaDiskHeader.bytes readHeader
  dsimp only
  rw [toLe_field (by omega), toLe_field (by omega), toLe_field (by omega), toLe_field (by omega),
    toLe_field (by omega), toLe_field (by omega), toLe_field (by omega), toLe_field (by omega),
    toLe_field (by omega), toLe_field (by omega), toLe_field (by omega), toLe_field (by omega),
    toLe_field (by omega), toLe_field (by omega), toLe_field (by omega), toLe_field (by omega),
    hkind, hend]
  simp only [← List.take_add]
  exact List.take_append_drop _ _

/-- Different headers have different bytes. -/
theorem DeltaDiskHeader.bytes_inj {h h' : DeltaDiskHeader} (hr : h.InRange) (hr' : h'.InRange)
    (heq : h.bytes = h'.bytes) : h = h' := by
  have hlast : ∀ {bs bs' : Bytes} {width n n' : Nat}, n < 256 ^ width → n' < 256 ^ width →
      bs ++ toLe width n = bs' ++ toLe width n' → bs = bs' ∧ n = n' := by
    intro bs bs' width n n' hn hn' happend
    obtain ⟨hbs, hle⟩ := List.append_inj' happend (by rw [length_toLe, length_toLe])
    exact ⟨hbs, by rw [← ofLe_toLe hn, hle, ofLe_toLe hn']⟩
  -- The fields come off one by one, from the end of the header.
  unfold DeltaDiskHeader.bytes at heq
  obtain ⟨heq, hhsum⟩ := hlast hr.headerChecksum hr'.headerChecksum heq
  obtain ⟨heq, hsum⟩ := hlast hr.payloadChecksum hr'.payloadChecksum heq
  obtain ⟨heq, hmax⟩ := hlast hr.maxCommitSequence hr'.maxCommitSequence heq
  obtain ⟨heq, hmin⟩ := hlast hr.minCommitSequence hr'.minCommitSequence heq
  obtain ⟨heq, hvbytes⟩ := hlast hr.valuesBytes hr'.valuesBytes heq
  obtain ⟨heq, hvalues⟩ := hlast hr.valuesOffset hr'.valuesOffset heq
  obtain ⟨heq, hrecords⟩ := hlast hr.recordsOffset hr'.recordsOffset heq
  obtain ⟨heq, hcount⟩ := hlast hr.recordCount hr'.recordCount heq
  obtain ⟨heq, hgeneration⟩ := hlast hr.fileGeneration hr'.fileGeneration heq
  obtain ⟨heq, hbase⟩ := hlast hr.baseGeneration hr'.baseGeneration heq
  obtain ⟨heq, hres1⟩ := hlast hr.reserved1 hr'.reserved1 heq
  obtain ⟨heq, hfile⟩ := hlast hr.baseFileId hr'.baseFileId heq
  obtain ⟨heq, hproperty⟩ := hlast hr.propertyId hr'.propertyId heq
  obtain ⟨heq, hshard⟩ := hlast hr.shardId hr'.shardId heq
  obtain ⟨heq, hres0⟩ := List.append_inj' heq (hr.reserved0.trans hr'.reserved0.symm)
  obtain ⟨heq, hkind⟩ := List.append_inj' heq rfl
  obtain ⟨heq, hbytes⟩ := hlast hr.headerBytes hr'.headerBytes heq
  obtain ⟨hmagic, hversion⟩ := hlast hr.version hr'.version heq
  cases h
  cases h'
  simp only [DeltaDiskHeader.mk.injEq]
  exact ⟨hmagic, hversion, hbytes, List.singleton_inj.mp hkind, hres0, hshard, hproperty, hfile,
    hres1, hbase, hgeneration, hcount, hrecords, hvalues, hvbytes, hmin, hmax, hsum, hhsum⟩

theorem readHeader_bytes (hr : h.InRange) : readHeader h.bytes = h :=
  DeltaDiskHeader.bytes_inj (inRange_readHeader hr.length_bytes) hr
    (bytes_readHeader hr.length_bytes)

/-- The bytes that the checksum is taken of. -/
theorem bytes_without_checksum (hr : h.InRange) :
    { h with headerChecksum := 0 }.bytes = h.bytes.take 112 ++ toLe 8 0 := by
  have hlen : h.bytes.length = 112 + (toLe 8 h.headerChecksum).length := by
    rw [hr.length_bytes, length_toLe]
    rfl
  unfold DeltaDiskHeader.bytes at hlen ⊢
  rw [List.length_append, Nat.add_right_cancel_iff] at hlen
  rw [List.take_left' hlen]

theorem headerChecksum_eq (hr : h.InRange) :
    headerChecksum h = (fnv fnvOffset (h.bytes.take 112 ++ toLe 8 0)).toNat := by
  unfold headerChecksum
  rw [bytes_without_checksum hr]

theorem length_bytes_disk (d : DeltaDiskRecord) : d.bytes.length = recordSize := by
  simp [DeltaDiskRecord.bytes, recordSize]

theorem readDiskRecord_bytes {d : DeltaDiskRecord} (hoffset : d.valueOffset < 256 ^ 8)
    (hlength : d.valueLength < 256 ^ 4) : readDiskRecord d.bytes = d := by
  obtain ⟨src, dst, baseSequence, commitSequence, valueOffset, valueLength, edgeType, isOut,
    ⟨hsrc, hdst, hlow, hhigh, hcommit⟩⟩ := d
  dsimp only at *
  simp [readDiskRecord, DeltaDiskRecord.bytes, field_skip, field_here hsrc, field_here hdst,
    field_here (toTwos_lt baseSequence), field_here hcommit, field_here hoffset, field_here hlength,
    ofTwos_toTwos hlow hhigh]

/-! ## Computations that do not wrap around -/

/-- The record of the table with this number. -/
def diskAt (mapping : Bytes) (recordsOffset i : Nat) : DeltaDiskRecord :=
  readDiskRecord ((mapping.drop (recordsOffset + i * recordSize)).take recordSize)

variable {mapping : Bytes} {offset i : Nat}

theorem gives_loadDiskRecord (hsize : mapping.length < 2 ^ 63)
    (hi : offset + (i + 1) * recordSize ≤ mapping.length) :
    Traced.Gives mapping.length (loadDiskRecord mapping offset i) (diskAt mapping offset i) := by
  unfold recordSize at hi
  refine (Traced.gives_mul64 (by unfold recordSize; omega)).bind ?_
  refine (Traced.gives_add64 (by unfold recordSize; omega)).bind ?_
  exact (Traced.gives_load (by unfold recordSize; omega)).bind (Traced.gives_pure _)

/-- What the offsets of a header have to be. -/
structure Bounds (size : Nat) (h : DeltaDiskHeader) : Prop where
  records : h.recordsOffset = headerSize
  values : h.valuesOffset = headerSize + h.recordCount * recordSize
  values_end : h.valuesOffset + h.valuesBytes = size

theorem gives_checkBounds {size : Nat} (hr : h.InRange) (hsize : size < 2 ^ 63) :
    ∃ error, Traced.Gives size (checkBounds size h) error ∧ (error = none ↔ Bounds size h) := by
  have hrecords : h.recordsOffset ≤ 2 ^ 64 - 1 := Nat.le_sub_one_of_lt hr.recordsOffset
  have hvalues : h.valuesOffset ≤ 2 ^ 64 - 1 := Nat.le_sub_one_of_lt hr.valuesOffset
  unfold checkBounds
  by_cases hroom : h.recordCount > (2 ^ 64 - 1 - h.recordsOffset) / recordSize
  · refine ⟨some .recordBoundsOverflow, (Traced.gives_sub64 hrecords (by omega)).bind ?_, ?_⟩
    · rw [if_pos hroom]
      exact Traced.gives_pure _
    · refine ⟨fun hnone => (nomatch hnone), fun hb => ?_⟩
      obtain ⟨h1, h2, h3⟩ := hb
      simp only [recordSize, headerSize] at hroom h1 h2
      omega
  have hfit : h.recordsOffset + h.recordCount * recordSize < 2 ^ 64 := by
    unfold recordSize at hroom ⊢
    omega
  by_cases hvalue : h.valuesBytes > 2 ^ 64 - 1 - h.valuesOffset
  · refine ⟨some .valueBoundsOverflow, (Traced.gives_sub64 hrecords (by omega)).bind ?_, ?_⟩
    · rw [if_neg hroom]
      refine (Traced.gives_mul64 (by omega)).bind ?_
      refine (Traced.gives_add64 hfit).bind ?_
      refine (Traced.gives_sub64 hvalues (by omega)).bind ?_
      rw [if_pos hvalue]
      exact Traced.gives_pure _
    · refine ⟨fun hnone => (nomatch hnone), fun hb => ?_⟩
      have := hb.values_end
      omega
  refine ⟨if h.recordsOffset ≠ headerSize ∨
      h.valuesOffset ≠ h.recordsOffset + h.recordCount * recordSize ∨
      h.recordsOffset + h.recordCount * recordSize > size ∨
      h.valuesOffset + h.valuesBytes ≠ size then some .invalidBounds else none,
    (Traced.gives_sub64 hrecords (by omega)).bind ?_, ?_⟩
  · rw [if_neg hroom]
    refine (Traced.gives_mul64 (by omega)).bind ?_
    refine (Traced.gives_add64 hfit).bind ?_
    refine (Traced.gives_sub64 hvalues (by omega)).bind ?_
    rw [if_neg hvalue]
    refine (Traced.gives_add64 (by omega)).bind ?_
    split
    · exact Traced.gives_pure _
    · exact Traced.gives_pure _
  · split
    · rename_i hbad
      refine ⟨fun hnone => (nomatch hnone), fun hb => ?_⟩
      obtain ⟨h1, h2, h3⟩ := hb
      omega
    · rename_i hgood
      refine ⟨fun _ => ⟨?_, ?_, ?_⟩, fun _ => rfl⟩ <;> omega

theorem gives_payloadSum (hsize : mapping.length < 2 ^ 63) (hlong : headerSize ≤ mapping.length)
    (hrecords : h.recordsOffset = headerSize) :
    Traced.Gives mapping.length (payloadSum mapping h)
      (fnv fnvOffset (mapping.drop headerSize)).toNat := by
  unfold payloadSum
  rw [hrecords]
  by_cases hmore : mapping.length > headerSize
  · rw [if_pos hmore]
    refine (Traced.gives_sub64 hlong (by omega)).bind ?_
    have hall : (mapping.drop headerSize).take (mapping.length - headerSize) =
        mapping.drop headerSize := List.take_of_length_le (by rw [List.length_drop])
    refine (Traced.gives_load (by omega)).bind ?_
    rw [hall]
    exact Traced.gives_pure _
  · rw [if_neg hmore, List.drop_eq_nil_of_le (by omega)]
    exact Traced.gives_pure _

/-- What the loop asks of the record with this number. -/
structure RecordOk (mapping : Bytes) (h : DeltaDiskHeader) (i : Nat) : Prop where
  inside : (diskAt mapping h.recordsOffset i).valueOffset +
    (diskAt mapping h.recordsOffset i).valueLength ≤ h.valuesBytes
  sorted : i ≠ 0 → ¬ VersionLess (diskAt mapping h.recordsOffset i).version
    (diskAt mapping h.recordsOffset (i - 1)).version

theorem gives_checkRecord (hsize : mapping.length < 2 ^ 63) (hr : h.InRange)
    (hi : h.recordsOffset + (i + 1) * recordSize ≤ mapping.length) :
    ∃ error, Traced.Gives mapping.length (checkRecord mapping h i) error ∧
      (error = none ↔ RecordOk mapping h i) := by
  have hload := gives_loadDiskRecord hsize hi
  have hbytes := hr.valuesBytes
  unfold checkRecord
  by_cases hoffset : (diskAt mapping h.recordsOffset i).valueOffset > h.valuesBytes
  · refine ⟨some .valueOutOfBounds, hload.bind ?_, ?_⟩
    · rw [if_pos hoffset]
      exact Traced.gives_pure _
    · refine ⟨fun hnone => (nomatch hnone), fun hok => ?_⟩
      have := hok.inside
      omega
  have hroom : Traced.Gives mapping.length
      (Traced.sub64 h.valuesBytes (diskAt mapping h.recordsOffset i).valueOffset)
      (h.valuesBytes - (diskAt mapping h.recordsOffset i).valueOffset) :=
    Traced.gives_sub64 (Nat.not_lt.mp hoffset) (by omega)
  by_cases hlength : (diskAt mapping h.recordsOffset i).valueLength >
      h.valuesBytes - (diskAt mapping h.recordsOffset i).valueOffset
  · refine ⟨some .valueOutOfBounds, hload.bind ?_, ?_⟩
    · rw [if_neg hoffset]
      refine hroom.bind ?_
      rw [if_pos hlength]
      exact Traced.gives_pure _
    · refine ⟨fun hnone => (nomatch hnone), fun hok => ?_⟩
      have := hok.inside
      omega
  have hinside : (diskAt mapping h.recordsOffset i).valueOffset +
      (diskAt mapping h.recordsOffset i).valueLength ≤ h.valuesBytes := by omega
  by_cases hzero : i = 0
  · refine ⟨none, hload.bind ?_, fun _ => ⟨hinside, fun hne => absurd hzero hne⟩, fun _ => rfl⟩
    rw [if_neg hoffset]
    refine hroom.bind ?_
    rw [if_neg hlength, if_pos hzero]
    exact Traced.gives_pure _
  refine ⟨if VersionLess (diskAt mapping h.recordsOffset i).version
      (diskAt mapping h.recordsOffset (i - 1)).version then some .notSorted else none,
    hload.bind ?_, ?_⟩
  · rw [if_neg hoffset]
    refine hroom.bind ?_
    rw [if_neg hlength, if_neg hzero]
    unfold recordSize at hi
    refine (Traced.gives_sub64 (by omega) (by omega)).bind ?_
    refine (gives_loadDiskRecord hsize (by unfold recordSize; omega)).bind ?_
    split
    · exact Traced.gives_pure _
    · exact Traced.gives_pure _
  · split
    · rename_i hless
      exact ⟨fun hnone => (nomatch hnone), fun hok => absurd hless (hok.sorted hzero)⟩
    · rename_i hless
      exact ⟨fun _ => ⟨hinside, fun _ => hless⟩, fun _ => rfl⟩

theorem gives_checkRecords (hsize : mapping.length < 2 ^ 63) (hr : h.InRange) {n : Nat}
    (hend : h.recordsOffset + (i + n) * recordSize ≤ mapping.length) :
    ∃ error, Traced.Gives mapping.length (checkRecords mapping h n i) error ∧
      (error = none ↔ ∀ j, i ≤ j → j < i + n → RecordOk mapping h j) := by
  induction n generalizing i with
  | zero => exact ⟨none, Traced.gives_pure _, fun _ j h1 h2 => by omega, fun _ => rfl⟩
  | succ n ih =>
    unfold recordSize at hend
    obtain ⟨error, hfirst, herror⟩ := gives_checkRecord (i := i) hsize hr
      (by unfold recordSize; omega)
    obtain ⟨error', hrest, herror'⟩ := ih (i := i + 1) (by unfold recordSize; omega)
    unfold checkRecords
    cases error with
    | some e =>
      refine ⟨some e, hfirst.bind (Traced.gives_pure _), fun hnone => (nomatch hnone),
        fun hall => ?_⟩
      exact herror.mpr (hall i (Nat.le_refl _) (by omega))
    | none =>
      refine ⟨error', hfirst.bind ((Traced.gives_add64 (by omega)).bind hrest), ?_⟩
      rw [herror']
      constructor
      · intro hall j hlow hhigh
        rcases Nat.eq_or_lt_of_le hlow with rfl | hlow
        · exact herror.mp rfl
        · exact hall j hlow (by omega)
      · exact fun hall j hlow hhigh => hall j (by omega) (by omega)

/-! ## Accepted files -/

def headerOf (file : Bytes) : DeltaDiskHeader := readHeader (file.take headerSize)

/-- The checks that `OpenAndValidate` makes. -/
structure Accepted (file : Bytes) (kind : PropertyObjectKind) : Prop where
  size : file.length < 2 ^ 63
  long : headerSize ≤ file.length
  kind_eq : kindOf (headerOf file).objectKind = some kind
  format : (headerOf file).magic = kMagic ∧ (headerOf file).version = kFormatVersion ∧
    (headerOf file).headerBytes = headerSize
  header_sum : headerChecksum (headerOf file) = (headerOf file).headerChecksum
  bounds : Bounds file.length (headerOf file)
  payload_sum : (fnv fnvOffset (file.drop headerSize)).toNat = (headerOf file).payloadChecksum
  records : ∀ i < (headerOf file).recordCount, RecordOk file (headerOf file) i

/-- The file as it is opened. -/
def opened (file : Bytes) (kind : PropertyObjectKind) (hsize : file.length < 2 ^ 63) : OpenFile :=
  openFile file (headerOf file) kind
    ⟨field_lt _ _ _, field_lt _ _ _, field_lt _ _ _, field_lt _ _ _⟩
    ⟨field_lt _ _ _, field_lt _ _ _, Nat.lt_trans hsize (by decide), field_lt _ _ _,
      field_lt _ _ _, field_lt _ _ _⟩

variable {file : Bytes} {kind : PropertyObjectKind} {f : OpenFile}

theorem inRange_headerOf (hlong : headerSize ≤ file.length) : (headerOf file).InRange :=
  inRange_readHeader (by rw [List.length_take, Nat.min_eq_left hlong])

theorem Bounds.records_end (hb : Bounds file.length h) :
    h.recordsOffset + h.recordCount * recordSize ≤ file.length := by
  obtain ⟨h1, h2, h3⟩ := hb
  omega

/-- The computation opens the file just when it is to be accepted; it never wraps around and reads
no byte outside of the file. -/
def Decides (file : Bytes) (x : Traced (Except OpenError OpenFile)) : Prop :=
  ∃ r, Traced.Gives file.length x r ∧
    ∀ f, r = .ok f ↔ ∃ kind, ∃ hacc : Accepted file kind, f = opened file kind hacc.size

theorem decides_error (e : OpenError) (h : ∀ kind, ¬ Accepted file kind) :
    Decides file (return .error e) := by
  refine ⟨.error e, Traced.gives_pure _, fun f => ⟨fun hok => (nomatch hok), ?_⟩⟩
  rintro ⟨kind, hacc, -⟩
  exact absurd hacc (h kind)

theorem Decides.bind {α : Type} {x : Traced α} {v : α} {g : α → Traced (Except OpenError OpenFile)}
    (hx : Traced.Gives file.length x v) (hg : Decides file (g v)) : Decides file (x >>= g) := by
  obtain ⟨r, hgives, hok⟩ := hg
  exact ⟨r, hx.bind hgives, hok⟩

theorem Decides.ite {c : Prop} [Decidable c] {x y : Traced (Except OpenError OpenFile)}
    (hx : c → Decides file x) (hy : ¬ c → Decides file y) :
    Decides file (if c then x else y) := by
  by_cases hc : c
  · rw [if_pos hc]
    exact hx hc
  · rw [if_neg hc]
    exact hy hc

theorem decides_openAndValidate (file : Bytes) : Decides file (openAndValidate file) := by
  unfold openAndValidate
  by_cases hsize : file.length < 2 ^ 63
  swap
  · rw [dif_neg hsize]
    exact decides_error _ fun kind hacc => hsize hacc.size
  rw [dif_pos hsize]
  by_cases hshort : file.length < headerSize
  · rw [if_pos hshort]
    exact decides_error _ fun kind hacc => absurd hacc.long (Nat.not_le.mpr hshort)
  rw [if_neg hshort]
  have hlong := Nat.not_lt.mp hshort
  have hr := inRange_headerOf hlong
  have hload : Traced.Gives file.length (Traced.load file 0 headerSize) (file.take headerSize) :=
    Traced.gives_load (by omega)
  refine Decides.bind hload ?_
  dsimp only
  -- The header that was read is `headerOf file`.
  cases hkind : kindOf (readHeader (file.take headerSize)).objectKind with
  | none =>
    refine decides_error _ fun kind hacc => ?_
    cases hacc.kind_eq.symm.trans hkind
  | some kind =>
    refine Decides.ite (fun hbad => decides_error _ fun kind hacc => ?_) fun hformat => ?_
    · obtain ⟨h1, h2, h3⟩ := hacc.format
      rcases hbad with hne | hne | hne
      · exact hne h1
      · exact hne h2
      · exact hne h3
    rw [not_or, not_or, not_not, not_not, not_not] at hformat
    refine Decides.ite (fun hbad => decides_error _ fun kind hacc => hbad hacc.header_sum)
      fun hsum => ?_
    obtain ⟨error, hbounds, hiff⟩ := gives_checkBounds hr hsize
    refine Decides.bind hbounds ?_
    cases error with
    | some e =>
      exact decides_error _ fun kind hacc => Option.some_ne_none e (hiff.mpr hacc.bounds)
    | none =>
      have hb := hiff.mp rfl
      refine Decides.bind (gives_payloadSum hsize hlong hb.records) ?_
      refine Decides.ite (fun hbad => decides_error _ fun kind hacc => hbad hacc.payload_sum)
        fun hpayload => ?_
      obtain ⟨error, hrecords, hiff⟩ := gives_checkRecords (i := 0) hsize hr
        (n := (headerOf file).recordCount) (by rw [Nat.zero_add]; exact hb.records_end)
      refine Decides.bind hrecords ?_
      cases error with
      | some e =>
        refine decides_error _ fun kind hacc => ?_
        exact Option.some_ne_none e (hiff.mpr fun j _ hj => hacc.records j (by omega))
      | none =>
        have hacc : Accepted file kind :=
          { size := hsize, long := hlong, kind_eq := hkind, format := hformat
            header_sum := not_not.mp hsum, bounds := hb, payload_sum := not_not.mp hpayload
            records := fun i hi => hiff.mp rfl i (Nat.zero_le _) (by omega) }
        refine ⟨.ok (opened file kind hsize), Traced.gives_pure _, fun f => ?_⟩
        constructor
        · intro hok
          cases hok
          exact ⟨kind, hacc, rfl⟩
        · rintro ⟨kind', hacc', rfl⟩
          cases hacc'.kind_eq.symm.trans hkind
          rfl

theorem open_eq_ok_iff :
    (openAndValidate file).value = .ok f ↔
      ∃ kind, ∃ hacc : Accepted file kind, f = opened file kind hacc.size := by
  obtain ⟨r, hgives, hok⟩ := decides_openAndValidate file
  rw [hgives.value]
  exact hok f

/-! ## The table of an open file -/

namespace OpenFile

def table (f : OpenFile) : List DeltaDiskRecord :=
  (List.range f.metadata.recordCount).map (diskAt f.mapping f.recordsOffset)

def valueOf (f : OpenFile) (d : DeltaDiskRecord) : Bytes :=
  (f.mapping.drop (f.valuesOffset + d.valueOffset)).take d.valueLength

def recordOf (f : OpenFile) (d : DeltaDiskRecord) : Record := d.toRecord (f.valueOf d)

/-- The records of the file, in the order of the table. -/
def records (f : OpenFile) : List Record := f.table.map f.recordOf

/-- What the checks leave for the reads. -/
structure Readable (f : OpenFile) : Prop where
  size : f.mapping.length < 2 ^ 63
  table_end : f.recordsOffset + f.metadata.recordCount * recordSize ≤ f.mapping.length
  inside : ∀ d ∈ f.table, f.valuesOffset + d.valueOffset + d.valueLength ≤ f.mapping.length
  sorted : f.table.IsChain fun a b => ¬ VersionLess b.version a.version

theorem length_table (f : OpenFile) : f.table.length = f.metadata.recordCount := by
  simp [table]

variable {i : Nat}

theorem getElem?_table (hi : i < f.metadata.recordCount) :
    f.table[i]? = some (diskAt f.mapping f.recordsOffset i) := by
  simp [table, hi]

theorem diskAt_mem_table (hi : i < f.metadata.recordCount) :
    diskAt f.mapping f.recordsOffset i ∈ f.table :=
  List.mem_of_getElem? (getElem?_table hi)

end OpenFile

theorem Accepted.readable (hacc : Accepted file kind) : (opened file kind hacc.size).Readable where
  size := hacc.size
  table_end := hacc.bounds.records_end
  inside := by
    intro d hd
    obtain ⟨i, hi, rfl⟩ := List.mem_map.mp hd
    have hinside := (hacc.records i (List.mem_range.mp hi)).inside
    have hend := hacc.bounds.values_end
    change (headerOf file).valuesOffset +
      (diskAt file (headerOf file).recordsOffset i).valueOffset +
      (diskAt file (headerOf file).recordsOffset i).valueLength ≤ file.length
    omega
  sorted := by
    unfold OpenFile.table
    rw [List.isChain_map, List.isChain_iff_getElem]
    intro i hi
    rw [List.getElem_range, List.getElem_range]
    rw [List.length_range] at hi
    exact (hacc.records (i + 1) hi).sorted (Nat.succ_ne_zero i)

/-! ## What the reads compute -/

namespace OpenFile

variable {i : Nat}

theorem Readable.gives_load (hf : f.Readable) (hi : i < f.metadata.recordCount) :
    Traced.Gives f.mapping.length (loadDiskRecord f.mapping f.recordsOffset i)
      (diskAt f.mapping f.recordsOffset i) := by
  refine gives_loadDiskRecord hf.size (Nat.le_trans ?_ hf.table_end)
  exact Nat.add_le_add_left (Nat.mul_le_mul_right _ hi) _

theorem Readable.recordCount_lt (hf : f.Readable) : f.metadata.recordCount < 2 ^ 63 := by
  have := hf.table_end
  have := hf.size
  unfold recordSize at *
  omega

/-- A loop of `Lookup` looks for the first record that does not go on. -/
theorem Readable.gives_search (hf : f.Readable) {goesOn : DeltaDiskRecord → Bool}
    {fuel low high : Nat} (hhigh : high ≤ f.metadata.recordCount) :
    Traced.Gives f.mapping.length (f.search goesOn fuel low high)
      (lowerBound (fun d => !goesOn d) f.table fuel low high) := by
  have hcount := hf.recordCount_lt
  induction fuel generalizing low high with
  | zero => exact Traced.gives_pure _
  | succ fuel ih =>
    unfold search lowerBound
    by_cases hlt : low < high
    · rw [if_pos hlt, if_pos hlt]
      have hmid : low + (high - low) / 2 < f.metadata.recordCount := by omega
      refine (Traced.gives_sub64 (Nat.le_of_lt hlt) (by omega)).bind ?_
      refine (Traced.gives_add64 (by omega)).bind ?_
      refine (hf.gives_load hmid).bind ?_
      dsimp only
      rw [getElem?_table hmid, Option.any_some]
      cases goesOn (diskAt f.mapping f.recordsOffset (low + (high - low) / 2)) with
      | true => exact (Traced.gives_add64 (by omega)).bind (ih hhigh)
      | false => exact ih (by omega)
    · rw [if_neg hlt, if_neg hlt]
      exact Traced.gives_pure _

/-- The records that the first loop of `Lookup` leaves behind. -/
def goesBefore (k : Key) (d : DeltaDiskRecord) : Bool := compareDiskLogicalKey d k = .lt

/-- The records that the second loop leaves behind. -/
def goesUpTo (k : Key) (readSequence : Nat) (d : DeltaDiskRecord) : Bool :=
  compareDiskLogicalKey d k = .lt ∨ compareDiskLogicalKey d k = .eq ∧
    d.commitSequence ≤ readSequence

def firstOf (f : OpenFile) (k : Key) : Nat :=
  lowerBound (fun d => !goesBefore k d) f.table f.metadata.recordCount 0 f.metadata.recordCount

def endOf (f : OpenFile) (k : Key) (readSequence : Nat) : Nat :=
  lowerBound (fun d => !goesUpTo k readSequence d) f.table f.metadata.recordCount (f.firstOf k)
    f.metadata.recordCount

/-- The record of the table whose value `Lookup` returns. -/
def select (f : OpenFile) (k : Key) (readSequence : Nat) : Option DeltaDiskRecord :=
  if f.metadata.recordCount = 0 ∨ f.metadata.minCommitSequence > readSequence then none
  else if f.firstOf k = f.metadata.recordCount then none
  else if compareDiskLogicalKey (diskAt f.mapping f.recordsOffset (f.firstOf k)) k ≠ .eq then none
  else if f.endOf k readSequence = f.firstOf k then none
  else
    let selected := diskAt f.mapping f.recordsOffset (f.endOf k readSequence - 1)
    if compareDiskLogicalKey selected k ≠ .eq ∨ selected.commitSequence > readSequence then none
    else some selected

theorem Readable.gives_value (hf : f.Readable) {α : Type} {d : DeltaDiskRecord} (hd : d ∈ f.table)
    (g : Bytes → α) : Traced.Gives f.mapping.length
      (do
        let start ← Traced.add64 f.valuesOffset d.valueOffset
        let stop ← Traced.add64 start d.valueLength
        if stop > f.mapping.length then return none
        else
          let value ← Traced.load f.mapping start d.valueLength
          return some (g value)) (some (g (f.valueOf d))) := by
  have hinside := hf.inside d hd
  have hsize := hf.size
  refine (Traced.gives_add64 (by omega)).bind ?_
  refine (Traced.gives_add64 (by omega)).bind ?_
  rw [if_neg (Nat.not_lt.mpr hinside)]
  exact (Traced.gives_load hinside).bind (Traced.gives_pure _)

theorem Readable.gives_lookup (hf : f.Readable) (k : Key) (readSequence : Nat) :
    Traced.Gives f.mapping.length (f.lookup k readSequence)
      ((f.select k readSequence).map fun d => (f.valueOf d, d.commitSequence)) := by
  have hcount := hf.recordCount_lt
  have hfirst : f.firstOf k ≤ f.metadata.recordCount :=
    (lowerBound_range _ _ _ (Nat.zero_le _)).2
  have hend : f.firstOf k ≤ f.endOf k readSequence ∧
      f.endOf k readSequence ≤ f.metadata.recordCount := lowerBound_range _ _ _ hfirst
  have hsearch : Traced.Gives f.mapping.length
      (f.search (fun d => compareDiskLogicalKey d k = .lt) f.metadata.recordCount 0
        f.metadata.recordCount) (f.firstOf k) := hf.gives_search (Nat.le_refl _)
  have hsearch' : Traced.Gives f.mapping.length
      (f.search (fun d => compareDiskLogicalKey d k = .lt ∨
        compareDiskLogicalKey d k = .eq ∧ d.commitSequence ≤ readSequence) f.metadata.recordCount
        (f.firstOf k) f.metadata.recordCount) (f.endOf k readSequence) :=
    hf.gives_search (Nat.le_refl _)
  unfold lookup select
  by_cases hearly : f.metadata.recordCount = 0 ∨ f.metadata.minCommitSequence > readSequence
  · rw [if_pos hearly, if_pos hearly]
    exact Traced.gives_pure _
  rw [if_neg hearly, if_neg hearly]
  refine hsearch.bind ?_
  by_cases hall : f.firstOf k = f.metadata.recordCount
  · rw [if_pos hall, if_pos hall]
    exact Traced.gives_pure _
  rw [if_neg hall, if_neg hall]
  refine (hf.gives_load (by omega)).bind ?_
  by_cases hkey : compareDiskLogicalKey (diskAt f.mapping f.recordsOffset (f.firstOf k)) k ≠ .eq
  · rw [if_pos hkey, if_pos hkey]
    exact Traced.gives_pure _
  rw [if_neg hkey, if_neg hkey]
  refine hsearch'.bind ?_
  by_cases hnone : f.endOf k readSequence = f.firstOf k
  · rw [if_pos hnone, if_pos hnone]
    exact Traced.gives_pure _
  rw [if_neg hnone, if_neg hnone]
  have hlast : f.endOf k readSequence - 1 < f.metadata.recordCount := by omega
  refine (Traced.gives_sub64 (by omega) (by omega)).bind ?_
  refine (hf.gives_load hlast).bind ?_
  dsimp only
  split
  · exact Traced.gives_pure _
  · exact hf.gives_value (diskAt_mem_table hlast) fun value => (value, _)

/-- The visitor over a list, until it stops. -/
def visitAll {σ : Type} (visitor : σ → Record → σ × Bool) : σ → List Record → σ × Bool
  | s, [] => (s, true)
  | s, r :: rs =>
    match visitor s r with
    | (s', false) => (s', false)
    | (s', true) => visitAll visitor s' rs

theorem Readable.gives_forEachFrom (hf : f.Readable) {σ : Type}
    {visitor : σ → Record → σ × Bool} {n : Nat} {s : σ} (hn : i + n ≤ f.metadata.recordCount) :
    Traced.Gives f.mapping.length (f.forEachFrom visitor n i s) (visitAll visitor s
      ((List.range' i n).map fun j => f.recordOf (diskAt f.mapping f.recordsOffset j))) := by
  have hcount := hf.recordCount_lt
  induction n generalizing i s with
  | zero => exact Traced.gives_pure _
  | succ n ih =>
    have hi : i < f.metadata.recordCount := by omega
    have hvisit : Traced.Gives f.mapping.length (f.visit i)
        (some (f.recordOf (diskAt f.mapping f.recordsOffset i))) :=
      (hf.gives_load hi).bind (hf.gives_value (diskAt_mem_table hi) _)
    unfold forEachFrom
    refine hvisit.bind ?_
    rw [List.range'_succ, List.map_cons]
    unfold visitAll
    dsimp only
    obtain ⟨s', goesOn⟩ := visitor s (f.recordOf (diskAt f.mapping f.recordsOffset i))
    cases goesOn with
    | false => exact Traced.gives_pure _
    | true => exact (Traced.gives_add64 (by omega)).bind (ih (by omega))

theorem Readable.gives_forEachRecord (hf : f.Readable) {σ : Type}
    (visitor : σ → Record → σ × Bool) (s : σ) :
    Traced.Gives f.mapping.length (f.forEachRecord visitor s) (visitAll visitor s f.records) := by
  have hall : Traced.Gives f.mapping.length (f.forEachFrom visitor f.metadata.recordCount 0 s)
      (visitAll visitor s ((List.range' 0 f.metadata.recordCount).map fun j =>
        f.recordOf (diskAt f.mapping f.recordsOffset j))) := hf.gives_forEachFrom (by omega)
  rw [← List.range_eq_range'] at hall
  unfold records table
  rw [List.map_map]
  exact hall

end OpenFile

/-- Whatever the bytes of a file are, `Open` computes without a wrap and stays inside the file; and
if it accepts them, so do the reads. -/
theorem reads_stay_inside_the_file (file : Bytes) :
    Traced.Safe file.length (openAndValidate file) ∧
    ∀ f, (openAndValidate file).value = .ok f → f.mapping = file ∧
      (∀ k readSequence, Traced.Safe file.length (f.lookup k readSequence)) ∧
      ∀ (σ : Type) (visitor : σ → Record → σ × Bool) (s : σ),
        Traced.Safe file.length (f.forEachRecord visitor s) := by
  obtain ⟨r, hgives, -⟩ := decides_openAndValidate file
  refine ⟨hgives.safe, fun f hopen => ?_⟩
  obtain ⟨kind, hacc, rfl⟩ := open_eq_ok_iff.mp hopen
  refine ⟨rfl, fun k readSequence => ?_, fun σ visitor s => ?_⟩
  · exact (hacc.readable.gives_lookup k readSequence).safe
  · exact (hacc.readable.gives_forEachRecord visitor s).safe

end DeltaFormat

end RichGraph
