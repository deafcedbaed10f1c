-- What `Lookup` finds in a delta file: the same as a scan over all records, as long
-- as the direction bytes are those that `Create` writes and the header gives the
-- true least commit. For created files this is the newest record of the input.
import RichGraph.DeltaFileCreate
import RichGraph.PropertyDelta

namespace RichGraph

open Lib Manifest

namespace DeltaFormat

/-! ## Searching a table -/

/-- The records that a read at `readSequence` is to see. -/
def SeenBy (k : Key) (readSequence : Nat) (r : Record) : Prop :=
  r.key = k ∧ r.commitSequence ≤ readSequence

instance (k : Key) (readSequence : Nat) : DecidablePred (SeenBy k readSequence) :=
  fun _ => inferInstanceAs (Decidable (_ ∧ _))

def SeenOnDisk (k : Key) (readSequence : Nat) (d : DeltaDiskRecord) : Prop :=
  d.key = k ∧ d.commitSequence ≤ readSequence

instance (k : Key) (readSequence : Nat) : DecidablePred (SeenOnDisk k readSequence) :=
  fun _ => inferInstanceAs (Decidable (_ ∧ _))

variable {f : OpenFile} {k : Key} {d : DeltaDiskRecord} {readSequence : Nat}

theorem toNat_isOut (h : d.isOut ≤ 1) : d.isOut.toNat = (d.isOut != 0).toNat := by
  rcases Nat.le_one_iff_eq_zero_or_eq_one.mp (UInt8.le_iff_toNat_le.mp h) with h0 | h1
  · rw [UInt8.toNat_inj.mp (h0.trans (by rfl : 0 = (0 : UInt8).toNat))]
    rfl
  · rw [UInt8.toNat_inj.mp (h1.trans (by rfl : 1 = (1 : UInt8).toNat))]
    rfl

theorem toNat_direction (out : Bool) : (if out then (1 : UInt8) else 0).toNat = out.toNat := by
  cases out <;> rfl

theorem compare_eq_lt_iff (h : d.isOut ≤ 1) :
    compareDiskLogicalKey d k = .lt ↔ d.key.Less k := by
  unfold compareDiskLogicalKey Key.Less DeltaDiskRecord.key
  simp only [UInt8.lt_iff_toNat_lt, ← UInt8.toNat_inj, ne_eq, toNat_direction, toNat_isOut h]
  repeat' split
  all_goals simp only [true_iff, reduceCtorEq, false_iff]
  all_goals omega

theorem compare_eq_eq_iff (h : d.isOut ≤ 1) : compareDiskLogicalKey d k = .eq ↔ d.key = k := by
  obtain ⟨src, dst, base, isOut, edgeType⟩ := k
  unfold compareDiskLogicalKey DeltaDiskRecord.key
  have hout : (d.isOut != 0) = isOut ↔ (d.isOut != 0).toNat = isOut.toNat := by
    cases (d.isOut != 0) <;> cases isOut <;> simp
  simp only [UInt8.lt_iff_toNat_lt, ← UInt8.toNat_inj, ne_eq, toNat_direction, toNat_isOut h,
    Key.mk.injEq, hout]
  repeat' split
  all_goals simp only [true_iff, reduceCtorEq, false_iff]
  all_goals omega

/-- The first loop of `Lookup` goes on to the first version of the key. -/
theorem goesBefore_iff (h : d.isOut ≤ 1) :
    OpenFile.goesBefore k d = true ↔ VersionLess d.version (k, 0) := by
  unfold OpenFile.goesBefore VersionLess
  rw [decide_eq_true_iff, compare_eq_lt_iff h]
  simp [DeltaDiskRecord.version]

/-- The second loop goes on to the first version that is not to be seen. -/
theorem goesUpTo_iff (h : d.isOut ≤ 1) :
    OpenFile.goesUpTo k readSequence d = true ↔ VersionLess d.version (k, readSequence + 1) := by
  unfold OpenFile.goesUpTo VersionLess
  rw [decide_eq_true_iff, compare_eq_lt_iff h, compare_eq_eq_iff h]
  simp [DeltaDiskRecord.version]

namespace OpenFile

theorem Readable.rank_sorted (hf : f.Readable) :
    f.table.Pairwise fun a b => versionRank a.version ≤ versionRank b.version := by
  have hchain : f.table.IsChain fun a b => versionRank a.version ≤ versionRank b.version := by
    refine hf.sorted.imp fun a b hnot => ?_
    rwa [versionLess_iff, not_lt] at hnot
  have htrans : IsTrans DeltaDiskRecord fun a b => versionRank a.version ≤ versionRank b.version :=
    ⟨fun _ _ _ => le_trans⟩
  exact List.isChain_iff_pairwise.mp hchain

/-- Where a record goes before a version, every earlier one does. -/
theorem Readable.pairwise_less (hf : f.Readable) {p : DeltaDiskRecord → Bool} {v : Key × Nat}
    (hp : ∀ d ∈ f.table, p d = true ↔ VersionLess d.version v) :
    f.table.Pairwise fun a b => p b = true → p a = true := by
  refine hf.rank_sorted.imp_of_mem fun {a b} ha hb hle hless => ?_
  rw [hp _ ha, versionLess_iff]
  rw [hp _ hb, versionLess_iff] at hless
  exact hle.trans_lt hless

theorem seenOnDisk_iff (h : d.isOut ≤ 1) : SeenOnDisk k readSequence d ↔
    goesBefore k d = false ∧ goesUpTo k readSequence d = true := by
  unfold goesBefore goesUpTo SeenOnDisk
  rw [decide_eq_false_iff_not, decide_eq_true_iff, ← compare_eq_eq_iff h]
  constructor
  · rintro ⟨heq, hle⟩
    exact ⟨by rw [heq]; decide, Or.inr ⟨heq, hle⟩⟩
  · rintro ⟨hnot, hlt | hseen⟩
    · exact absurd hlt hnot
    · exact hseen

theorem goesUpTo_of_goesBefore (h : goesBefore k d = true) : goesUpTo k readSequence d = true := by
  unfold goesBefore at h
  unfold goesUpTo
  rw [decide_eq_true_iff] at *
  exact Or.inl h

theorem commit_le_of_rank {a b : DeltaDiskRecord} (hkey : a.key = b.key)
    (hle : versionRank a.version ≤ versionRank b.version) :
    a.commitSequence ≤ b.commitSequence := by
  refine Nat.not_lt.mp fun hlt => not_lt.mpr hle ?_
  exact versionLess_iff.mp (Or.inr ⟨hkey.symm, hlt⟩)

theorem diskAt_eq {i : Nat} (h : f.table[i]? = some d) :
    diskAt f.mapping f.recordsOffset i = d := by
  have hi : i < f.metadata.recordCount := by
    rw [← f.length_table]
    exact (List.getElem?_eq_some_iff.mp h).1
  rw [getElem?_table hi] at h
  exact Option.some.inj h

/-- With the places of the two searches in the table, the record is the last of those between. -/
theorem select_of_split {low mid high : List DeltaDiskRecord}
    (hsplit : f.table = low ++ (mid ++ high))
    (hfirst : f.firstOf k = low.length) (hend : f.endOf k readSequence = (low ++ mid).length)
    (hmid : ∀ d ∈ mid, compareDiskLogicalKey d k = .eq ∧ d.commitSequence ≤ readSequence)
    (hmin : ∀ d ∈ f.table, f.metadata.minCommitSequence ≤ d.commitSequence) :
    f.select k readSequence = mid.getLast? := by
  have hcount : f.metadata.recordCount = low.length + (mid.length + high.length) := by
    rw [← f.length_table, hsplit, List.length_append, List.length_append]
  rw [List.length_append] at hend
  unfold select
  rcases List.eq_nil_or_concat' mid with rfl | ⟨init, last, rfl⟩
  · -- The second search ends where it starts.
    have hnone : f.endOf k readSequence = f.firstOf k := by
      rw [hend, hfirst]
      rfl
    rw [if_pos hnone]
    split
    · rfl
    · split
      · rfl
      · split
        · rfl
        · rfl
  · have hlast := hmid last (by simp)
    have hle := hmin last (by rw [hsplit]; simp)
    obtain ⟨head, hhead⟩ : ∃ head, (init ++ [last]).head? = some head := by
      cases init <;> exact ⟨_, rfl⟩
    have hheadAt : f.table[f.firstOf k]? = some head := by
      rw [hsplit, hfirst, List.getElem?_append_right (Nat.le_refl _), Nat.sub_self,
        ← List.head?_eq_getElem?, List.head?_append, hhead]
      rfl
    have hlastAt : f.table[f.endOf k readSequence - 1]? = some last := by
      rw [hsplit, hend]
      simp
    rw [List.length_append, List.length_singleton] at hcount hend
    rw [if_neg (by omega), if_neg (by omega), diskAt_eq hheadAt, if_neg (by
      rw [not_not]
      exact (hmid head (List.mem_of_head? hhead)).1), if_neg (by omega)]
    dsimp only
    rw [diskAt_eq hlastAt, if_neg (by
      rw [not_or, not_not]
      exact ⟨hlast.1, Nat.not_lt.mpr hlast.2⟩), List.getLast?_concat]

/-- The search finds the newest record that is to be seen. -/
theorem Readable.select_eq (hf : f.Readable) (hdir : ∀ d ∈ f.table, d.isOut ≤ 1)
    (hmin : ∀ d ∈ f.table, f.metadata.minCommitSequence ≤ d.commitSequence) :
    f.select k readSequence =
      newestOf (SeenOnDisk k readSequence) DeltaDiskRecord.commitSequence f.table := by
  have hcount := f.length_table
  obtain ⟨low, mid, high, hsplit, hlow, hmid, hhigh, hfirst, hend⟩ := exists_split
    (fun d => goesUpTo_of_goesBefore)
    (hf.pairwise_less (p := goesBefore k) fun d hd => goesBefore_iff (hdir d hd))
    (hf.pairwise_less (p := goesUpTo k readSequence) fun d hd => goesUpTo_iff (hdir d hd))
    hcount.le
  rw [hcount] at hfirst hend
  have hfirst : f.firstOf k = low.length := hfirst
  have hend : f.endOf k readSequence = (low ++ mid).length := by rw [endOf, hfirst, hend]
  have hmem : ∀ d, d ∈ low ++ (mid ++ high) → d.isOut ≤ 1 := fun d hd => hdir d (hsplit ▸ hd)
  have hseen : ∀ d ∈ mid, SeenOnDisk k readSequence d := fun d hd =>
    (seenOnDisk_iff (hmem d (by simp [hd]))).mpr (hmid d hd)
  have hscan : newestOf (SeenOnDisk k readSequence) DeltaDiskRecord.commitSequence f.table =
      mid.getLast? := by
    rw [hsplit]
    refine newestOf_split (fun d hd hs => ?_) hseen ?_ fun d hd hs => ?_
    · have := ((seenOnDisk_iff (hmem d (by simp [hd]))).mp hs).1
      rw [hlow d hd] at this
      cases this
    · have hsorted := hf.rank_sorted
      rw [hsplit] at hsorted
      have hranks := (List.pairwise_append.mp (List.pairwise_append.mp hsorted).2.1).1
      refine hranks.imp_of_mem fun {a b} ha hb hle => ?_
      exact commit_le_of_rank ((hseen a ha).1.trans (hseen b hb).1.symm) hle
    · have := ((seenOnDisk_iff (hmem d (by simp [hd]))).mp hs).2
      rw [(hhigh d hd).2] at this
      cases this
  rw [hscan]
  refine select_of_split hsplit hfirst hend (fun d hd => ?_) hmin
  obtain ⟨hkey, hle⟩ := hseen d hd
  exact ⟨(compare_eq_eq_iff (hmem d (by simp [hd]))).mpr hkey, hle⟩

end OpenFile

/-! ## Lookup and scan -/

/-- What a read gives back of a record. -/
def Record.found (r : Record) : Bytes × Nat := (r.value, r.commitSequence)

/-- A visitor that looks for the newest record of a key. -/
def scan (k : Key) (readSequence : Nat) (best : Option Record) (r : Record) :
    Option Record × Bool :=
  (pickNewest (SeenBy k readSequence) Record.commitSequence best r, true)

theorem visitAll_scan (best : Option Record) (rs : List Record) :
    OpenFile.visitAll (scan k readSequence) best rs =
      (rs.foldl (pickNewest (SeenBy k readSequence) Record.commitSequence) best, true) := by
  induction rs generalizing best with
  | nil => rfl
  | cons r rs ih =>
    unfold OpenFile.visitAll
    exact ih _

/-- `Lookup` and a scan over `ForEachRecord` give the same. -/
def Agree (f : OpenFile) (k : Key) (readSequence : Nat) : Prop :=
  (f.lookup k readSequence).value =
    (f.forEachRecord (scan k readSequence) none).value.1.map Record.found

namespace OpenFile

theorem Readable.scan_eq (hf : f.Readable) :
    (f.forEachRecord (scan k readSequence) none).value.1 =
      newestOf (SeenBy k readSequence) Record.commitSequence f.records := by
  rw [(hf.gives_forEachRecord (scan k readSequence) none).value, visitAll_scan]
  rfl

theorem newestOf_records : newestOf (SeenBy k readSequence) Record.commitSequence f.records =
    (newestOf (SeenOnDisk k readSequence) DeltaDiskRecord.commitSequence f.table).map f.recordOf :=
  newestOf_map f.recordOf f.table

theorem Readable.lookup_eq (hf : f.Readable) (hdir : ∀ d ∈ f.table, d.isOut ≤ 1)
    (hmin : ∀ d ∈ f.table, f.metadata.minCommitSequence ≤ d.commitSequence) :
    (f.lookup k readSequence).value =
      (newestOf (SeenBy k readSequence) Record.commitSequence f.records).map Record.found := by
  rw [(hf.gives_lookup k readSequence).value, hf.select_eq hdir hmin, newestOf_records,
    Option.map_map]
  rfl

/-- What is found in a table has the key as it stands, direction byte included. -/
theorem of_compare_eq (h : compareDiskLogicalKey d k = .eq) : d.isOut ≤ 1 ∧ d.key = k := by
  have hout : d.isOut ≤ 1 := by
    by_contra hlarge
    have hdir : d.isOut ≠ if k.isOut then 1 else 0 := by
      intro heq
      apply hlarge
      rw [heq]
      cases k.isOut <;> decide
    revert h
    unfold compareDiskLogicalKey
    dsimp only
    rw [if_pos hdir]
    repeat' split
    all_goals exact fun h => nomatch h
  exact ⟨hout, (compare_eq_eq_iff hout).mp h⟩

theorem of_select_eq_some (h : f.select k readSequence = some d) :
    d ∈ f.table ∧ compareDiskLogicalKey d k = .eq ∧
      f.metadata.minCommitSequence ≤ readSequence := by
  unfold select at h
  split at h
  · cases h
  rename_i hearly
  split at h
  · cases h
  split at h
  · cases h
  split at h
  · cases h
  rename_i hne
  dsimp only at h
  split at h
  · cases h
  rename_i hsel
  cases h
  rw [not_or, not_not] at hsel
  refine ⟨diskAt_mem_table ?_, hsel.1, by omega⟩
  have hfirst : f.firstOf k ≤ f.metadata.recordCount := (lowerBound_range _ _ _ (Nat.zero_le _)).2
  have hend : f.firstOf k ≤ f.endOf k readSequence ∧
      f.endOf k readSequence ≤ f.metadata.recordCount := lowerBound_range _ _ _ hfirst
  omega

/-- In a table without repetitions, the record of a version is found at its commit only if its
direction byte is 0 or 1 and its commit is not below that of the header. -/
theorem Readable.normal_of_agree (hf : f.Readable) (hnodup : (f.table.map (·.version)).Nodup)
    (hd : d ∈ f.table) (hagree : Agree f d.key d.commitSequence) :
    d.isOut ≤ 1 ∧ f.metadata.minCommitSequence ≤ d.commitSequence := by
  have hseen : SeenBy d.key d.commitSequence (f.recordOf d) := ⟨rfl, Nat.le_refl _⟩
  have hmem : f.recordOf d ∈ f.records := List.mem_map_of_mem hd
  have hnewest : IsNewest (SeenBy d.key d.commitSequence) Record.commitSequence f.records
      (newestOf (SeenBy d.key d.commitSequence) Record.commitSequence f.records) :=
    isNewest_newestOf f.records
  unfold Agree at hagree
  rw [hf.scan_eq, (hf.gives_lookup _ _).value] at hagree
  cases hscan : newestOf (SeenBy d.key d.commitSequence) Record.commitSequence f.records with
  | none =>
    rw [hscan] at hnewest
    exact absurd hseen (hnewest _ hmem)
  | some r =>
    rw [hscan] at hagree hnewest
    obtain ⟨before, after, hrecords, hr, hbefore, hafter⟩ := hnewest
    -- The newest record has the commit of the read.
    have hcommit : r.commitSequence = d.commitSequence := by
      rw [hrecords] at hmem
      refine Nat.le_antisymm hr.2 ?_
      rcases List.mem_append.mp hmem with hmem | hmem
      · exact hbefore _ hmem hseen
      · rcases List.mem_cons.mp hmem with heq | hmem
        · rw [← heq]
          exact Nat.le_refl _
        · exact (hafter _ hmem hseen).le
    cases hselect : f.select d.key d.commitSequence with
    | none =>
      rw [hselect] at hagree
      cases hagree
    | some d' =>
      rw [hselect] at hagree
      obtain ⟨hd', hcompare, hmin⟩ := of_select_eq_some hselect
      obtain ⟨hout, hkey⟩ := of_compare_eq hcompare
      have hsame : d'.commitSequence = d.commitSequence :=
        (congrArg Prod.snd (Option.some.inj hagree)).trans hcommit
      have heq : d' = d := List.inj_on_of_nodup_map hnodup hd' hd (Prod.ext hkey hsame)
      exact ⟨heq ▸ hout, hmin⟩

end OpenFile

/-- In an accepted file with direction bytes 0 and 1 and no commit below the least of the header,
`Lookup` gives what a scan over all records gives. Where no version is there twice, this is the only
way. -/
theorem lookups_agree_with_scans {file : Bytes} (h : (openAndValidate file).value = .ok f) :
    ((∀ d ∈ f.table, d.isOut ≤ 1 ∧ f.metadata.minCommitSequence ≤ d.commitSequence) →
      ∀ k readSequence, Agree f k readSequence) ∧
    ((f.table.map (·.version)).Nodup → (∀ k readSequence, Agree f k readSequence) →
      ∀ d ∈ f.table, d.isOut ≤ 1 ∧ f.metadata.minCommitSequence ≤ d.commitSequence) := by
  obtain ⟨kind, hacc, rfl⟩ := open_eq_ok_iff.mp h
  have hf := hacc.readable
  refine ⟨fun hnormal k readSequence => ?_, fun hnodup hagree d hd => ?_⟩
  · unfold Agree
    rw [hf.scan_eq]
    exact hf.lookup_eq (fun d hd => (hnormal d hd).1) fun d hd => (hnormal d hd).2
  · exact hf.normal_of_agree hnodup hd (hagree _ _)

/-- A file with one record, of this direction byte, and this least commit in its header. -/
def oneRecordFile (isOut : UInt8) (minCommitSequence : Nat) : Bytes :=
  let payload := DeltaDiskRecord.bytes
    ⟨1, 2, 3, 5, 0, 1, 0, isOut, inRange_small⟩ ++ [97]
  let h := { makeHeader anEdgeFile 7 [] with
    recordCount := 1, valuesOffset := headerSize + recordSize, valuesBytes := 1
    minCommitSequence, maxCommitSequence := 5, payloadChecksum := (fnv fnvOffset payload).toNat }
  { h with headerChecksum := headerChecksum h }.bytes ++ payload

theorem eq_ok_of_toOption {x : Except OpenError OpenFile} (h : x.toOption = some f) :
    x = .ok f := by
  cases x with
  | error e => cases h
  | ok g => rw [Option.some.inj h]

/-- A direction byte 2 is out for a scan and for the order of the table, and no direction at all for
`Lookup`. And nothing compares the commits with those of the header. -/
theorem lookups_and_scans_disagree :
    (∃ file f k readSequence, (openAndValidate file).value = .ok f ∧ ¬ Agree f k readSequence) ∧
      ∃ file f, (openAndValidate file).value = .ok f ∧
        ∃ r ∈ f.records, r.commitSequence < f.metadata.minCommitSequence := by
  constructor
  · have hreads : ((openAndValidate (oneRecordFile 2 5)).value.toOption.map fun f =>
        ((f.lookup ⟨1, 2, 3, true, 0⟩ 9).value,
          (f.forEachRecord (scan ⟨1, 2, 3, true, 0⟩ 9) none).value.1.map Record.found)) =
        some (none, some ([97], 5)) := by decide +kernel
    obtain ⟨f, hopen, hpair⟩ := Option.map_eq_some_iff.mp hreads
    refine ⟨_, f, ⟨1, 2, 3, true, 0⟩, 9, eq_ok_of_toOption hopen, fun hagree => ?_⟩
    obtain ⟨hlookup, hscan⟩ := Prod.mk.inj hpair
    unfold Agree at hagree
    rw [hlookup, hscan] at hagree
    cases hagree
  · have hbounds : ((openAndValidate (oneRecordFile 1 6)).value.toOption.map fun f =>
        (f.records.map (·.commitSequence), f.metadata.minCommitSequence)) = some ([5], 6) := by
      decide +kernel
    obtain ⟨f, hopen, hpair⟩ := Option.map_eq_some_iff.mp hbounds
    obtain ⟨hcommits, hmin⟩ := Prod.mk.inj hpair
    have hmem : 5 ∈ f.records.map (·.commitSequence) := by
      rw [hcommits]
      exact List.mem_cons_self
    obtain ⟨r, hr, hcommit⟩ := List.mem_map.mp hmem
    exact ⟨_, f, eq_ok_of_toOption hopen, r, hr, by omega⟩

theorem two_updates_agree_with_their_scan : ∃ f,
    (openAndValidate (fileBytes anEdgeFile 7 (deduplicated twoUpdates))).value = .ok f ∧
      Agree f ⟨1, 2, 3, true, 0⟩ 9 := by
  obtain ⟨-, hw, -⟩ := create_ok create_twoUpdates
  refine ⟨hw.openFile, hw.open_fileBytes, ?_⟩
  refine (lookups_agree_with_scans hw.open_fileBytes).1 (fun d hd => ?_) _ _
  rw [hw.openedAs.minCommit]
  rw [hw.table_openFile] at hd
  revert d
  decide +kernel

/-! ## Created files -/

variable {rs records : List Record} {target : PropertyDeltaTarget} {fileGeneration : Nat}

theorem isOut_diskRecords {offset : Nat} (hd : d ∈ diskRecords offset rs) : d.isOut ≤ 1 := by
  induction rs generalizing offset with
  | nil => cases hd
  | cons r rs ih =>
    rcases List.mem_cons.mp hd with rfl | hd
    · dsimp only
      cases r.isOut <;> decide
    · exact ih hd

theorem Writable.lookup_eq (hw : Writable target fileGeneration rs) :
    (hw.openFile.lookup k readSequence).value =
      (newestOf (SeenBy k readSequence) Record.commitSequence rs).map Record.found := by
  have hlookup : (hw.openFile.lookup k readSequence).value =
      (newestOf (SeenBy k readSequence) Record.commitSequence hw.openFile.records).map
        Record.found := by
    refine hw.readable.lookup_eq (fun d hd => isOut_diskRecords (hw.table_openFile ▸ hd))
      fun d hd => ?_
    rw [hw.openedAs.minCommit]
    have hmem : hw.openFile.recordOf d ∈ hw.openFile.records := List.mem_map_of_mem hd
    rw [hw.records_openFile] at hmem
    exact minCommit_le hmem
  rwa [hw.records_openFile] at hlookup

theorem newestOf_seenBy_deduplicated :
    newestOf (SeenBy k readSequence) Record.commitSequence (deduplicated records) =
      newestOf (SeenBy k readSequence) Record.commitSequence records := by
  refine newestOf_deduplicated (fun a b ha hb hless => ?_) fun a b hsame ha => ?_
  · have hkey : b.key = a.key := hb.1.trans ha.1.symm
    rcases hless with hless | ⟨-, hlt⟩
    · have hirrefl : ¬ Key.Less a.key a.key := by
        unfold Key.Less
        omega
      change Key.Less b.key a.key at hless
      rw [hkey] at hless
      exact absurd hless hirrefl
    · exact hlt
  · have hkey : a.key = b.key := congrArg Prod.fst hsame
    have hcommit : a.commitSequence = b.commitSequence := congrArg Prod.snd hsame
    exact ⟨⟨hkey.symm.trans ha.1, hcommit ▸ ha.2⟩, hcommit.le⟩

/-- A created file as it is open. -/
structure CreatedFile where
  target : PropertyDeltaTarget
  fileGeneration : Nat
  /-- The input of `Create`, in any order and with repetitions. -/
  records : List Record
  file : Bytes
  created : create target fileGeneration records = .ok file
  openFile : OpenFile
  open_eq : (openAndValidate file).value = .ok openFile

theorem open_created {file : Bytes} (h : create target fileGeneration records = .ok file)
    (hw : Writable target fileGeneration (deduplicated records)) :
    (openAndValidate file).value = .ok hw.openFile := by
  rw [(create_ok h).2.2]
  exact hw.open_fileBytes

/-- What `Create` has made can be opened. -/
def CreatedFile.of {file : Bytes} (h : create target fileGeneration records = .ok file) :
    CreatedFile :=
  ⟨target, fileGeneration, records, file, h, _, open_created h (create_ok h).2.1⟩

namespace CreatedFile

theorem openFile_eq (c : CreatedFile) :
    ∃ hw : Writable c.target c.fileGeneration (deduplicated c.records),
      c.openFile = hw.openFile := by
  obtain ⟨-, hw, hfile⟩ := create_ok c.created
  have hopen := c.open_eq
  rw [hfile, hw.open_fileBytes] at hopen
  exact ⟨hw, (Except.ok.inj hopen).symm⟩

/-- The record of the input that a read is to find. -/
def newest (c : CreatedFile) (k : Key) (readSequence : Nat) : Option Record :=
  newestOf (SeenBy k readSequence) Record.commitSequence c.records

theorem lookup_eq (c : CreatedFile) (k : Key) (readSequence : Nat) :
    (c.openFile.lookup k readSequence).value = (c.newest k readSequence).map Record.found := by
  obtain ⟨hw, heq⟩ := c.openFile_eq
  rw [heq, hw.lookup_eq, newestOf_seenBy_deduplicated]
  rfl

/-- The commits of the header hold for what is found. -/
theorem commit_bounds (c : CreatedFile) {r : Record} (h : c.newest k readSequence = some r) :
    c.openFile.metadata.minCommitSequence ≤ r.commitSequence ∧
      r.commitSequence ≤ c.openFile.metadata.maxCommitSequence := by
  obtain ⟨hw, heq⟩ := c.openFile_eq
  unfold newest at h
  rw [← newestOf_seenBy_deduplicated] at h
  obtain ⟨before, after, hsplit, -⟩ := newestOf_eq_iff.mp h
  have hmem : r ∈ deduplicated c.records := by
    rw [hsplit]
    exact List.mem_append_right _ List.mem_cons_self
  rw [heq, hw.openedAs.minCommit, hw.openedAs.maxCommit]
  exact ⟨minCommit_le hmem, le_maxCommit hmem⟩

end CreatedFile

/-- A lookup in a created file gives the record of the input with the greatest commit that is to be
seen, of equal commits the last; it misses just when there is none. -/
theorem lookups_find_the_newest_input (c : CreatedFile) (k : Key) (readSequence : Nat) :
    ∃ best, IsNewest (SeenBy k readSequence) Record.commitSequence c.records best ∧
      (c.openFile.lookup k readSequence).value = best.map Record.found :=
  ⟨c.newest k readSequence, isNewest_newestOf _, c.lookup_eq k readSequence⟩

theorem the_newer_of_two_updates_is_found :
    ((CreatedFile.of create_twoUpdates).openFile.lookup ⟨1, 2, 3, true, 0⟩ 9).value =
        some ([98], 8) ∧
      ∃ best, IsNewest (SeenBy ⟨1, 2, 3, true, 0⟩ 9) Record.commitSequence twoUpdates best ∧
        ((CreatedFile.of create_twoUpdates).openFile.lookup ⟨1, 2, 3, true, 0⟩ 9).value =
          best.map Record.found :=
  ⟨by decide +kernel, lookups_find_the_newest_input (.of create_twoUpdates) ⟨1, 2, 3, true, 0⟩ 9⟩

/-! ## Chains of files -/

/-- One file of `PropertyDeltaReadView::Lookup`. -/
def probe (k : Key) (readSequence : Nat) (best : Option (Bytes × Nat)) (f : OpenFile) :
    Option (Bytes × Nat) :=
  if f.metadata.minCommitSequence > readSequence ∨
      (best.any fun b => f.metadata.maxCommitSequence ≤ b.2) then best
  else
    match (f.lookup k readSequence).value with
    | none => best
    | some candidate => if best.all fun b => b.2 < candidate.2 then some candidate else best

/-- `PropertyDeltaReadView::Lookup`, from the last file to the first. -/
def viewLookup (deltas : List OpenFile) (k : Key) (readSequence : Nat) : Option (Bytes × Nat) :=
  deltas.reverse.foldl (probe k readSequence) none

/-- A value that is recorded at the greatest commit to be seen. -/
def IsGreatest (k : Key) (readSequence : Nat) (rs : List Record) : Option (Bytes × Nat) → Prop
  | none => ∀ r ∈ rs, ¬ SeenBy k readSequence r
  | some found => (∃ r ∈ rs, SeenBy k readSequence r ∧ r.found = found) ∧
      ∀ r ∈ rs, SeenBy k readSequence r → r.commitSequence ≤ found.2

variable {best : Option (Bytes × Nat)}

/-- Records that are not newer do not change the greatest. -/
theorem IsGreatest.append_of_le {found : Bytes × Nat}
    (h : IsGreatest k readSequence rs (some found))
    (hle : ∀ r ∈ records, SeenBy k readSequence r → r.commitSequence ≤ found.2) :
    IsGreatest k readSequence (rs ++ records) (some found) := by
  obtain ⟨⟨r, hr, hseen⟩, hall⟩ := h
  refine ⟨⟨r, List.mem_append_left _ hr, hseen⟩, fun r' hr' => ?_⟩
  rcases List.mem_append.mp hr' with hr' | hr'
  · exact hall r' hr'
  · exact hle r' hr'

theorem IsGreatest.append_of_not (h : IsGreatest k readSequence rs best)
    (hnot : ∀ r ∈ records, ¬ SeenBy k readSequence r) :
    IsGreatest k readSequence (rs ++ records) best := by
  cases best with
  | none => exact fun r hr => (List.mem_append.mp hr).elim (h r) (hnot r)
  | some found => exact h.append_of_le fun r hr hseen => absurd hseen (hnot r hr)

theorem isGreatest_newest (c : CreatedFile) {r : Record} (h : c.newest k readSequence = some r) :
    IsGreatest k readSequence c.records (some r.found) := by
  obtain ⟨before, after, hsplit, hseen, hbefore, hafter⟩ := newestOf_eq_iff.mp h
  rw [hsplit]
  refine ⟨⟨r, List.mem_append_right _ List.mem_cons_self, hseen, rfl⟩, fun r' hr' hseen' => ?_⟩
  rcases List.mem_append.mp hr' with hr' | hr'
  · exact hbefore r' hr' hseen'
  · rcases List.mem_cons.mp hr' with rfl | hr'
    · exact Nat.le_refl _
    · exact (hafter r' hr' hseen').le

/-- The step of the loop: a file that is skipped has nothing newer. -/
theorem isGreatest_probe (c : CreatedFile) (h : IsGreatest k readSequence rs best) :
    IsGreatest k readSequence (rs ++ c.records) (probe k readSequence best c.openFile) := by
  have hlookup := c.lookup_eq k readSequence
  cases hnewest : c.newest k readSequence with
  | none =>
    rw [hnewest] at hlookup
    have hkeep : probe k readSequence best c.openFile = best := by
      unfold probe
      rw [hlookup]
      split <;> rfl
    rw [hkeep]
    exact h.append_of_not (newestOf_eq_iff.mp hnewest)
  | some r =>
    rw [hnewest] at hlookup
    obtain ⟨hlow, hhigh⟩ := c.commit_bounds hnewest
    have hgreatest := isGreatest_newest c hnewest
    have hseen : r.commitSequence ≤ readSequence := by
      obtain ⟨before, after, -, hseen, -⟩ := newestOf_eq_iff.mp hnewest
      exact hseen.2
    have hmin : ¬ c.openFile.metadata.minCommitSequence > readSequence := by omega
    cases best with
    | none =>
      have htake : probe k readSequence none c.openFile = some r.found := by
        unfold probe
        rw [if_neg (by simpa using hmin), hlookup]
        rfl
      rw [htake]
      obtain ⟨⟨r', hr', hseen'⟩, hall⟩ := hgreatest
      refine ⟨⟨r', List.mem_append_right _ hr', hseen'⟩, fun r'' hr'' hs => ?_⟩
      rcases List.mem_append.mp hr'' with hr'' | hr''
      · exact absurd hs (h r'' hr'')
      · exact hall r'' hr'' hs
    | some b =>
      by_cases hnewer : b.2 < r.commitSequence
      · have htake : probe k readSequence (some b) c.openFile = some r.found := by
          have hskip : ¬ (c.openFile.metadata.minCommitSequence > readSequence ∨
              ((some b).any fun b => c.openFile.metadata.maxCommitSequence ≤ b.2) = true) := by
            rw [Option.any_some, decide_eq_true_iff]
            omega
          unfold probe
          rw [if_neg hskip, hlookup]
          refine if_pos ?_
          rw [Option.all_some, decide_eq_true_iff]
          exact hnewer
        rw [htake]
        obtain ⟨⟨r', hr', hseen'⟩, hall⟩ := hgreatest
        refine ⟨⟨r', List.mem_append_right _ hr', hseen'⟩, fun r'' hr'' hs => ?_⟩
        rcases List.mem_append.mp hr'' with hr'' | hr''
        · exact (h.2 r'' hr'' hs).trans hnewer.le
        · exact hall r'' hr'' hs
      · have hkeep : probe k readSequence (some b) c.openFile = some b := by
          unfold probe
          rw [hlookup]
          split
          · rfl
          · refine if_neg ?_
            rw [Option.all_some, decide_eq_true_iff]
            exact hnewer
        rw [hkeep]
        exact h.append_of_le fun r' hr' hs => (hgreatest.2 r' hr' hs).trans (Nat.not_lt.mp hnewer)

/-- A lookup in a chain of created files, whatever their order and their commits, gives a value
recorded for the key at the greatest commit that is to be seen, and misses just when there is
none. -/
theorem chain_lookups_find_the_greatest (files : List CreatedFile) (k : Key) (readSequence : Nat) :
    IsGreatest k readSequence (files.flatMap (·.records))
      (viewLookup (files.map (·.openFile)) k readSequence) := by
  have hfold : ∀ (cs : List CreatedFile) (rs : List Record) (best : Option (Bytes × Nat)),
      IsGreatest k readSequence rs best → IsGreatest k readSequence (rs ++ cs.flatMap (·.records))
        ((cs.map (·.openFile)).foldl (probe k readSequence) best) := by
    intro cs
    induction cs with
    | nil =>
      intro rs best h
      rw [List.flatMap_nil, List.append_nil]
      exact h
    | cons c cs ih =>
      intro rs best h
      rw [List.map_cons, List.foldl_cons, List.flatMap_cons, ← List.append_assoc]
      exact ih _ _ (isGreatest_probe c h)
  have hall := hfold files.reverse [] none fun _ hr => nomatch hr
  rw [List.nil_append, List.map_reverse] at hall
  unfold viewLookup
  have hmem : ∀ r, r ∈ files.reverse.flatMap (·.records) ↔ r ∈ files.flatMap (·.records) := by
    simp
  cases hbest : (files.map (·.openFile)).reverse.foldl (probe k readSequence) none with
  | none =>
    rw [hbest] at hall
    exact fun r hr => hall r ((hmem r).mpr hr)
  | some found =>
    rw [hbest] at hall
    obtain ⟨⟨r, hr, hseen⟩, hle⟩ := hall
    exact ⟨⟨r, (hmem r).mp hr, hseen⟩, fun r' hr' => hle r' ((hmem r').mpr hr')⟩

/-- An update of the same edge, between the two. -/
def anUpdateBetween : List Record := [⟨1, 2, 3, 6, true, 0, [99], by unfold InRange; decide⟩]

theorem create_anUpdateBetween : create anEdgeFile 8 anUpdateBetween =
    .ok (fileBytes anEdgeFile 8 (deduplicated anUpdateBetween)) := by
  unfold create
  rw [if_neg (by decide), if_neg (by decide)]
  dsimp only
  rw [if_neg (by decide +kernel), if_neg (by decide +kernel), if_pos (by decide +kernel)]

/-- The commit of the second file lies between those of the first. -/
def twoFiles : List CreatedFile := [.of create_twoUpdates, .of create_anUpdateBetween]

theorem lookup_twoFiles :
    viewLookup (twoFiles.map (·.openFile)) ⟨1, 2, 3, true, 0⟩ 7 = some ([99], 6) := by
  decide +kernel

theorem the_update_between_is_found :
    viewLookup (twoFiles.map (·.openFile)) ⟨1, 2, 3, true, 0⟩ 7 = some ([99], 6) ∧
      IsGreatest ⟨1, 2, 3, true, 0⟩ 7 (twoFiles.flatMap (·.records)) (some ([99], 6)) := by
  -- With the files named, the elaborator does not evaluate their bytes.
  have hfound : ∀ (files : List CreatedFile) found,
      viewLookup (files.map (·.openFile)) ⟨1, 2, 3, true, 0⟩ 7 = found →
        IsGreatest ⟨1, 2, 3, true, 0⟩ 7 (files.flatMap (·.records)) found := by
    rintro files - rfl
    exact chain_lookups_find_the_greatest files _ _
  exact ⟨lookup_twoFiles, hfound twoFiles _ lookup_twoFiles⟩

/-! ## The model without bytes -/

section model

/-- A record as the store's model has it, where base sequences are not negative. -/
def Record.toModel (r : Record) : PropertyDeltaRecord :=
  ⟨r.src, r.dst, r.baseSequence.toNat, r.commitSequence, r.isOut, r.edgeType, r.value⟩

variable {a b : Record}

theorem id_eq_iff (ha : 0 ≤ a.baseSequence) (hb : 0 ≤ b.baseSequence) :
    a.toModel.id = b.toModel.id ↔ a.key = b.key := by
  have hbase : a.baseSequence.toNat = b.baseSequence.toNat ↔ a.baseSequence = b.baseSequence := by
    omega
  simp only [Record.toModel, PropertyDeltaRecord.id, Record.key, RecordId.mk.injEq, Key.mk.injEq,
    hbase]

theorem lt_iff (ha : 0 ≤ a.baseSequence) (hb : 0 ≤ b.baseSequence) :
    a.toModel.lt b.toModel ↔ VersionLess a.version b.version := by
  have hless : a.toModel.id.lt b.toModel.id ↔ a.key.Less b.key := by
    simp only [Record.toModel, PropertyDeltaRecord.id, Record.key, RecordId.lt, Key.Less]
    omega
  unfold PropertyDeltaRecord.lt VersionLess
  rw [hless, id_eq_iff ha hb]
  rfl

theorem sameVersion_iff (ha : 0 ≤ a.baseSequence) (hb : 0 ≤ b.baseSequence) :
    a.toModel.SameVersion b.toModel ↔ a.SameVersion b := by
  unfold PropertyDeltaRecord.SameVersion Record.SameVersion
  rw [id_eq_iff ha hb]
  exact Prod.mk_inj.symm

theorem map_toModel_keepLast (h : ∀ r ∈ rs, 0 ≤ r.baseSequence) :
    (keepLast Record.SameVersion rs).map Record.toModel =
      RichGraph.deduplicated (rs.map Record.toModel) := by
  fun_induction keepLast Record.SameVersion rs with
  | case1 => rfl
  | case2 r => rfl
  | case3 r r' rs hsame ih =>
    obtain ⟨hr, hrs⟩ := List.forall_mem_cons.mp h
    rw [List.map_cons, List.map_cons, RichGraph.deduplicated, keepLast,
      if_pos ((sameVersion_iff hr (hrs r' List.mem_cons_self)).mpr hsame)]
    exact ih hrs
  | case4 r r' rs hne ih =>
    obtain ⟨hr, hrs⟩ := List.forall_mem_cons.mp h
    rw [List.map_cons, List.map_cons, List.map_cons, RichGraph.deduplicated, keepLast,
      if_neg fun hsame => hne ((sameVersion_iff hr (hrs r' List.mem_cons_self)).mp hsame), ih hrs]
    rfl

theorem map_toModel_deduplicated (h : ∀ r ∈ records, 0 ≤ r.baseSequence) :
    (deduplicated records).map Record.toModel =
      RichGraph.deduplicated
        ((records.map Record.toModel).insertionSort PropertyDeltaRecord.le) := by
  unfold deduplicated
  rw [map_toModel_keepLast fun r hr => h r ((List.mem_insertionSort _).mp hr),
    List.map_insertionSort Record.NotAfter PropertyDeltaRecord.le]
  intro a ha b hb
  unfold Record.NotAfter PropertyDeltaRecord.le
  rw [lt_iff (h b hb) (h a ha)]

theorem diskRecords_map_toModel (offset : Nat) (h : ∀ r ∈ rs, 0 ≤ r.baseSequence) :
    RichGraph.diskRecords offset (rs.map Record.toModel) =
      (diskRecords offset rs).flatMap DeltaDiskRecord.bytes := by
  induction rs generalizing offset with
  | nil => rfl
  | cons r rs ih =>
    obtain ⟨hr, hrs⟩ := List.forall_mem_cons.mp h
    have hbase : r.baseSequence.toNat = toTwos r.baseSequence := by
      have hrange := r.inRange.2.2.2.1
      unfold toTwos
      rw [Int.emod_eq_of_lt hr (by omega)]
    rw [List.map_cons, RichGraph.diskRecords, diskRecords, List.flatMap_cons, ← ih _ hrs]
    unfold DeltaDiskRecord.bytes
    dsimp only [Record.toModel]
    rw [hbase]
    rfl

theorem diskValues_map_toModel (rs : List Record) :
    diskValues (rs.map Record.toModel) = valueBytes rs := by
  unfold diskValues valueBytes
  rw [List.flatMap_map]
  rfl

theorem minCommit_map_toModel (rs : List Record) :
    RichGraph.minCommit (rs.map Record.toModel) = minCommit rs := by
  unfold RichGraph.minCommit minCommit
  rw [List.foldl_map]
  rfl

theorem maxCommit_map_toModel (rs : List Record) :
    RichGraph.maxCommit (rs.map Record.toModel) = maxCommit rs := by
  unfold RichGraph.maxCommit maxCommit
  rw [List.foldl_map]
  rfl

/-- The model makes a file of the same metadata. -/
theorem Writable.fitsHeader (hw : Writable target fileGeneration rs) :
    FitsHeader target fileGeneration (rs.map Record.toModel) := by
  obtain ⟨hshard, hproperty, hfile, hbase, hgeneration⟩ := hw.range
  have hr := hw.inRange
  have hsize := hw.size
  refine ⟨⟨hshard, hproperty, hfile, hbase⟩, hgeneration, ?_, ?_, ?_, ?_⟩
  · rw [List.length_map]
    exact hr.recordCount
  · unfold deltaFileBytes
    rw [List.length_map, diskValues_map_toModel]
    unfold headerSize recordSize at hsize
    omega
  · rw [minCommit_map_toModel]
    exact hr.minCommitSequence
  · rw [maxCommit_map_toModel]
    exact hr.maxCommitSequence

def Key.toModel (k : Key) : RecordId := ⟨k.src, k.dst, k.baseSequence.toNat, k.isOut, k.edgeType⟩

theorem seen_toModel_iff {r : Record} (hr : 0 ≤ r.baseSequence) (hk : 0 ≤ k.baseSequence) :
    Seen k.toModel readSequence r.toModel = true ↔ SeenBy k readSequence r := by
  have hbase : r.baseSequence.toNat = k.baseSequence.toNat ↔ r.baseSequence = k.baseSequence := by
    omega
  have hid : r.toModel.id = k.toModel ↔ r.key = k := by
    obtain ⟨src, dst, base, isOut, edgeType⟩ := k
    simp only [Record.toModel, Key.toModel, PropertyDeltaRecord.id, Record.key, RecordId.mk.injEq,
      Key.mk.injEq, hbase]
  unfold Seen SeenBy
  rw [Bool.and_eq_true, decide_eq_true_iff, decide_eq_true_iff, hid]
  rfl

theorem metadata_ext {a b : PropertyDeltaFileMetadata} (htarget : a.target = b.target)
    (hgeneration : a.fileGeneration = b.fileGeneration) (hcount : a.recordCount = b.recordCount)
    (hbytes : a.fileBytes = b.fileBytes) (hmin : a.minCommitSequence = b.minCommitSequence)
    (hmax : a.maxCommitSequence = b.maxCommitSequence)
    (hsum : a.payloadChecksum = b.payloadChecksum) : a = b := by
  cases a
  cases b
  dsimp only at *
  subst htarget hgeneration hcount hbytes hmin hmax hsum
  rfl

theorem CreatedFile.exists_model (c : CreatedFile) (hbase : ∀ r ∈ c.records, 0 ≤ r.baseSequence) :
    ∃ f, PropertyDeltaFile.create c.target c.fileGeneration (c.records.map Record.toModel) =
      some f ∧
      f.metadata = c.openFile.metadata ∧
      f.records = (deduplicated c.records).map Record.toModel := by
  obtain ⟨hw, heq⟩ := c.openFile_eq
  obtain ⟨hne, -, -⟩ := create_ok c.created
  have hopen := hw.openedAs
  have hkept := map_toModel_deduplicated hbase
  have hrs : ∀ r ∈ deduplicated c.records, 0 ≤ r.baseSequence := fun r hr =>
    hbase r ((List.mem_insertionSort _).mp ((keepLast_sublist _).subset hr))
  have hvalues : ¬ ∃ r ∈ RichGraph.deduplicated
      ((c.records.map Record.toModel).insertionSort PropertyDeltaRecord.le),
      r.value.length > maxUInt32 := by
    rw [← hkept]
    rintro ⟨r, hr, hlong⟩
    obtain ⟨r', hr', rfl⟩ := List.mem_map.mp hr
    exact absurd (hw.values r' hr') (Nat.not_le.mpr hlong)
  have hfits := hw.fitsHeader
  rw [hkept] at hfits
  unfold PropertyDeltaFile.create
  rw [dif_neg fun hnil => hne (List.map_eq_nil_iff.mp hnil), if_neg (create_valid c.created)]
  dsimp only
  rw [if_neg hvalues, dif_pos hfits]
  refine ⟨_, rfl, ?_, hkept.symm⟩
  rw [heq]
  refine metadata_ext hopen.target_eq.symm hopen.generation.symm ?_ ?_ ?_ ?_ ?_ <;> dsimp only
  · rw [hopen.recordCount, ← hkept, List.length_map]
  · rw [hopen.size, hw.length_fileBytes, ← hkept]
    unfold deltaFileBytes headerSize recordSize
    rw [List.length_map, diskValues_map_toModel, Nat.mul_comm]
  · rw [hopen.minCommit, ← hkept, minCommit_map_toModel]
  · rw [hopen.maxCommit, ← hkept, maxCommit_map_toModel]
  · rw [hopen.payloadChecksum, hw.drop_fileBytes, fnv_append, ← hkept]
    unfold payloadChecksum
    rw [diskRecords_map_toModel 0 hrs, diskValues_map_toModel]
    rfl

/-- The store's model of a file is this one without the bytes: it makes a file of the same input,
with the same metadata and the same records, and its lookups find the same. -/
theorem created_files_refine_the_model (c : CreatedFile)
    (hbase : ∀ r ∈ c.records, 0 ≤ r.baseSequence) :
    ∃ f, PropertyDeltaFile.create c.target c.fileGeneration (c.records.map Record.toModel) =
      some f ∧
      f.metadata = c.openFile.metadata ∧
      f.records = (deduplicated c.records).map Record.toModel ∧
      ∀ k readSequence, 0 ≤ k.baseSequence → (c.openFile.lookup k readSequence).value =
        (f.lookup k.toModel readSequence).map fun r => (r.value, r.commitSequence) := by
  obtain ⟨f, hcreate, hmetadata, hrecords⟩ := c.exists_model hbase
  refine ⟨f, hcreate, hmetadata, hrecords, fun k readSequence hk => ?_⟩
  have hrs : ∀ r ∈ deduplicated c.records, 0 ≤ r.baseSequence := fun r hr =>
    hbase r ((List.mem_insertionSort _).mp ((keepLast_sublist _).subset hr))
  -- Both reads come down to the last record of the table that is seen.
  have hsorted : (deduplicated c.records).Pairwise fun a b => SeenBy k readSequence a →
      SeenBy k readSequence b → a.commitSequence ≤ b.commitSequence := by
    refine (sorted_deduplicated c.records).imp fun {a b} hless ha hb => ?_
    refine Nat.not_lt.mp fun hlt => ?_
    have hback : VersionLess b.version a.version := Or.inr ⟨hb.1.trans ha.1.symm, hlt⟩
    rw [versionLess_iff] at hless hback
    exact lt_asymm hless hback
  rw [c.lookup_eq, CreatedFile.newest, ← newestOf_seenBy_deduplicated,
    newestOf_eq_find?_reverse hsorted, f.lookup_eq, hrecords, ← List.map_reverse, List.find?_map,
    Option.map_map]
  have hfind : (deduplicated c.records).reverse.find? (fun r => decide (SeenBy k readSequence r)) =
      (deduplicated c.records).reverse.find? (Seen k.toModel readSequence ∘ Record.toModel) := by
    rw [← List.head?_filter, ← List.head?_filter]
    refine congrArg List.head? (List.filter_congr fun r hr => ?_)
    have hiff : Seen k.toModel readSequence r.toModel = true ↔ SeenBy k readSequence r :=
      seen_toModel_iff (hrs r (List.mem_reverse.mp hr)) hk
    exact Bool.eq_iff_iff.mpr (decide_eq_true_iff.trans hiff.symm)
  rw [hfind]
  rfl

theorem two_updates_refine_the_model : ∃ f : PropertyDeltaFile,
    PropertyDeltaFile.create anEdgeFile 7 (twoUpdates.map Record.toModel) = some f ∧
      f.records = (deduplicated twoUpdates).map Record.toModel := by
  have hbase : ∀ r ∈ twoUpdates, 0 ≤ r.baseSequence := by decide
  obtain ⟨f, hcreate, -, hrecords, -⟩ :=
    created_files_refine_the_model (.of create_twoUpdates) hbase
  exact ⟨f, hcreate, hrecords⟩

end model

end DeltaFormat

end RichGraph
