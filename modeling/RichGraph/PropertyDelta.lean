-- The files of property deltas: how a file is made of records, the lookup of one
-- record in a file, and the lookup in a chain of files. A file keeps its records
-- in the order of keys and commits.
import RichGraph.PropertyDeltaManifest
import RichGraph.Lib.BinarySearch
import RichGraph.Lib.Lists
import RichGraph.Lib.Versions
import Mathlib.Data.List.Sort

namespace RichGraph

open Lib

def kLatestPropertyCommit : Nat := 2 ^ 64 - 1

/-! ## The order of records -/

/-- `CompareLogicalKey` is negative. -/
def RecordId.lt (a b : RecordId) : Prop :=
  a.src < b.src ∨ a.src = b.src ∧ (a.dst < b.dst ∨ a.dst = b.dst ∧
    (a.isOut.toNat < b.isOut.toNat ∨ a.isOut.toNat = b.isOut.toNat ∧
      (a.edgeType.toNat < b.edgeType.toNat ∨ a.edgeType.toNat = b.edgeType.toNat ∧
        a.baseSequence < b.baseSequence)))

instance : DecidableRel RecordId.lt := fun _ _ => inferInstanceAs (Decidable (_ ∨ _))

theorem RecordId.lt_irrefl (a : RecordId) : ¬ a.lt a := by
  unfold RecordId.lt
  omega

theorem RecordId.lt_trans {a b c : RecordId} (hab : a.lt b) (hbc : b.lt c) : a.lt c := by
  unfold RecordId.lt at *
  omega

theorem RecordId.eq_of_not_lt {a b : RecordId} (hab : ¬ a.lt b) (hba : ¬ b.lt a) : a = b := by
  obtain ⟨src, dst, baseSequence, isOut, edgeType⟩ := a
  obtain ⟨src', dst', baseSequence', isOut', edgeType'⟩ := b
  simp only [RecordId.lt] at hab hba
  have hout : isOut = isOut' := by
    have hnat : isOut.toNat = isOut'.toNat := by omega
    revert hnat
    cases isOut <;> cases isOut' <;> simp
  have htype : edgeType = edgeType' := UInt8.toNat_inj.mp (by omega)
  rw [RecordId.mk.injEq]
  exact ⟨by omega, by omega, by omega, hout, htype⟩

/-- `RecordLess` -/
def PropertyDeltaRecord.lt (a b : PropertyDeltaRecord) : Prop :=
  a.id.lt b.id ∨ a.id = b.id ∧ a.commitSequence < b.commitSequence

instance : DecidableRel PropertyDeltaRecord.lt := fun _ _ => inferInstanceAs (Decidable (_ ∨ _))

def PropertyDeltaRecord.le (a b : PropertyDeltaRecord) : Prop := ¬ b.lt a

instance : DecidableRel PropertyDeltaRecord.le := fun _ _ => inferInstanceAs (Decidable (¬ _))

theorem PropertyDeltaRecord.le_iff {a b : PropertyDeltaRecord} :
    a.le b ↔ a.id.lt b.id ∨ a.id = b.id ∧ a.commitSequence ≤ b.commitSequence := by
  unfold PropertyDeltaRecord.le PropertyDeltaRecord.lt
  by_cases hlt : a.id.lt b.id
  · have hnot : ¬ b.id.lt a.id := fun h => RecordId.lt_irrefl _ (RecordId.lt_trans hlt h)
    have hne : b.id ≠ a.id := fun h => RecordId.lt_irrefl _ (h ▸ hlt)
    simp [hlt, hnot, hne]
  · by_cases hgt : b.id.lt a.id
    · have hne : a.id ≠ b.id := fun h => RecordId.lt_irrefl _ (h ▸ hgt)
      simp [hlt, hgt, hne]
    · have heq := RecordId.eq_of_not_lt hlt hgt
      simp [heq, RecordId.lt_irrefl]

instance : Std.Total PropertyDeltaRecord.le := ⟨fun a b => by
  rw [PropertyDeltaRecord.le_iff, PropertyDeltaRecord.le_iff]
  by_cases hlt : a.id.lt b.id
  · exact Or.inl (Or.inl hlt)
  · by_cases hgt : b.id.lt a.id
    · exact Or.inr (Or.inl hgt)
    · have heq := RecordId.eq_of_not_lt hlt hgt
      rcases Nat.le_total a.commitSequence b.commitSequence with hle | hle
      · exact Or.inl (Or.inr ⟨heq, hle⟩)
      · exact Or.inr (Or.inr ⟨heq.symm, hle⟩)⟩

instance : IsTrans PropertyDeltaRecord PropertyDeltaRecord.le := ⟨fun a b c hab hbc => by
  rw [PropertyDeltaRecord.le_iff] at *
  rcases hab with hab | ⟨hab, hle⟩ <;> rcases hbc with hbc | ⟨hbc, hle'⟩
  · exact Or.inl (RecordId.lt_trans hab hbc)
  · exact Or.inl (hbc ▸ hab)
  · exact Or.inl (hab ▸ hbc)
  · exact Or.inr ⟨hab.trans hbc, Nat.le_trans hle hle'⟩⟩

def PropertyDeltaRecord.SameVersion (a b : PropertyDeltaRecord) : Prop :=
  a.id = b.id ∧ a.commitSequence = b.commitSequence

instance : DecidableRel PropertyDeltaRecord.SameVersion :=
  fun _ _ => inferInstanceAs (Decidable (_ ∧ _))

theorem PropertyDeltaRecord.lt_of_le {a b : PropertyDeltaRecord} (h : a.le b)
    (hne : ¬ a.SameVersion b) : a.lt b := by
  rcases PropertyDeltaRecord.le_iff.mp h with hlt | ⟨heq, hle⟩
  · exact Or.inl hlt
  · exact Or.inr ⟨heq, Nat.lt_of_le_of_ne hle fun hc => hne ⟨heq, hc⟩⟩

/-! ## Files -/

/-- A delta file, open or on disk. -/
structure PropertyDeltaFile where
  metadata : PropertyDeltaFileMetadata
  records : List PropertyDeltaRecord
  nonempty : records ≠ []
  sorted : records.Pairwise PropertyDeltaRecord.lt
  commits : ∀ r ∈ records, metadata.minCommitSequence ≤ r.commitSequence ∧
    r.commitSequence ≤ metadata.maxCommitSequence
deriving DecidableEq

/-- The last record of every version stays. -/
def deduplicated (rs : List PropertyDeltaRecord) : List PropertyDeltaRecord :=
  keepLast PropertyDeltaRecord.SameVersion rs

/-- `DeltaDiskRecord` for every record; `offset` is where the value of the first one starts. -/
def diskRecords : Nat → List PropertyDeltaRecord → Bytes
  | _, [] => []
  | offset, r :: rs =>
    toLe 8 r.src ++ toLe 8 r.dst ++ toLe 8 r.baseSequence ++ toLe 8 r.commitSequence ++
      toLe 8 offset ++ toLe 4 r.value.length ++ [r.edgeType, if r.isOut then 1 else 0, 0, 0] ++
      diskRecords (offset + r.value.length) rs

def diskValues (rs : List PropertyDeltaRecord) : Bytes := rs.flatMap (·.value)

/-- The size of the file: the header, the records and the values. -/
def deltaFileBytes (rs : List PropertyDeltaRecord) : Nat :=
  120 + 48 * rs.length + (diskValues rs).length

def payloadChecksum (rs : List PropertyDeltaRecord) : Nat :=
  (fnv (fnv fnvOffset (diskRecords 0 rs)) (diskValues rs)).toNat

def minCommit (rs : List PropertyDeltaRecord) : Nat :=
  rs.foldl (fun least r => min least r.commitSequence) kLatestPropertyCommit

def maxCommit (rs : List PropertyDeltaRecord) : Nat :=
  rs.foldl (fun most r => max most r.commitSequence) 0

theorem deduplicated_sorted {rs : List PropertyDeltaRecord}
    (h : rs.Pairwise PropertyDeltaRecord.le) :
    (deduplicated rs).Pairwise PropertyDeltaRecord.lt := by
  refine pairwise_keepLast (fun hle hne => PropertyDeltaRecord.lt_of_le hle hne) ?_ h
  intro a b c hab hbc
  rcases hab with hab | ⟨hab, hc⟩ <;>
    rcases PropertyDeltaRecord.le_iff.mp hbc with hbc | ⟨hbc, hc'⟩
  · exact Or.inl (RecordId.lt_trans hab hbc)
  · exact Or.inl (hbc ▸ hab)
  · exact Or.inl (hab ▸ hbc)
  · exact Or.inr ⟨hab.trans hbc, Nat.lt_of_lt_of_le hc hc'⟩

/-- The numbers fit the fields of the header. -/
def FitsHeader (target : PropertyDeltaTarget) (fileGeneration : Nat)
    (rs : List PropertyDeltaRecord) : Prop :=
  (target.shardId < 256 ^ 4 ∧ target.propertyId < 256 ^ 4 ∧ target.baseFileId < 256 ^ 4 ∧
    target.baseGeneration < 256 ^ 8) ∧
  fileGeneration < 256 ^ 8 ∧ rs.length < 256 ^ 8 ∧ deltaFileBytes rs < 256 ^ 8 ∧
    minCommit rs < 256 ^ 8 ∧ maxCommit rs < 256 ^ 8

instance (target : PropertyDeltaTarget) (fileGeneration : Nat) (rs : List PropertyDeltaRecord) :
    Decidable (FitsHeader target fileGeneration rs) := inferInstanceAs (Decidable (_ ∧ _))

/-- `PropertyDeltaFile::Create`, without its I/O. -/
def PropertyDeltaFile.create (target : PropertyDeltaTarget) (fileGeneration : Nat)
    (records : List PropertyDeltaRecord) : Option PropertyDeltaFile :=
  if hne : records = [] then none
  else if target.baseFileId = invalidFileId then none
  else
    let kept := deduplicated (records.insertionSort PropertyDeltaRecord.le)
    if ∃ r ∈ kept, r.value.length > Manifest.maxUInt32 then none
    else if hfits : FitsHeader target fileGeneration kept then
      some
        { metadata :=
            { target, fileGeneration
              recordCount := kept.length
              fileBytes := deltaFileBytes kept
              minCommitSequence := minCommit kept
              maxCommitSequence := maxCommit kept
              payloadChecksum := payloadChecksum kept
              target_lt := hfits.1
              lt := ⟨hfits.2.1, hfits.2.2.1, hfits.2.2.2.1, hfits.2.2.2.2.1, hfits.2.2.2.2.2,
                UInt64.toNat_lt _⟩ }
          records := kept
          nonempty := by
            apply keepLast_ne_nil
            intro hnil
            have hperm := List.perm_insertionSort PropertyDeltaRecord.le records
            rw [hnil] at hperm
            exact hne hperm.nil_eq.symm
          sorted := deduplicated_sorted (List.pairwise_insertionSort _ _)
          commits := fun r hr => ⟨(foldl_min_le _ kept _).2 r hr, (le_foldl_max _ kept _).2 r hr⟩ }
    else none

theorem PropertyDeltaFile.of_create {target : PropertyDeltaTarget} {generation : Nat}
    {records : List PropertyDeltaRecord} {f : PropertyDeltaFile}
    (h : PropertyDeltaFile.create target generation records = some f) :
    f.metadata.target = target ∧ f.metadata.fileGeneration = generation ∧
      f.records = deduplicated (records.insertionSort PropertyDeltaRecord.le) := by
  unfold PropertyDeltaFile.create at h
  split at h
  · cases h
  · split at h
    · cases h
    · simp only at h
      split at h
      · cases h
      · split at h
        · cases h
          exact ⟨rfl, rfl, rfl⟩
        · cases h

/-- `PropertyDeltaFile::Lookup`: the first record of the key, then the end of the commits that
are to be seen. -/
def PropertyDeltaFile.lookup (f : PropertyDeltaFile) (id : RecordId) (readSequence : Nat) :
    Option PropertyDeltaRecord :=
  if f.metadata.minCommitSequence > readSequence then none
  else
    let first := lowerBound (fun r => !decide (r.id.lt id)) f.records f.records.length 0
      f.records.length
    match f.records[first]? with
    | none => none
    | some r =>
      if r.id ≠ id then none
      else
        let low := lowerBound (fun r => !decide (r.id.lt id ∨ r.id = id ∧
          r.commitSequence ≤ readSequence)) f.records f.records.length first f.records.length
        if low = first then none
        else
          match f.records[low - 1]? with
          | none => none
          | some selected =>
            if selected.id ≠ id ∨ selected.commitSequence > readSequence then none
            else some selected

/-- What a chain shows to its readers. -/
structure PropertyDeltaReadView where
  mergedBase : Option Bytes
  deltas : List PropertyDeltaFile
  generation : Nat
deriving DecidableEq

/-- One file of `PropertyDeltaReadView::Lookup`. -/
def lookupIn (id : RecordId) (readSequence : Nat) (best : Option PropertyDeltaRecord)
    (f : PropertyDeltaFile) : Option PropertyDeltaRecord :=
  if f.metadata.minCommitSequence > readSequence ∨
      (best.any fun b => f.metadata.maxCommitSequence ≤ b.commitSequence) then best
  else
    match f.lookup id readSequence with
    | none => best
    | some r => if best.all fun b => b.commitSequence < r.commitSequence then some r else best

/-- `PropertyDeltaReadView::Lookup`, from the newest file to the oldest. -/
def PropertyDeltaReadView.lookup (v : PropertyDeltaReadView) (id : RecordId) (readSequence : Nat) :
    Option PropertyDeltaRecord := v.deltas.reverse.foldl (lookupIn id readSequence) none

/-! ## What a lookup finds -/

/-- The record that a read sees: of the key, and committed by then. -/
def Seen (id : RecordId) (readSequence : Nat) (r : PropertyDeltaRecord) : Bool :=
  r.id = id && r.commitSequence ≤ readSequence

section

variable {f : PropertyDeltaFile} {id : RecordId} {readSequence : Nat}

/-- The records before the key, those of the key that are to be seen, and the others, with where
the two searches end. -/
theorem PropertyDeltaFile.split_records (f : PropertyDeltaFile) (id : RecordId)
    (readSequence : Nat) :
    ∃ low mid high, f.records = low ++ (mid ++ high) ∧
      (∀ r ∈ low ++ high, Seen id readSequence r = false) ∧
      (∀ r ∈ mid, r.id = id ∧ r.commitSequence ≤ readSequence) ∧
      lowerBound (fun r => !decide (r.id.lt id)) f.records f.records.length 0 f.records.length =
        low.length ∧
      lowerBound (fun r => !decide (r.id.lt id ∨ r.id = id ∧ r.commitSequence ≤ readSequence))
        f.records f.records.length low.length f.records.length = (low ++ mid).length := by
  have hlow : f.records.Pairwise fun a b =>
      decide (b.id.lt id) = true → decide (a.id.lt id) = true := by
    refine f.sorted.imp ?_
    simp only [decide_eq_true_eq]
    rintro a b (hlt | ⟨heq, -⟩) hb
    · exact RecordId.lt_trans hlt hb
    · exact heq ▸ hb
  have hhigh : f.records.Pairwise fun a b =>
      decide (b.id.lt id ∨ b.id = id ∧ b.commitSequence ≤ readSequence) = true →
        decide (a.id.lt id ∨ a.id = id ∧ a.commitSequence ≤ readSequence) = true := by
    refine f.sorted.imp ?_
    simp only [decide_eq_true_eq]
    rintro a b (hlt | ⟨heq, hc⟩) (hb | ⟨hb, hle⟩)
    · exact Or.inl (RecordId.lt_trans hlt hb)
    · exact Or.inl (hb ▸ hlt)
    · exact Or.inl (heq ▸ hb)
    · exact Or.inr ⟨heq.trans hb, by omega⟩
  obtain ⟨low, mid, high, hsplit, hlow, hmid, hhigh, hfirst, hend⟩ := exists_split
    (fun r hr => decide_eq_true (Or.inl (of_decide_eq_true hr))) hlow hhigh (Nat.le_refl _)
  simp only [decide_eq_true_eq, decide_eq_false_iff_not] at hlow hmid hhigh
  refine ⟨low, mid, high, hsplit, fun r hr => ?_, fun r hr => ?_, hfirst, hend⟩
  · rcases List.mem_append.mp hr with hr | hr
    · have hne : r.id ≠ id := fun h => RecordId.lt_irrefl _ (h ▸ hlow r hr)
      simp [Seen, hne]
    · simpa [Seen] using fun heq hle => (hhigh r hr).2 (Or.inr ⟨heq, hle⟩)
  · exact (hmid r hr).2.resolve_left (hmid r hr).1

/-- A lookup in a file gives the last record of the key that is to be seen, which has the
greatest of the commits. -/
theorem PropertyDeltaFile.lookup_eq (f : PropertyDeltaFile) (id : RecordId) (readSequence : Nat) :
    f.lookup id readSequence = f.records.reverse.find? (Seen id readSequence) := by
  obtain ⟨low, mid, high, hsplit, hnot, hmid, hfirst, hend⟩ := f.split_records id readSequence
  have hnone : ∀ rs : List PropertyDeltaRecord, (∀ r ∈ rs, r ∈ low ++ high) →
      rs.reverse.find? (Seen id readSequence) = none := by
    intro rs hrs
    refine List.find?_eq_none.mpr fun r hr => ?_
    simp [hnot r (hrs r (List.mem_reverse.mp hr))]
  have hfind : f.records.reverse.find? (Seen id readSequence) = mid.getLast? := by
    rw [hsplit, List.reverse_append, List.reverse_append, List.append_assoc, List.find?_append,
      List.find?_append, hnone low fun r hr => List.mem_append_left _ hr,
      hnone high fun r hr => List.mem_append_right _ hr, Option.none_or, Option.or_none,
      ← List.head?_reverse]
    cases hrev : mid.reverse with
    | nil => rfl
    | cons r rs =>
      have hr := hmid r (List.mem_reverse.mp (hrev ▸ List.mem_cons_self))
      simp [Seen, hr.1, hr.2]
  rw [hfind]
  unfold PropertyDeltaFile.lookup
  split
  · -- No commit of the file is to be seen.
    rename_i hmin
    cases hlast : mid.getLast? with
    | none => rfl
    | some r =>
      have hr := List.mem_of_getLast? hlast
      have := (f.commits r (by rw [hsplit]; simp [hr])).1
      have := (hmid r hr).2
      omega
  simp only [hfirst, hend]
  rw [hsplit, List.getElem?_append_right (Nat.le_refl _), Nat.sub_self]
  rcases List.eq_nil_or_concat' mid with rfl | ⟨init, r, rfl⟩
  · cases high <;> simp
  · have hr := hmid r (by simp)
    obtain ⟨r₀, hr₀⟩ : ∃ r₀, (init ++ [r])[0]? = some r₀ := by cases init <;> exact ⟨_, rfl⟩
    have hid₀ : r₀.id = id := (hmid r₀ (List.mem_of_getElem? hr₀)).1
    have hlast : (low ++ (init ++ [r] ++ high))[(low ++ (init ++ [r])).length - 1]? = some r := by
      simp
    have hseen : ¬ (r.id ≠ id ∨ r.commitSequence > readSequence) := by
      rw [not_or, not_not]
      exact ⟨hr.1, Nat.not_lt.mpr hr.2⟩
    rw [List.getElem?_append_left (by simp), hr₀]
    simp only [hid₀, ne_eq, not_true_eq_false, if_false, hlast, if_neg hseen]
    simp

end

/-- Of two files the later one has the later commits of every record. -/
def InCommitOrder (deltas : List PropertyDeltaFile) : Prop :=
  deltas.Pairwise fun f g => ∀ a ∈ f.records, ∀ b ∈ g.records, a.id = b.id →
    a.commitSequence ≤ b.commitSequence

instance (deltas : List PropertyDeltaFile) : Decidable (InCommitOrder deltas) :=
  inferInstanceAs (Decidable (List.Pairwise _ _))

/-- The records of a chain, the oldest file first. -/
def chainRecords (deltas : List PropertyDeltaFile) : List PropertyDeltaRecord :=
  deltas.flatMap (·.records)

section

variable {id : RecordId} {readSequence : Nat}

theorem lookupIn_of_le {f : PropertyDeltaFile} {b : PropertyDeltaRecord}
    (h : ∀ r ∈ f.records, r.id = id → r.commitSequence ≤ b.commitSequence) :
    lookupIn id readSequence (some b) f = some b := by
  unfold lookupIn
  split
  · rfl
  · split
    · rfl
    · rename_i r hr
      rw [f.lookup_eq] at hr
      have hmem := List.mem_reverse.mp (List.mem_of_find?_eq_some hr)
      have hid : r.id = id := by
        have := List.find?_some hr
        simp only [Seen, Bool.and_eq_true, decide_eq_true_eq] at this
        exact this.1
      have := h r hmem hid
      rw [if_neg]
      simp only [Option.all_some, decide_eq_true_eq]
      omega

theorem lookupIn_none (f : PropertyDeltaFile) :
    lookupIn id readSequence none f = f.records.reverse.find? (Seen id readSequence) := by
  unfold lookupIn
  split
  · rename_i hmin
    simp only [Option.any_none, Bool.false_eq_true, or_false] at hmin
    rw [eq_comm, List.find?_eq_none]
    intro r hr
    have := (f.commits r (List.mem_reverse.mp hr)).1
    simp only [Seen, Bool.and_eq_true, decide_eq_true_eq, not_and]
    omega
  · rw [f.lookup_eq]
    cases f.records.reverse.find? (Seen id readSequence) <;> rfl

/-- In a chain in commit order a lookup gives the last record of the key that is to be seen. -/
theorem PropertyDeltaReadView.lookup_eq {v : PropertyDeltaReadView} (h : InCommitOrder v.deltas)
    (id : RecordId) (readSequence : Nat) :
    v.lookup id readSequence = (chainRecords v.deltas).reverse.find? (Seen id readSequence) := by
  have hfold : ∀ (fs : List PropertyDeltaFile), fs.Pairwise (fun g f => ∀ a ∈ f.records,
      ∀ b ∈ g.records, a.id = b.id → a.commitSequence ≤ b.commitSequence) →
      fs.foldl (lookupIn id readSequence) none =
        (fs.flatMap fun f => f.records.reverse).find? (Seen id readSequence) := by
    intro fs hfs
    induction fs with
    | nil => rfl
    | cons f fs ih =>
      obtain ⟨hf, hrest⟩ := List.pairwise_cons.mp hfs
      rw [List.foldl_cons, lookupIn_none, List.flatMap_cons, List.find?_append]
      cases hfind : f.records.reverse.find? (Seen id readSequence) with
      | none =>
        rw [Option.none_or]
        exact ih hrest
      | some r =>
        -- The older files have nothing newer than this record.
        rw [Option.some_or]
        have hid : r.id = id := by
          have := List.find?_some hfind
          simp only [Seen, Bool.and_eq_true, decide_eq_true_eq] at this
          exact this.1
        have hr := List.mem_reverse.mp (List.mem_of_find?_eq_some hfind)
        have hkeep : ∀ gs : List PropertyDeltaFile, (∀ g ∈ gs, g ∈ fs) →
            gs.foldl (lookupIn id readSequence) (some r) = some r := by
          intro gs hgs
          induction gs with
          | nil => rfl
          | cons g gs ihg =>
            rw [List.foldl_cons, lookupIn_of_le]
            · exact ihg fun x hx => hgs x (List.mem_cons_of_mem _ hx)
            · intro a ha haid
              exact hf g (hgs g List.mem_cons_self) a ha r hr (haid.trans hid.symm)
        exact hkeep fs fun _ hg => hg
  unfold PropertyDeltaReadView.lookup chainRecords
  rw [hfold v.deltas.reverse (List.pairwise_reverse.mpr h), List.reverse_flatMap]
  rfl

theorem lookupIn_eq_none_iff {best : Option PropertyDeltaRecord} {f : PropertyDeltaFile} :
    lookupIn id readSequence best f = none ↔
      best = none ∧ ∀ r ∈ f.records, Seen id readSequence r = false := by
  cases best with
  | none =>
    rw [lookupIn_none, List.find?_eq_none]
    simp
  | some b =>
    unfold lookupIn
    simp only [reduceCtorEq, false_and, iff_false]
    split
    · simp
    · split
      · simp
      · split <;> simp

/-- A lookup finds something in a chain in any order, if there is something to be seen. -/
theorem PropertyDeltaReadView.lookup_eq_none_iff (v : PropertyDeltaReadView) :
    v.lookup id readSequence = none ↔
      ∀ r ∈ chainRecords v.deltas, Seen id readSequence r = false := by
  have hfold : ∀ (fs : List PropertyDeltaFile) (best : Option PropertyDeltaRecord),
      fs.foldl (lookupIn id readSequence) best = none ↔
        best = none ∧ ∀ f ∈ fs, ∀ r ∈ f.records, Seen id readSequence r = false := by
    intro fs
    induction fs with
    | nil => simp
    | cons f fs ih =>
      intro best
      rw [List.foldl_cons, ih, lookupIn_eq_none_iff, and_assoc, List.forall_mem_cons]
  unfold PropertyDeltaReadView.lookup chainRecords
  rw [hfold]
  simp only [List.mem_reverse, true_and, List.mem_flatMap]
  constructor
  · rintro h r ⟨f, hf, hr⟩
    exact h f hf r hr
  · exact fun h f hf r hr => h r ⟨f, hf, hr⟩

end

end RichGraph
