-- `ForEachEdge` and `ScanEdges` on one property. The iterator gives the records
-- of every source one after the other, the scan sorts them and drops tombstones,
-- and nothing takes out a record that a newer one replaces.
import RichGraph.FlushOrder

namespace RichGraph

open Store

/-! ## The scans -/

/-- A version of an edge of the scanned source. -/
structure EdgeVersionKey where
  dst : Nat
  seq : Nat
deriving DecidableEq

/-- The order of the records of a scan: destinations up, then sequences down. -/
def EdgeVersionKey.le (a b : EdgeVersionKey) : Prop := a.dst < b.dst ∨ a.dst = b.dst ∧ b.seq ≤ a.seq

instance : DecidableRel EdgeVersionKey.le := fun _ _ => inferInstanceAs (Decidable (_ ∨ _))

structure SinglePropertyRecord where
  key : EdgeVersionKey
  value : Bytes
deriving DecidableEq

/-- Not after: the comparison of the stable sort. -/
def SinglePropertyRecord.le (a b : SinglePropertyRecord) : Prop := a.key.le b.key

instance : DecidableRel SinglePropertyRecord.le := fun _ _ => inferInstanceAs (Decidable (_ ∨ _))

instance : Std.Total SinglePropertyRecord.le :=
  ⟨fun a b => by unfold SinglePropertyRecord.le EdgeVersionKey.le; omega⟩

instance : IsTrans SinglePropertyRecord SinglePropertyRecord.le :=
  ⟨fun a b c => by unfold SinglePropertyRecord.le EdgeVersionKey.le; omega⟩

/-- The buffered updates of one property of the source, by version. -/
abbrev BufferedPropertySnapshot := EdgeVersionKey → Option Bytes

def Store.Found.version : Found → EdgeVersionKey
  | .inMemtable _ e => ⟨e.destination, e.sequence⟩
  | .inFile _ r => ⟨r.dst, r.seq⟩

/-- What a scan keeps of a record: `ResolveBufferedProperty` over the column. -/
def scanned (deltas : DeltaLookup) (buffered : BufferedPropertySnapshot) (src propertyId : Nat)
    (x : Found) : SinglePropertyRecord :=
  ⟨x.version, (buffered x.version).getD (x.property deltas (x.key src) propertyId)⟩

/-- The records that are not tombstones, in the order of the iterator. -/
def scannedRecords (s : Store) (deltas : DeltaLookup) (buffered : BufferedPropertySnapshot)
    (src propertyId : Nat) (isOut : Bool) (edgeType : UInt8) : List SinglePropertyRecord :=
  ((s.getEdges src isOut edgeType).filter fun x => !x.marker).map
    (scanned deltas buffered src propertyId)

/-- The last record of every run of equal versions. -/
def lastOfRuns : List SinglePropertyRecord → List SinglePropertyRecord
  | [] => []
  | [r] => [r]
  | r :: r' :: rs => if r'.key = r.key then lastOfRuns (r' :: rs) else r :: lastOfRuns (r' :: rs)

/-- The records sorted, and of each version the last. -/
def lastOfVersions (rs : List SinglePropertyRecord) : List SinglePropertyRecord :=
  lastOfRuns (rs.insertionSort SinglePropertyRecord.le)

/-- What both scans return for one property. -/
def singlePropertyScan (s : Store) (deltas : DeltaLookup) (buffered : BufferedPropertySnapshot)
    (src propertyId : Nat) (isOut : Bool) (edgeType : UInt8) : List SinglePropertyRecord :=
  lastOfVersions (scannedRecords s deltas buffered src propertyId isOut edgeType)

/-- The calls of a callback, which may ask to stop. -/
def callUntil {σ α : Type} (callback : σ → α → σ × Bool) : σ → List α → σ
  | st, [] => st
  | st, r :: rs => if (callback st r).2 then callUntil callback (callback st r).1 rs
    else (callback st r).1

/-- `ForEachEdge`, with what the callback has of the calls before. -/
def forEachEdge {σ : Type} (s : Store) (deltas : DeltaLookup) (buffered : BufferedPropertySnapshot)
    (src propertyId : Nat) (isOut : Bool) (edgeType : UInt8)
    (callback : σ → SinglePropertyRecord → σ × Bool) (st : σ) : σ :=
  callUntil callback st (singlePropertyScan s deltas buffered src propertyId isOut edgeType)

structure GraphDbEdgeScanRecord where
  dst : Nat
  sequence : Nat
  properties : List (String × Bytes)
deriving DecidableEq

def SinglePropertyRecord.toScanRecord (name : String) (r : SinglePropertyRecord) :
    GraphDbEdgeScanRecord := ⟨r.key.dst, r.key.seq, [(name, r.value)]⟩

/-- `ScanEdges` when one property is asked for. -/
def scanEdgesOne (s : Store) (deltas : DeltaLookup) (buffered : BufferedPropertySnapshot)
    (name : String) (src propertyId : Nat) (isOut : Bool) (edgeType : UInt8) :
    List GraphDbEdgeScanRecord :=
  (singlePropertyScan s deltas buffered src propertyId isOut edgeType).map
    (SinglePropertyRecord.toScanRecord name)

/-- A callback that keeps what it is called with and never stops. -/
def collect (acc : List SinglePropertyRecord) (r : SinglePropertyRecord) :
    List SinglePropertyRecord × Bool := (acc ++ [r], true)

theorem callUntil_collect (acc rs : List SinglePropertyRecord) :
    callUntil collect acc rs = acc ++ rs := by
  induction rs generalizing acc with
  | nil => simp [callUntil]
  | cons r rs ih => simp [callUntil, collect, ih]

/-! ## The sort and the runs -/

/-- Without two records of one version nothing is dropped. -/
theorem lastOfRuns_eq_self {rs : List SinglePropertyRecord}
    (h : (rs.map SinglePropertyRecord.key).Nodup) : lastOfRuns rs = rs := by
  fun_induction lastOfRuns rs with
  | case1 => rfl
  | case2 r => rfl
  | case3 r r' rs heq ih =>
    rw [List.map_cons, List.map_cons, List.nodup_cons] at h
    exact absurd (by simp [heq]) h.1
  | case4 r r' rs hne ih =>
    rw [List.map_cons, List.nodup_cons] at h
    rw [ih h.2]

/-- The records of one destination, in the order of their sequences. -/
theorem sequences_of_destination {rs : List SinglePropertyRecord}
    (h : rs.Pairwise SinglePropertyRecord.le) (dst : Nat) :
    ((rs.filter fun r => r.key.dst = dst).map fun r => r.key.seq).Pairwise (· ≥ ·) := by
  rw [List.pairwise_map]
  refine (h.filter _).imp_of_mem ?_
  intro a b ha hb hab
  have ha : a.key.dst = dst := of_decide_eq_true (List.mem_filter.mp ha).2
  have hb : b.key.dst = dst := of_decide_eq_true (List.mem_filter.mp hb).2
  unfold SinglePropertyRecord.le EdgeVersionKey.le at hab
  omega

/-! ## What a scan visits -/

namespace Store

variable {o : Options} {s : Store} {src dst propertyId : Nat} {isOut : Bool} {edgeType : UInt8}

/-- What a scan visits was put: the edge itself, or its record in a file. -/
theorem mem_scanFound (h : Scanned o s) {x : Found} (hx : x ∈ (s.scanFound src).flatten) :
    ∃ e, (src, e) ∈ s.history ∧ ((∃ fid, x = .inMemtable fid e) ∨
      ∃ fid, x = .inFile fid (e.toRecord o.propertyLengths src)) := by
  have hrec : x.record o.propertyLengths src ∈ (s.scanSources o src).flatten := by
    obtain ⟨source, hsource, hx⟩ := List.mem_flatten.mp hx
    exact List.mem_flatten.mpr ⟨_, List.mem_map_of_mem hsource, List.mem_map_of_mem hx⟩
  cases x with
  | inFile fid r =>
    rw [scanSources_flatten h.levels] at hrec
    obtain ⟨e, he, hr⟩ := mem_written.mp ((h.visible src).mem_iff.mp hrec)
    exact ⟨e, he, Or.inr ⟨fid, by rw [hr]; rfl⟩⟩
  | inMemtable fid e =>
    refine ⟨e, ?_, Or.inl ⟨fid, rfl⟩⟩
    unfold scanFound at hx
    split at hx
    · cases hx
    simp only [List.flatten_append, List.mem_append] at hx
    rcases hx with (hx | hx) | hx
    · obtain ⟨source, hsource, hx⟩ := List.mem_flatten.mp hx
      obtain ⟨t, ht, rfl⟩ := List.mem_map.mp hsource
      obtain ⟨e', he', heq⟩ := List.mem_map.mp hx
      cases heq
      exact h.tracked.tables t ht src e he'
    -- The other sources are files.
    · split at hx
      · obtain ⟨source, hsource, hx⟩ := List.mem_flatten.mp hx
        obtain ⟨f, -, rfl⟩ := List.mem_map.mp hsource
        obtain ⟨r, -, heq⟩ := List.mem_map.mp hx
        cases heq
      · cases hx
    · split at hx
      · obtain ⟨source, hsource, hx⟩ := List.mem_flatten.mp hx
        obtain ⟨l, -, rfl⟩ := List.mem_map.mp hsource
        obtain ⟨r, -, heq⟩ := List.mem_map.mp hx
        cases heq
      · cases hx

/-- The puts of an edge that do not delete it, the last one first. -/
def livePuts (s : Store) (k : EdgeKey) : List (Nat × Edge) :=
  s.history.filter fun p => putKey p = k && !p.2.marker

theorem mem_livePuts {k : EdgeKey} {p : Nat × Edge} :
    p ∈ s.livePuts k ↔ p ∈ s.history ∧ putKey p = k ∧ p.2.marker = false := by
  simp [livePuts]

theorem livePuts_pairwise (h : Tracked o s) (k : EdgeKey) :
    (s.livePuts k).Pairwise fun p q => putSequence q < putSequence p := by
  refine (h.history_newer.filter _).imp_of_mem ?_
  intro p q hp hq hpq
  exact hpq ((mem_livePuts.mp hp).2.1.trans (mem_livePuts.mp hq).2.1.symm)

def putVersion (p : Nat × Edge) : EdgeVersionKey := ⟨p.2.destination, p.2.sequence⟩

/-- The versions that a scan keeps are those of the live puts of the source, with the direction
and the type. -/
theorem versions_perm (src propertyId : Nat) (isOut : Bool) (edgeType : UInt8) (h : Scanned o s)
    (deltas : DeltaLookup) (buffered : BufferedPropertySnapshot) :
    ((scannedRecords s deltas buffered src propertyId isOut edgeType).map
      SinglePropertyRecord.key).Perm
    ((s.history.filter fun p => p.1 = src && (p.2.isOut == isOut && p.2.edgeType == edgeType &&
      !p.2.marker)).map putVersion) := by
  have hvisible : ((s.scanFound src).flatten.map (Found.record o.propertyLengths src)).Perm
      (s.written o src) := by
    rw [List.map_flatten]
    exact (List.Perm.of_eq (scanSources_flatten h.levels)).trans (h.visible src)
  let keep : EdgeRecord → Bool := fun r => r.isOut == isOut && r.edgeType == edgeType && !r.marker
  let version : EdgeRecord → EdgeVersionKey := fun r => ⟨r.dst, r.seq⟩
  have hscan : ((scannedRecords s deltas buffered src propertyId isOut edgeType).map
      SinglePropertyRecord.key).Perm
      ((((s.scanFound src).flatten.map (Found.record o.propertyLengths src)).filter keep).map
        version) := by
    unfold scannedRecords getEdges
    rw [List.filter_filter, List.map_map, List.filter_map, List.map_map]
    have hfun : version ∘ Found.record o.propertyLengths src =
        SinglePropertyRecord.key ∘ scanned deltas buffered src propertyId := by
      funext x
      cases x <;> rfl
    have hkeep : (keep ∘ Found.record o.propertyLengths src) = fun x =>
        !x.marker && ((x.key src).isOut == isOut && (x.key src).edgeType == edgeType) := by
      funext x
      cases x <;> exact Bool.and_comm _ _
    rw [hfun, hkeep]
    have hrev : (s.scanFound src).reverse.flatten.Perm (s.scanFound src).flatten :=
      (List.reverse_perm _).flatten
    exact (hrev.filter _).map _
  refine hscan.trans (((hvisible.filter keep).map version).trans (List.Perm.of_eq ?_))
  unfold written
  rw [List.filter_map, List.map_map, List.filter_filter]
  congr 1
  refine List.filter_congr fun p _ => ?_
  exact Bool.and_comm _ _

theorem versions_nodup (h : Scanned o s) (deltas : DeltaLookup)
    (buffered : BufferedPropertySnapshot) :
    ((scannedRecords s deltas buffered src propertyId isOut edgeType).map
      SinglePropertyRecord.key).Nodup := by
  rw [(versions_perm _ _ _ _ h deltas buffered).nodup_iff, List.Nodup, List.pairwise_map]
  refine (h.tracked.history_newer.filter _).imp_of_mem ?_
  intro p q hp hq hpq heq
  simp only [List.mem_filter, Bool.and_eq_true, decide_eq_true_eq, beq_iff_eq] at hp hq
  obtain ⟨hdst, hseq⟩ := EdgeVersionKey.mk.inj heq
  have hkey : putKey p = putKey q := by
    unfold putKey
    rw [hp.2.1, hq.2.1, hdst, hp.2.2.1.1, hq.2.2.1.1, hp.2.2.1.2, hq.2.2.1.2]
  have := hpq hkey
  omega

/-- The scan is the sorted list: no record is dropped. -/
theorem singlePropertyScan_eq (src propertyId : Nat) (isOut : Bool) (edgeType : UInt8)
    (h : Scanned o s) (deltas : DeltaLookup)
    (buffered : BufferedPropertySnapshot) :
    singlePropertyScan s deltas buffered src propertyId isOut edgeType =
      (scannedRecords s deltas buffered src propertyId isOut edgeType).insertionSort
        SinglePropertyRecord.le := by
  apply lastOfRuns_eq_self
  rw [((List.perm_insertionSort _ _).map _).nodup_iff]
  exact versions_nodup h deltas buffered

/-- A scan returns every live put of an edge, the last one first. -/
theorem sequences_of_scan (src dst propertyId : Nat) (isOut : Bool) (edgeType : UInt8)
    (h : Scanned o s) (deltas : DeltaLookup)
    (buffered : BufferedPropertySnapshot) :
    ((singlePropertyScan s deltas buffered src propertyId isOut edgeType).filter
      fun r => r.key.dst = dst).map (fun r => r.key.seq) =
      (s.livePuts ⟨src, dst, isOut, edgeType⟩).map putSequence := by
  rw [singlePropertyScan_eq src propertyId isOut edgeType h]
  refine List.Perm.eq_of_pairwise' (r := (· ≥ ·)) (sequences_of_destination
    (List.pairwise_insertionSort _ _) dst) ?_ ?_
  · rw [List.pairwise_map]
    exact (livePuts_pairwise h.tracked _).imp fun hpq => Nat.le_of_lt hpq
  · -- Both are the live puts of the destination among those that the scan keeps.
    refine (((List.perm_insertionSort _ _).filter _).map _).trans ?_
    have hperm := ((versions_perm src propertyId isOut edgeType h deltas buffered).filter
      fun k => decide (k.dst = dst)).map EdgeVersionKey.seq
    rw [List.filter_map, List.map_map, List.filter_map, List.map_map, List.filter_filter] at hperm
    refine hperm.trans (List.Perm.of_eq ?_)
    unfold livePuts
    congr 1
    refine List.filter_congr fun p _ => ?_
    rw [Bool.eq_iff_iff]
    simp only [Function.comp_apply, putVersion, putKey, Bool.and_eq_true, decide_eq_true_eq,
      beq_iff_eq, Bool.not_eq_true', EdgeKey.mk.injEq]
    constructor
    · rintro ⟨hdst, hsrc, ⟨hout, htype⟩, hlive⟩
      exact ⟨⟨hsrc, of_decide_eq_true hdst, hout, htype⟩, hlive⟩
    · rintro ⟨⟨hsrc, hdst, hout, htype⟩, hlive⟩
      exact ⟨decide_eq_true hdst, hsrc, ⟨hout, htype⟩, hlive⟩

/-- The value of a column as a read gives it: from a table, or what a file keeps of it. -/
def ColumnOf (lengths : List Nat) (propertyId : Nat) (e : Edge) (value : Bytes) : Prop :=
  value = extractSubProperty e.property propertyId ∨
    value = storedSubProperty lengths e.property propertyId

/-- A record of a scan stems from the put of its version. -/
theorem scan_record_of_put (h : Scanned o s) {r : SinglePropertyRecord} {p : Nat × Edge}
    (hr : r ∈ singlePropertyScan s noDeltas (fun _ => none) src propertyId isOut edgeType)
    (hp : p ∈ s.livePuts ⟨src, r.key.dst, isOut, edgeType⟩) (hseq : r.key.seq = putSequence p) :
    ColumnOf o.propertyLengths propertyId p.2 r.value := by
  rw [singlePropertyScan_eq _ _ _ _ h, (List.perm_insertionSort _ _).mem_iff] at hr
  obtain ⟨x, hx, rfl⟩ := List.mem_map.mp hr
  obtain ⟨hx, -⟩ := List.mem_filter.mp hx
  obtain ⟨hx, hdir⟩ := List.mem_filter.mp hx
  obtain ⟨e, he, hfound⟩ := mem_scanFound h
    (((List.reverse_perm _).flatten).mem_iff.mp hx)
  obtain ⟨hp, hpk, -⟩ := mem_livePuts.mp hp
  simp only [Bool.and_eq_true, beq_iff_eq] at hdir
  have hpe : p = (src, e) := by
    refine eq_of_putSequence_eq h.tracked hp he (hpk.trans ?_) (hseq.symm.trans ?_)
    · rcases hfound with ⟨fid, rfl⟩ | ⟨fid, rfl⟩
      · simp [putKey, scanned, Found.version, ← hdir.1, ← hdir.2, Found.key]
      · simp [putKey, scanned, Found.version, ← hdir.1, ← hdir.2, Found.key, Edge.toRecord]
    · rcases hfound with ⟨fid, rfl⟩ | ⟨fid, rfl⟩ <;> rfl
  rw [hpe]
  rcases hfound with ⟨fid, rfl⟩ | ⟨fid, rfl⟩
  · exact Or.inl rfl
  · exact Or.inr rfl

/-! ## One record for each destination -/

/-- What a scan has to return for a destination: one record that carries the last put of the
edge, and nothing when there is none or it deletes the edge. -/
def NewestOnly {α : Type} (Carries : α → Edge → Prop) : Option (Nat × Edge) → List α → Prop
  | none, out => out = []
  | some p, out => if p.2.marker then out = [] else ∃ r, out = [r] ∧ Carries r p.2

/-- A call of `ForEachEdge` carries the version and the value of a put. -/
def SinglePropertyRecord.Carries (lengths : List Nat) (propertyId : Nat) (r : SinglePropertyRecord)
    (e : Edge) : Prop :=
  r.key = ⟨e.destination, e.sequence⟩ ∧ ColumnOf lengths propertyId e r.value

/-- A record of `ScanEdges` carries the version and the value of a put. -/
def GraphDbEdgeScanRecord.Carries (lengths : List Nat) (propertyId : Nat) (name : String)
    (r : GraphDbEdgeScanRecord) (e : Edge) : Prop :=
  r.dst = e.destination ∧ r.sequence = e.sequence ∧
    ∃ value, r.properties = [(name, value)] ∧ ColumnOf lengths propertyId e value

/-- No live put of the edge has been replaced. -/
def NothingReplaced (s : Store) (k : EdgeKey) : Prop := ∀ p ∈ s.livePuts k, s.lastPut k = some p

instance (s : Store) (k : EdgeKey) : Decidable (NothingReplaced s k) :=
  inferInstanceAs (Decidable (∀ _ ∈ _, _))

theorem livePuts_of_nothingReplaced (h : Tracked o s) {k : EdgeKey} (hk : NothingReplaced s k) :
    s.livePuts k = (s.lastPut k).toList.filter fun p => !p.2.marker := by
  cases hlive : s.livePuts k with
  | nil =>
    cases hlast : s.lastPut k with
    | none => rfl
    | some p =>
      have hp : p ∉ s.livePuts k := by rw [hlive]; exact List.not_mem_nil
      have hput := newest_lastPut h k
      rw [hlast] at hput
      cases hm : p.2.marker
      · exact absurd (mem_livePuts.mpr ⟨hput.1, hput.2.1, hm⟩) hp
      · simp [hm]
  | cons p rest =>
    have hlast := hk p (by rw [hlive]; exact List.mem_cons_self)
    have hm := (mem_livePuts.mp (hlive ▸ List.mem_cons_self : p ∈ s.livePuts k)).2.2
    cases rest with
    | nil => simp [hlast, hm]
    | cons q rest =>
      have hq := hk q (by rw [hlive]; simp)
      have hpq := livePuts_pairwise h k
      rw [hlive, List.pairwise_cons] at hpq
      have := hpq.1 q List.mem_cons_self
      rw [hlast] at hq
      cases hq
      omega

section

variable {α : Type} {Carries : α → Edge → Prop} {out : List α} {seq : α → Nat} {k : EdgeKey}

theorem nothingReplaced_of_newestOnly (h : Tracked o s)
    (hseqs : out.map seq = (s.livePuts k).map putSequence)
    (hout : NewestOnly Carries (s.lastPut k) out) : NothingReplaced s k := by
  intro p hp
  obtain ⟨hph, hpk, hpm⟩ := mem_livePuts.mp hp
  have hlast := newest_lastPut h k
  cases hl : s.lastPut k with
  | none =>
    rw [hl] at hlast
    exact absurd hpk (hlast p hph)
  | some q =>
    rw [hl] at hout hlast
    cases hqm : q.2.marker
    · -- Both puts are live, and there is only one.
      simp only [NewestOnly, hqm, Bool.false_eq_true, if_false] at hout
      obtain ⟨r, hr, -⟩ := hout
      have hq : q ∈ s.livePuts k := mem_livePuts.mpr ⟨hlast.1, hlast.2.1, hqm⟩
      rw [hr, List.map_singleton, eq_comm, List.map_eq_singleton_iff] at hseqs
      obtain ⟨x, hx, -⟩ := hseqs
      rw [hx, List.mem_singleton] at hp hq
      rw [hp, hq]
    · simp only [NewestOnly, hqm, if_true] at hout
      rw [hout, List.map_nil, eq_comm, List.map_eq_nil_iff] at hseqs
      rw [hseqs] at hp
      cases hp

theorem newestOnly_of_nothingReplaced (seq : α → Nat) (h : Tracked o s)
    (hseqs : out.map seq = (s.livePuts k).map putSequence)
    (hcarry : ∀ r ∈ out, ∀ p ∈ s.livePuts k, seq r = putSequence p → Carries r p.2)
    (hk : NothingReplaced s k) : NewestOnly Carries (s.lastPut k) out := by
  have hlive := livePuts_of_nothingReplaced h hk
  cases hl : s.lastPut k with
  | none =>
    rw [hlive, hl] at hseqs
    exact List.map_eq_nil_iff.mp hseqs
  | some q =>
    rw [hl] at hlive
    cases hqm : q.2.marker
    · have hone : s.livePuts k = [q] := by simpa [hqm] using hlive
      rw [hone, List.map_singleton, List.map_eq_singleton_iff] at hseqs
      obtain ⟨r, rfl, hseq⟩ := hseqs
      simp only [NewestOnly, hqm, Bool.false_eq_true, if_false]
      exact ⟨r, rfl, hcarry r (by simp) q (by simp [hone]) hseq⟩
    · have hnone : s.livePuts k = [] := by simpa [hqm] using hlive
      rw [hnone, List.map_nil, List.map_eq_nil_iff] at hseqs
      simpa only [NewestOnly, hqm, if_true] using hseqs

end

/-- A record that a scan returns for a destination carries the live put of its sequence. -/
theorem carries_of_scan (h : Scanned o s) {r : SinglePropertyRecord}
    (hr : r ∈ (singlePropertyScan s noDeltas (fun _ => none) src propertyId isOut edgeType).filter
      fun r => r.key.dst = dst) {p : Nat × Edge}
    (hp : p ∈ s.livePuts ⟨src, dst, isOut, edgeType⟩) (hseq : r.key.seq = putSequence p) :
    SinglePropertyRecord.Carries o.propertyLengths propertyId r p.2 := by
  obtain ⟨hr, hdst⟩ := List.mem_filter.mp hr
  have hdst : r.key.dst = dst := of_decide_eq_true hdst
  have hpd : p.2.destination = dst := congrArg EdgeKey.dst (mem_livePuts.mp hp).2.1
  refine ⟨?_, scan_record_of_put h hr (by rw [hdst]; exact hp) hseq⟩
  rw [hpd, ← hdst]
  exact congrArg (EdgeVersionKey.mk r.key.dst) hseq

/-- In every run whose steps lose no file and hide nothing: for a destination, `ForEachEdge` and
`ScanEdges` return one record with the last put if it is live, and none if it deletes the edge, if
and only if no live put of the edge was replaced. -/
theorem scans_return_the_newest_record_iff {o : Options} {s : Store}
    (h : Lib.Reach (step o) (HidesNothing o) (initial o) s) (src dst propertyId : Nat)
    (isOut : Bool) (edgeType : UInt8) (name : String) :
    (NewestOnly (SinglePropertyRecord.Carries o.propertyLengths propertyId)
        (s.lastPut ⟨src, dst, isOut, edgeType⟩)
        ((forEachEdge s noDeltas (fun _ => none) src propertyId isOut edgeType collect []).filter
          fun r => r.key.dst = dst) ∧
      NewestOnly (GraphDbEdgeScanRecord.Carries o.propertyLengths propertyId name)
        (s.lastPut ⟨src, dst, isOut, edgeType⟩)
        ((scanEdgesOne s noDeltas (fun _ => none) name src propertyId isOut edgeType).filter
          fun r => r.dst = dst)) ↔
      NothingReplaced s ⟨src, dst, isOut, edgeType⟩ := by
  have hs := scanned_of_reach h
  have hseqs := sequences_of_scan src dst propertyId isOut edgeType hs noDeltas (fun _ => none)
  have hscan : (scanEdgesOne s noDeltas (fun _ => none) name src propertyId isOut edgeType).filter
      (fun r => r.dst = dst) =
      ((singlePropertyScan s noDeltas (fun _ => none) src propertyId isOut edgeType).filter
        fun r => r.key.dst = dst).map (SinglePropertyRecord.toScanRecord name) := by
    unfold scanEdgesOne
    rw [List.filter_map]
    rfl
  rw [forEachEdge, callUntil_collect, List.nil_append, hscan]
  constructor
  · exact fun hboth => nothingReplaced_of_newestOnly hs.tracked hseqs hboth.1
  · intro hk
    refine ⟨newestOnly_of_nothingReplaced _ hs.tracked hseqs
      (fun r hr p hp hseq => carries_of_scan hs hr hp hseq) hk,
      newestOnly_of_nothingReplaced GraphDbEdgeScanRecord.sequence hs.tracked ?_ ?_ hk⟩
    · rw [List.map_map]
      exact hseqs
    · intro r hr p hp hseq
      obtain ⟨x, hx, rfl⟩ := List.mem_map.mp hr
      obtain ⟨hkey, hvalue⟩ := carries_of_scan hs hx hp hseq
      exact ⟨congrArg EdgeVersionKey.dst hkey, congrArg EdgeVersionKey.seq hkey, x.value,
        rfl, hvalue⟩

/-- One edge is put once and another is only deleted. -/
theorem scans_return_one_put_after_a_flush :
    ∃ s, (Lib.Reach (step smallStore) (HidesNothing smallStore) (initial smallStore) s ∧
        NothingReplaced s ⟨1, 2, true, 0⟩ ∧ s.level0.length = 1 ∧ s.immutables.length = 1) ∧
      NewestOnly (SinglePropertyRecord.Carries [4] 0) (s.lastPut ⟨1, 2, true, 0⟩)
        ((forEachEdge s noDeltas (fun _ => none) 1 0 true 0 collect []).filter
          fun r => r.key.dst = 2) ∧
      NewestOnly (GraphDbEdgeScanRecord.Carries [4] 0 "p") (s.lastPut ⟨1, 2, true, 0⟩)
        ((scanEdgesOne s noDeltas (fun _ => none) "p" 1 0 true 0).filter fun r => r.dst = 2) := by
  obtain ⟨s, hs, hk, hp⟩ := Lib.exists_reach_of_run (step smallStore) (HidesNothing smallStore)
    (initial smallStore)
    [putOneTwo (bytes "a"), .sortAdjacency 0 1, .publish 0,
      .putEdge 1 3 deletedPayload .kSingle true 0]
    (fun s => NothingReplaced s ⟨1, 2, true, 0⟩ ∧ s.level0.length = 1 ∧ s.immutables.length = 1)
    (by decide)
  exact ⟨s, ⟨hs, hk, hp⟩, (scans_return_the_newest_record_iff hs 1 2 0 true 0 "p").mpr hk⟩

/-- The edge `1 → 2` is put twice, `1 → 3` is put and deleted. Both scans return the two versions
of the first and the deleted record of the second. -/
theorem scans_return_replaced_and_deleted_records :
    ∃ s, Lib.Reach (step smallStore) (HidesNothing smallStore) (initial smallStore) s ∧
      (s.lastPut ⟨1, 3, true, 0⟩).any (·.2.marker) = true ∧
      forEachEdge s noDeltas (fun _ => none) 1 0 true 0 collect [] =
        [⟨⟨2, 1⟩, bytes "b"⟩, ⟨⟨2, 0⟩, bytes "a"⟩, ⟨⟨3, 2⟩, bytes "c"⟩] ∧
      scanEdgesOne s noDeltas (fun _ => none) "p" 1 0 true 0 =
        [⟨2, 1, [("p", bytes "b")]⟩, ⟨2, 0, [("p", bytes "a")]⟩, ⟨3, 2, [("p", bytes "c")]⟩] :=
  Lib.exists_reach_of_run (step smallStore) (HidesNothing smallStore) (initial smallStore)
    [putOneTwo (bytes "a"), .publish 0, putOneTwo (bytes "b"),
      .putEdge 1 3 (bytes "c") .kSingle true 0, .putEdge 1 3 deletedPayload .kSingle true 0]
    (fun s => (s.lastPut ⟨1, 3, true, 0⟩).any (·.2.marker) = true ∧
      forEachEdge s noDeltas (fun _ => none) 1 0 true 0 collect [] =
        [⟨⟨2, 1⟩, bytes "b"⟩, ⟨⟨2, 0⟩, bytes "a"⟩, ⟨⟨3, 2⟩, bytes "c"⟩] ∧
      scanEdgesOne s noDeltas (fun _ => none) "p" 1 0 true 0 =
        [⟨2, 1, [("p", bytes "b")]⟩, ⟨2, 0, [("p", bytes "a")]⟩, ⟨3, 2, [("p", bytes "c")]⟩])
    (by decide)

end Store

end RichGraph
